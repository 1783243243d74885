import AndroidKernel.Timer.Basic
import Mathlib.Data.List.Nodup

/-!
# Every timer runs in its tick

The wheel does what a plain table of due ticks does: a timer is due at the later of its expiry and
the tick that is next when it is armed, it runs in the tick where it is due, and no tick is left
while a timer that was due in it is pending. Ticks and the clock are counted without wrapping
around, and no tick is started before the clock has reached it.
-/

namespace AndroidKernel.Timer

open Function List Level Base Nat

variable {ι : Type} {expires d : ℕ} {level : Level}

/-- The pending timers with the ticks where they are due, the clock, and the next tick. -/
structure Table (ι : Type) where
  jiffies : ℕ
  now : ℕ
  due : ι → Option ℕ

/-- The tick of a timer that is armed now: its expiry is the tick of that number, modulo `2 ^ 32`,
that is nearest to now. -/
def dueTick (now expires : ℕ) : ℕ := (max (now : ℤ) (now + Int.bmod (expires - now) (2 ^ 32))).toNat

/-- What may be seen, and what becomes of the table. -/
inductive Table.Step [DecidableEq ι] (t : Table ι) : Event ι → Table ι → Prop where
  | clock (ticks : ℕ) : t.Step (.clock ticks) { t with jiffies := t.jiffies + ticks }
  | armed (x : ι) (expires : ℕ) : t.Step (.armed x expires)
      { t with due := update t.due x (some (dueTick t.now expires)) }
  | dropped (x : ι) : t.Step (.dropped x) { t with due := update t.due x none }
  /-- The next tick starts when the clock has reached it, and no pending timer was due before. -/
  | tick (hclock : t.now ≤ t.jiffies) (h : ∀ x d, t.due x = some d → t.now ≤ d) :
      t.Step .tick { t with now := t.now + 1 }
  /-- A timer runs in the tick that was started last, which the clock has reached. -/
  | ran (x : ι) (d : ℕ) (hdue : t.due x = some d) (hnow : t.now = d + 1) (hclock : d ≤ t.jiffies) :
      t.Step (.ran x) { t with due := update t.due x none }

/-- A sequence of events. -/
inductive Table.Run [DecidableEq ι] : Table ι → List (Event ι) → Table ι → Prop where
  | nil (t : Table ι) : Table.Run t [] t
  | cons {t t' t'' : Table ι} {e : Event ι} {es : List (Event ι)} (hstep : t.Step e t')
      (hrun : Table.Run t' es t'') : Table.Run t (e :: es) t''

/-- The list is right for a timer that is due at `d`. For the later vectors, the list comes to be
cascaded at the start of the block of ticks that `d` is in, and `lo` bounds that tick from below. -/
def Fits (now : ℕ) (lo : Level → ℕ) (expires d : ℕ) : Place → Prop
  | .work => now = d + 1
  | .vec .tv1 i => i = d % 2 ^ 8 ∧ now ≤ d ∧ d < now + 2 ^ 8
  | .vec level i =>
    i = (d / 2 ^ level.shift) % 2 ^ 6 ∧ lo level ≤ d / 2 ^ level.shift * 2 ^ level.shift ∧
      now ≤ d ∧ d < now + 2 ^ 31 ∧ expires = d % 2 ^ 32

/-- The timer may be added for the tick `d`: its expiry is that tick, or it is in the past and `d`
is the next tick. -/
def Armed (now expires d : ℕ) : Prop :=
  (now ≤ d ∧ d < now + 2 ^ 31 ∧ expires = d % 2 ^ 32) ∨
    (now = d ∧ 2 ^ 31 ≤ u32Sub expires (now % 2 ^ 32))

/-- The base holds the timers of the table, those of `float` apart, which are on no list. -/
structure Holds (s : Base ι) (t : Table ι) (lo : Level → ℕ) (float : List ι) : Prop where
  timerJiffies : s.timerJiffies = t.now % 2 ^ 32
  pending : ∀ x, s.pending x = (t.due x).isSome
  fits : ∀ p, ∀ x ∈ s.lists p, ∃ d, t.due x = some d ∧ Fits t.now lo (s.expires x) d p
  floats : ∀ x ∈ float, ∃ d, t.due x = some d ∧ Armed t.now (s.expires x) d
  nodup : ∀ p, (s.lists p).Nodup
  place_inj : ∀ p q, ∀ x ∈ s.lists p, x ∈ s.lists q → p = q
  float_nodup : float.Nodup
  float_off : ∀ x ∈ float, ∀ p, x ∉ s.lists p
  placed : ∀ x d, t.due x = some d → x ∈ float ∨ ∃ p, x ∈ s.lists p

theorem armed_dueTick (now : ℕ) (h : expires < 2 ^ 32) :
    Armed now expires (dueTick now expires) := by
  unfold Armed dueTick u32Sub u32
  rw [Int.bmod_def]
  split_ifs <;> omega

/-- Where `internal_add_timer` puts a timer that is due at `d`. -/
theorem fits_vecOf {now : ℕ} {lo : Level → ℕ} (hlo : ∀ level, lo level ≤ now + 1)
    (hdue : Armed now expires d) : Fits now lo expires d (vecOf (now % 2 ^ 32) expires) := by
  have h2 := hlo .tv2
  have h3 := hlo .tv3
  have h4 := hlo .tv4
  have h5 := hlo .tv5
  obtain ⟨hge, hlt, rfl⟩ | ⟨rfl, hpast⟩ := hdue
  · have hidx : u32Sub (d % 2 ^ 32) (now % 2 ^ 32) = d - now := by
      unfold u32Sub u32
      omega
    unfold vecOf
    simp only [hidx]
    split_ifs <;> simp only [Fits, shift, and_true] <;> omega
  · unfold vecOf
    rw [if_neg (by omega), if_neg (by omega), if_neg (by omega), if_neg (by omega), if_pos hpast]
    simp only [Fits]
    omega

namespace Base

/-- What a tick does to one of the later vectors. -/
def atBlock (s : Base ι) (level : Level) : Base ι :=
  if s.timerJiffies % 2 ^ level.shift = 0 then s.cascade level (s.index level) else s

theorem timerJiffies_cascade (s : Base ι) (level : Level) (index : ℕ) :
    (s.cascade level index).timerJiffies = s.timerJiffies := by
  have hfold : ∀ (l : List ι) (s : Base ι),
      (l.foldl internalAddTimer s).timerJiffies = s.timerJiffies := by
    intro l
    induction l with
    | nil => exact fun s => rfl
    | cons x l ih => exact fun s => ih _
  exact hfold _ _

theorem cascades_eq (s : Base ι) :
    s.cascades = (((s.atBlock .tv2).atBlock .tv3).atBlock .tv4).atBlock .tv5 := by
  have htake : ∀ (s' : Base ι) (level : Level) {n : ℕ}, level.shift = n →
      s'.timerJiffies = s.timerJiffies → s.timerJiffies % 2 ^ n = 0 →
      s'.atBlock level = s'.cascade level (s.timerJiffies / 2 ^ n % 2 ^ 6) := by
    intro s' level n hn htj h
    rw [atBlock, htj, hn, if_pos h, index, htj, hn]
  have hskip : ∀ (s' : Base ι) (level : Level) {n : ℕ}, level.shift = n →
      s'.timerJiffies = s.timerJiffies → s.timerJiffies % 2 ^ n ≠ 0 → s'.atBlock level = s' := by
    intro s' level n hn htj h
    rw [atBlock, htj, hn, if_neg h]
  unfold cascades
  simp only [index, timerJiffies_cascade, shift]
  split_ifs with h8 h14 h20 h26
  · rw [hskip s .tv2 rfl rfl h8, hskip s .tv3 (n := 14) rfl rfl (by omega),
      hskip s .tv4 (n := 20) rfl rfl (by omega), hskip s .tv5 (n := 26) rfl rfl (by omega)]
  · have htj := timerJiffies_cascade s .tv2 (s.timerJiffies / 2 ^ 8 % 2 ^ 6)
    rw [htake s .tv2 (n := 8) rfl rfl (by omega), hskip _ .tv3 (n := 14) rfl htj (by omega),
      hskip _ .tv4 (n := 20) rfl htj (by omega), hskip _ .tv5 (n := 26) rfl htj (by omega)]
  all_goals
    have htj := timerJiffies_cascade s .tv2 (s.timerJiffies / 2 ^ 8 % 2 ^ 6)
    have htj3 := (timerJiffies_cascade _ .tv3 (s.timerJiffies / 2 ^ 14 % 2 ^ 6)).trans htj
    have htj4 := (timerJiffies_cascade _ .tv4 (s.timerJiffies / 2 ^ 20 % 2 ^ 6)).trans htj3
    rw [htake s .tv2 (n := 8) rfl rfl (by omega), htake _ .tv3 (n := 14) rfl htj (by omega)]
  · rw [hskip _ .tv4 (n := 20) rfl htj3 (by omega), hskip _ .tv5 (n := 26) rfl htj3 (by omega)]
  · rw [htake _ .tv4 (n := 20) rfl htj3 (by omega), hskip _ .tv5 (n := 26) rfl htj4 (by omega)]
  · rw [htake _ .tv4 (n := 20) rfl htj3 (by omega), htake _ .tv5 (n := 26) rfl htj4 (by omega)]

end Base

namespace Holds

variable {s : Base ι} {t : Table ι} {lo : Level → ℕ} {float : List ι} {x : ι}

theorem off (h : Holds s t lo float) (hx : t.due x = none) (p : Place) : x ∉ s.lists p := by
  intro hmem
  obtain ⟨d, hdue, -⟩ := h.fits p x hmem
  rw [hx] at hdue
  cases hdue

/-- `internal_add_timer` puts one of the floating timers on its list. -/
theorem internalAddTimer (h : Holds s t lo (x :: float)) (hlo : ∀ level, lo level ≤ t.now + 1) :
    Holds (s.internalAddTimer x) t lo float := by
  obtain ⟨d, hdue, harmed⟩ := h.floats x (mem_cons_self ..)
  have hfits := fits_vecOf hlo harmed
  rw [← h.timerJiffies] at hfits
  have hoff := h.float_off x (mem_cons_self ..)
  have hnodup := List.nodup_cons.mp h.float_nodup
  have hmem : ∀ p y, y ∈ (s.internalAddTimer x).lists p ↔
      y ∈ s.lists p ∨ (y = x ∧ p = vecOf s.timerJiffies (s.expires x)) := by
    intro p y
    simp only [Base.internalAddTimer]
    by_cases hp : p = vecOf s.timerJiffies (s.expires x)
    · subst hp
      simp
    · simp [hp]
  refine ⟨h.timerJiffies, h.pending, ?_, ?_, ?_, ?_, hnodup.2, ?_, ?_⟩
  · intro p y hy
    obtain hy | ⟨rfl, rfl⟩ := (hmem p y).mp hy
    · exact h.fits p y hy
    · exact ⟨d, hdue, hfits⟩
  · exact fun y hy => h.floats y (mem_cons_of_mem _ hy)
  · intro p
    simp only [Base.internalAddTimer]
    by_cases hp : p = vecOf s.timerJiffies (s.expires x)
    · subst hp
      rw [update_self]
      exact List.nodup_append.mpr ⟨h.nodup _, nodup_singleton x, fun a ha b hb => by
        rw [mem_singleton] at hb
        exact fun hab => hoff _ (hb ▸ hab ▸ ha)⟩
    · rw [update_of_ne hp]
      exact h.nodup p
  · intro p q y hp hq
    obtain hp | ⟨rfl, rfl⟩ := (hmem p y).mp hp
    · obtain hq | ⟨rfl, rfl⟩ := (hmem q y).mp hq
      · exact h.place_inj p q y hp hq
      · exact (hoff _ (by assumption)).elim
    · obtain hq | ⟨-, rfl⟩ := (hmem q _).mp hq
      · exact absurd hq (hoff q)
      · rfl
  · intro y hy p hp
    obtain hp | ⟨rfl, -⟩ := (hmem p y).mp hp
    · exact h.float_off y (mem_cons_of_mem _ hy) p hp
    · exact hnodup.1 hy
  · intro y d' hd'
    obtain hy | ⟨p, hp⟩ := h.placed y d' hd'
    · obtain rfl | hy := List.mem_cons.mp hy
      · exact .inr ⟨_, (hmem _ _).mpr (.inr ⟨rfl, rfl⟩)⟩
      · exact .inl hy
    · exact .inr ⟨p, (hmem p y).mpr (.inl hp)⟩

/-- The loop of `cascade`. -/
theorem foldl_internalAddTimer (h : Holds s t lo float) (hlo : ∀ level, lo level ≤ t.now + 1) :
    Holds (float.foldl Base.internalAddTimer s) t lo [] := by
  induction float generalizing s with
  | nil => exact h
  | cons x float ih => exact ih (h.internalAddTimer hlo)

/-- The bound of a vector can be raised when no timer of it is in a block that starts now. -/
theorem raise (h : Holds s t lo float) (level : Level)
    (hnone : ∀ i, ∀ x ∈ s.lists (.vec level i), ∀ d, t.due x = some d →
      Fits t.now lo (s.expires x) d (.vec level i) →
      t.now < d / 2 ^ level.shift * 2 ^ level.shift) :
    Holds s t (update lo level (t.now + 1)) float := by
  refine { h with fits := fun p x hx => ?_ }
  obtain ⟨d, hdue, hfits⟩ := h.fits p x hx
  refine ⟨d, hdue, ?_⟩
  cases p with
  | work => exact hfits
  | vec l i =>
    by_cases hl : l = level
    · subst hl
      have hlt := hnone i x hx d hdue hfits
      cases l with
      | tv1 => exact hfits
      | tv2 | tv3 | tv4 | tv5 => exact ⟨hfits.1, by simpa using succ_le_of_lt hlt, hfits.2.2⟩
    · cases l with
      | tv1 => exact hfits
      | tv2 | tv3 | tv4 | tv5 => simpa [Fits, update_of_ne hl] using hfits

/-- `cascade`, at the start of a block of ticks of the vector. -/
theorem cascade (h : Holds s t lo []) (hlo : ∀ level, lo level ≤ t.now + 1)
    (hlevel : level ≠ .tv1) (hnow : lo level = t.now) (hblock : t.now % 2 ^ level.shift = 0) :
    Holds (s.cascade level (s.index level)) t (update lo level (t.now + 1)) [] := by
  have hlo' : ∀ l, update lo level (t.now + 1) l ≤ t.now + 1 := by
    intro l
    by_cases hl : l = level
    · simp [hl]
    · simpa [update_of_ne hl] using hlo l
  refine foldl_internalAddTimer (s := { s with lists := _ }) ?_ hlo'
  have hmem : ∀ p x, x ∈ update s.lists (.vec level (s.index level)) [] p ↔
      x ∈ s.lists p ∧ p ≠ .vec level (s.index level) := by
    intro p x
    by_cases hp : p = .vec level (s.index level)
    · subst hp
      simp
    · simp [hp]
  have hfloat : Holds { s with lists := update s.lists (.vec level (s.index level)) [] } t lo
      (s.lists (.vec level (s.index level))) := by
    refine ⟨h.timerJiffies, h.pending, ?_, ?_, ?_, ?_, h.nodup _, ?_, ?_⟩
    · exact fun p x hx => h.fits p x ((hmem p x).mp hx).1
    · intro x hx
      obtain ⟨d, hdue, hfits⟩ := h.fits _ x hx
      refine ⟨d, hdue, .inl ?_⟩
      cases level with
      | tv1 => exact absurd rfl hlevel
      | tv2 | tv3 | tv4 | tv5 => exact hfits.2.2
    · intro p
      by_cases hp : p = .vec level (s.index level)
      · subst hp
        simp
      · simpa [hp] using h.nodup p
    · exact fun p q x hp hq => h.place_inj p q x ((hmem p x).mp hp).1 ((hmem q x).mp hq).1
    · intro x hx p hp
      obtain ⟨hp, hne⟩ := (hmem p x).mp hp
      exact hne (h.place_inj p _ x hp hx)
    · intro x d hdue
      obtain hx | ⟨p, hp⟩ := h.placed x d hdue
      · cases hx
      · by_cases hne : p = .vec level (s.index level)
        · exact .inl (hne ▸ hp)
        · exact .inr ⟨p, (hmem p x).mpr ⟨hp, hne⟩⟩
  refine hfloat.raise level fun i x hx d _ hfits => ?_
  have hi : i ≠ s.index level := fun hi => ((hmem _ x).mp hx).2 (by rw [hi])
  rw [Base.index, h.timerJiffies] at hi
  cases level with
  | tv1 => exact absurd rfl hlevel
  | tv2 | tv3 | tv4 | tv5 =>
    simp only [Fits, Level.shift] at hfits hblock hi ⊢
    omega

theorem skip (h : Holds s t lo []) (hlevel : level ≠ .tv1)
    (hnow : lo level = t.now) (hblock : t.now % 2 ^ level.shift ≠ 0) :
    Holds s t (update lo level (t.now + 1)) [] := by
  refine h.raise level fun i x _ d _ hfits => ?_
  cases level with
  | tv1 => exact absurd rfl hlevel
  | tv2 | tv3 | tv4 | tv5 =>
    simp only [Fits, shift] at hfits hblock ⊢
    omega

theorem atBlock (h : Holds s t lo []) (hlo : ∀ level, lo level ≤ t.now + 1) (level : Level)
    (hlevel : level ≠ .tv1) (hnow : lo level = t.now) :
    Holds (s.atBlock level) t (update lo level (t.now + 1)) [] := by
  have hmod : s.timerJiffies % 2 ^ level.shift = t.now % 2 ^ level.shift := by
    rw [h.timerJiffies]
    cases level <;> simp only [shift] <;> omega
  unfold Base.atBlock
  split_ifs with hblock
  · exact h.cascade hlo hlevel hnow (hmod ▸ hblock)
  · exact h.skip hlevel hnow (hmod ▸ hblock)

theorem mono (h : Holds s t lo float) {lo' : Level → ℕ}
    (hle : ∀ level, level ≠ .tv1 → lo' level ≤ lo level) : Holds s t lo' float := by
  refine { h with fits := fun p x hx => ?_ }
  obtain ⟨d, hdue, hfits⟩ := h.fits p x hx
  refine ⟨d, hdue, ?_⟩
  cases p with
  | work => exact hfits
  | vec l i =>
    cases l with
    | tv1 => exact hfits
    | tv2 | tv3 | tv4 | tv5 => exact ⟨hfits.1, le_trans (hle _ (by decide)) hfits.2.1,
      hfits.2.2⟩

theorem cascades (h : Holds s t (fun _ => t.now) []) :
    Holds s.cascades t (fun _ => t.now + 1) [] := by
  have hle : ∀ (lo : Level → ℕ) level, (∀ l, lo l ≤ t.now + 1) →
      ∀ l, update lo level (t.now + 1) l ≤ t.now + 1 := by
    intro lo level hlo l
    by_cases hl : l = level
    · simp [hl]
    · simpa [update_of_ne hl] using hlo l
  have h0 : ∀ l : Level, (fun _ : Level => t.now) l ≤ t.now + 1 := fun _ => le_succ _
  have h2 := h.atBlock h0 .tv2 (by decide) rfl
  have h3 := h2.atBlock (hle _ _ h0) .tv3 (by decide) rfl
  have h4 := h3.atBlock (hle _ _ (hle _ _ h0)) .tv4 (by decide) rfl
  have h5 := h4.atBlock (hle _ _ (hle _ _ (hle _ _ h0))) .tv5 (by decide) rfl
  rw [cascades_eq]
  refine h5.mono fun level hlevel => ?_
  cases level with
  | tv1 => exact absurd rfl hlevel
  | tv2 | tv3 | tv4 | tv5 => exact le_refl _

/-- A pending timer was due in the last tick and is on the work list, or it is in the wheel. -/
theorem spot (h : Holds s t lo []) (hdue : t.due x = some d) : (t.now = d + 1 ∧ x ∈ s.lists .work) ∨
      (t.now ≤ d ∧ ∃ level i, x ∈ s.lists (.vec level i)) := by
  obtain hx | ⟨p, hp⟩ := h.placed x d hdue
  · cases hx
  · obtain ⟨d', hdue', hfits⟩ := h.fits p x hp
    obtain rfl : d = d' := Option.some.inj (hdue.symm.trans hdue')
    cases p with
    | work => exact .inl ⟨hfits, hp⟩
    | vec l i =>
      refine .inr ⟨?_, l, i, hp⟩
      cases l with
      | tv1 => exact hfits.2.1
      | tv2 | tv3 | tv4 | tv5 => exact hfits.2.2.1

theorem now_le (h : Holds s t lo []) (hwork : s.lists .work = []) (hdue : t.due x = some d) :
    t.now ≤ d := by
  obtain ⟨-, hx⟩ | ⟨hle, -⟩ := h.spot hdue
  · rw [hwork] at hx
    cases hx
  · exact hle

theorem tick (h : Holds s t (fun _ => t.now) []) (hwork : s.lists .work = []) :
    Holds s.tick { t with now := t.now + 1 } (fun _ => t.now + 1) [] := by
  have hc := h.cascades
  have hp : s.timerJiffies % 2 ^ 8 = t.now % 2 ^ 8 := by
    rw [h.timerJiffies]
    omega
  -- What is due now is on the list that the tick takes, and all else is due later.
  have hwork' : s.cascades.lists .work = [] := by
    refine List.eq_nil_iff_forall_not_mem.mpr fun x hx => ?_
    obtain ⟨d, hdue, hfits⟩ := hc.fits _ x hx
    have := h.now_le hwork hdue
    simp only [Fits] at hfits
    omega
  have hlists : s.tick.lists = fun p => if p = .vec .tv1 (t.now % 2 ^ 8) then []
      else if p = .work then s.cascades.lists (.vec .tv1 (t.now % 2 ^ 8))
      else s.cascades.lists p := by
    funext p
    simp only [Base.tick, hp, update_apply]
  have hmem : ∀ p x, x ∈ s.tick.lists p ↔ (x ∈ s.cascades.lists p ∧ p ≠ .vec .tv1 (t.now % 2 ^ 8)) ∨
      (p = .work ∧ x ∈ s.cascades.lists (.vec .tv1 (t.now % 2 ^ 8))) := by
    intro p x
    rw [hlists]
    by_cases hwork : p = .work
    · simp [hwork, hwork']
    · by_cases hp : p = .vec .tv1 (t.now % 2 ^ 8)
      · simp [hp]
      · simp only [hp, hwork, if_false, ne_eq, not_false_eq_true, and_true, false_and, or_false]
  refine ⟨?_, hc.pending, ?_, ?_, ?_, ?_, nodup_nil, ?_, ?_⟩
  · simp only [Base.tick, u32, hc.timerJiffies]
    omega
  · intro p x hx
    obtain ⟨hx, hne⟩ | ⟨rfl, hx⟩ := (hmem p x).mp hx
    · obtain ⟨d, hdue, hfits⟩ := hc.fits p x hx
      refine ⟨d, hdue, ?_⟩
      cases p with
      | work => rw [hwork'] at hx; cases hx
      | vec l i =>
        cases l with
        | tv1 =>
          simp only [ne_eq, Place.vec.injEq, true_and] at hne
          simp only [Fits] at hfits ⊢
          omega
        | tv2 | tv3 | tv4 | tv5 =>
          refine ⟨hfits.1, hfits.2.1, Nat.le_trans hfits.2.1 (Nat.div_mul_le_self ..), ?_,
            hfits.2.2.2.2⟩
          have := hfits.2.2.2.1
          simp only
          omega
    · obtain ⟨d, hdue, hfits⟩ := hc.fits _ x hx
      refine ⟨d, hdue, ?_⟩
      simp only [Fits] at hfits ⊢
      omega
  · intro x hx
    cases hx
  · intro p
    rw [hlists]
    simp only
    split_ifs
    · exact nodup_nil
    · exact hc.nodup _
    · exact hc.nodup p
  · intro p q x hxp hxq
    obtain ⟨hp₁, hnep⟩ | ⟨rfl, hp₁⟩ := (hmem p x).mp hxp
    · obtain ⟨hq₁, hneq⟩ | ⟨rfl, hq₁⟩ := (hmem q x).mp hxq
      · exact hc.place_inj p q x hp₁ hq₁
      · exact absurd (hc.place_inj _ _ x hp₁ hq₁) hnep
    · obtain ⟨hq₁, hneq⟩ | ⟨rfl, hq₁⟩ := (hmem q x).mp hxq
      · exact absurd (hc.place_inj _ _ x hq₁ hp₁) hneq
      · rfl
  · intro x hx
    cases hx
  · intro x d hdue
    obtain hx | ⟨p, hxp⟩ := hc.placed x d hdue
    · cases hx
    · by_cases hpe : p = .vec .tv1 (t.now % 2 ^ 8)
      · exact .inr ⟨.work, (hmem _ _).mpr (.inr ⟨rfl, hpe ▸ hxp⟩)⟩
      · exact .inr ⟨p, (hmem _ _).mpr (.inl ⟨hxp, hpe⟩)⟩

section Detach

variable [DecidableEq ι]

theorem detach (h : Holds s t lo []) (x : ι) :
    Holds { s.detachTimer x with pending := update s.pending x false }
      { t with due := update t.due x none } lo [] := by
  have hmem : ∀ p y, y ∈ (s.detachTimer x).lists p ↔ y ≠ x ∧ y ∈ s.lists p := fun p y =>
    (h.nodup p).mem_erase_iff
  refine ⟨h.timerJiffies, ?_, ?_, ?_, ?_, ?_, nodup_nil, ?_, ?_⟩
  · intro y
    by_cases hy : y = x
    · simp [hy]
    · simpa [hy] using h.pending y
  · intro p y hy
    obtain ⟨hne, hy⟩ := (hmem p y).mp hy
    obtain ⟨d, hdue, hfits⟩ := h.fits p y hy
    exact ⟨d, by simpa [hne] using hdue, hfits⟩
  · intro y hy
    cases hy
  · exact fun p => (h.nodup p).erase x
  · exact fun p q y hp hq => h.place_inj p q y ((hmem p y).mp hp).2 ((hmem q y).mp hq).2
  · intro y hy
    cases hy
  · intro y d hdue
    by_cases hy : y = x
    · simp [hy] at hdue
    · obtain hf | ⟨p, hp⟩ := h.placed y d (by simpa [hy] using hdue)
      · cases hf
      · exact .inr ⟨p, (hmem p y).mpr ⟨hy, hp⟩⟩

/-- A timer that is on no list becomes due at `d`. -/
theorem arm (h : Holds s t lo []) (hx : t.due x = none)
    (harmed : Armed t.now expires d) (hlo : ∀ level, lo level ≤ t.now + 1) :
    Holds (Base.internalAddTimer { s with
        expires := update s.expires x expires
        pending := update s.pending x true } x)
      { t with due := update t.due x (some d) } lo [] := by
  refine Holds.internalAddTimer ?_ hlo
  have hoff := h.off hx
  refine ⟨h.timerJiffies, ?_, ?_, ?_, h.nodup, h.place_inj, nodup_singleton x, ?_, ?_⟩
  · intro y
    by_cases hy : y = x
    · simp [hy]
    · simpa [hy] using h.pending y
  · intro p y hy
    have hne : y ≠ x := fun heq => hoff p (heq ▸ hy)
    simpa [hne] using h.fits p y hy
  · intro y hy
    obtain rfl := List.mem_singleton.mp hy
    exact ⟨d, by simp, by simpa using harmed⟩
  · intro y hy p
    obtain rfl := List.mem_singleton.mp hy
    exact hoff p
  · intro y d' hdue
    by_cases hy : y = x
    · exact .inl (by simp [hy])
    · obtain hf | hp := h.placed y d' (by simpa [hy] using hdue)
      · cases hf
      · exact .inr hp

/-- `__mod_timer` arms a timer, pending or not. -/
theorem modTimerBase (h : Holds s t (fun _ => t.now) []) (x : ι) (hexpires : expires < 2 ^ 32) :
    Holds (s.modTimerBase x expires)
      { t with due := update t.due x (some (dueTick t.now expires)) }
      (fun _ => t.now) [] := by
  have harm := (h.detach x).arm (x := x) (by simp) (armed_dueTick t.now hexpires)
    fun _ => le_succ _
  simp only [update_idem] at harm
  unfold Base.modTimerBase
  split_ifs with hpending
  · exact harm
  · have hnone : t.due x = none := by
      rw [h.pending x] at hpending
      exact Option.not_isSome_iff_eq_none.mp hpending
    have hsame : s.detachTimer x = s := by
      have : (fun p => (s.lists p).erase x) = s.lists :=
        funext fun p => erase_of_not_mem (h.off hnone p)
      rw [detachTimer, this]
    rwa [hsame] at harm

end Detach

end Holds

end AndroidKernel.Timer
