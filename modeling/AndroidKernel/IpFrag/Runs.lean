import AndroidKernel.IpFrag.Basic
import Mathlib.Data.List.TakeWhile

/-!
# Runs of the reassembly

Whatever fragments come, the queue holds them in order and without overlap, and a datagram that is
delivered consists of bytes that were received. A fragment that is rejected may have moved the end
of the datagram before.
-/

namespace AndroidKernel.IpFrag

open List Frag Nat

variable {hist : List Skb} {q q' : Queue} {env : Env} {skb : Skb} {f : Frag} {back : List Frag}
  {a b stop : ℕ} {err : ℤ}

/-- The fragments in the queue stand in order and without overlap from `a` to `b`. -/
abbrev Laid (a b : ℕ) (fs : List Frag) : Prop := Within offset data a b fs

/-- Every byte of the fragment is the byte at its place of some fragment that was received. -/
def Frag.From (hist : List Skb) (f : Frag) : Prop :=
  ∀ j x, f.data[j]? = some x → ∃ skb ∈ hist, skb.offset ≤ f.offset + j ∧
    skb.payload[f.offset + j - skb.offset]? = some x

/-- The fragment without its first `i` bytes. -/
def Frag.cut (f : Frag) (i : ℕ) : Frag := { f with offset := f.offset + i, data := f.data.drop i }

/-- The fragments cover the datagram. -/
def Covers (q : Queue) : Prop :=
  ∀ k < q.len, ∃ f ∈ q.fragments, f.offset ≤ k ∧ k < f.offset + f.data.length

/-- The queue is in order. -/
structure Sound (hist : List Skb) (q : Queue) : Prop where
  laid : Laid 0 q.len q.fragments
  meat : q.meat = total data q.fragments
  first : ∀ f ∈ q.fragments, f.offset = 0 → q.first = true
  bytes : ∀ f ∈ q.fragments, f.From hist

theorem Frag.cut_zero (f : Frag) : f.cut 0 = f := rfl

theorem Frag.From.cut (h : f.From hist) (i : ℕ) : (f.cut i).From hist := by
  intro j x hx
  rw [Frag.cut, List.getElem?_drop] at hx
  have hplace : f.offset + (i + j) = (f.cut i).offset + j := (add_assoc _ _ _).symm
  exact hplace ▸ h (i + j) x hx

theorem Sound.mono (h : Sound hist q) (skb : Skb) : Sound (hist ++ [skb]) q :=
  ⟨h.laid, h.meat, h.first, fun f hf j x hx => by
    obtain ⟨r, hr, hfrom⟩ := h.bytes f hf j x hx
    exact ⟨r, mem_append_left _ hr, hfrom⟩⟩

theorem sound_init (hist : List Skb) : Sound hist .init :=
  ⟨le_rfl, rfl, fun _ hf => absurd hf not_mem_nil, fun _ hf => absurd hf not_mem_nil⟩

section Place

theorem overlap_eq (front : List Frag) (offset : ℕ) :
    overlap front offset = lastEnd Frag.offset Frag.data 0 front - offset := by
  rcases eq_nil_or_concat front with rfl | ⟨l, prev, rfl⟩
  · exact (Nat.zero_sub _).symm
  · rw [concat_eq_append, overlap, getLast?_concat, lastEnd_append]
    rfl

theorem eatNext_spec (pullNext : Bool) (h : Laid a b back) (hstop : stop ≤ b) :
    Laid a b (eatNext pullNext stop back).2.1 ∧
      ((eatNext pullNext stop back).1 = true → Laid stop b (eatNext pullNext stop back).2.1) ∧
      total data (eatNext pullNext stop back).2.1 + (eatNext pullNext stop back).2.2 =
        total data back ∧
      ∀ f ∈ (eatNext pullNext stop back).2.1, ∃ g ∈ back, ∃ i, f = g.cut i := by
  induction back generalizing a with
  | nil => exact ⟨h, fun _ => hstop, rfl, fun _ hf => absurd hf not_mem_nil⟩
  | cons next back ih =>
    have hself : ∀ f ∈ next :: back, ∃ g ∈ next :: back, ∃ i, f = g.cut i :=
      fun f hf => ⟨f, hf, 0, f.cut_zero.symm⟩
    simp only [eatNext]
    split_ifs with hlt hin hpull
    · -- the head of the next one goes
      have hlen : (next.data.drop (stop - next.offset)).length =
          next.data.length - (stop - next.offset) := length_drop
      have hne : next.data.drop (stop - next.offset) ≠ [] := ne_nil_of_length_pos (by omega)
      have hrest : Laid (next.offset + (stop - next.offset) +
          (next.data.drop (stop - next.offset)).length) b back := by
        rw [show next.offset + (stop - next.offset) +
          (next.data.drop (stop - next.offset)).length = next.offset + next.data.length by omega]
        exact h.2.2
      refine ⟨⟨h.1.trans (le_add_right _ _), hne, hrest⟩, fun _ => ⟨?_, hne, hrest⟩, ?_, ?_⟩
      · simp only
        omega
      · simp only [total_cons, hlen]
        omega
      · intro f hf
        rcases List.mem_cons.mp hf with rfl | hf
        · exact ⟨next, mem_cons_self, _, rfl⟩
        · exact hself f (mem_cons_of_mem _ hf)
    · exact ⟨h, fun hfalse => hfalse.elim, rfl, hself⟩
    · -- the next one is covered
      obtain ⟨hlaid, hbehind, htotal, hcut⟩ := ih h.2.2
      refine ⟨hlaid.mono (h.1.trans (le_add_right _ _)) le_rfl, hbehind, ?_, ?_⟩
      · simp only [total_cons]
        omega
      · intro f hf
        obtain ⟨g, hg, hfg⟩ := hcut f hf
        exact ⟨g, mem_cons_of_mem _ hg, hfg⟩
    · exact ⟨h, fun _ => ⟨Nat.le_of_not_lt hlt, h.2⟩, rfl, hself⟩

theorem eatNext_pulled (stop : ℕ) (back : List Frag) : (eatNext true stop back).1 = true := by
  induction back with
  | nil => rfl
  | cons next back ih =>
    simp only [eatNext]
    split_ifs <;> first | rfl | exact ih

theorem place_keeps (env : Env) (ihl offset stop : ℕ) (data : List UInt8) (q : Queue) :
    (place env ihl offset stop data q).2.complete = q.complete ∧
      (place env ihl offset stop data q).2.len = q.len := by
  simp only [place]
  split_ifs <;> exact ⟨rfl, rfl⟩

theorem Sound.place (h : Sound hist q) {ihl offset : ℕ} {data : List UInt8}
    (hdata : offset + data.length = stop) (hne : offset ≠ stop) (hstop : stop ≤ q.len)
    (hfrom : (⟨offset, ihl, data⟩ : Frag).From hist) (env : Env) :
    Sound hist (place env ihl offset stop data q).2 := by
  obtain ⟨front, hfront⟩ : ∃ front, front = q.fragments.takeWhile (·.offset < offset) := ⟨_, rfl⟩
  obtain ⟨back, hback⟩ : ∃ back, back = q.fragments.dropWhile (·.offset < offset) := ⟨_, rfl⟩
  have hsplit : q.fragments = front ++ back := by rw [hfront, hback, takeWhile_append_dropWhile]
  have hlaid := Within.append_iff.mp (hsplit ▸ h.laid)
  have hmeat := h.meat
  rw [hsplit, total_append] at hmeat
  have hover := overlap_eq front offset
  obtain ⟨hkeep, hbehind, htotal, hcut⟩ := eatNext_spec env.pullNext hlaid.2 hstop
  have hfirst (f : Frag) (hf : f ∈ front ∨ f ∈ (eatNext env.pullNext stop back).2.1)
      (hzero : f.offset = 0) : q.first = true := by
    rcases hf with hf | hf
    · exact h.first f (by rw [hsplit]; exact mem_append_left _ hf) hzero
    · obtain ⟨g, hg, i, rfl⟩ := hcut f hf
      exact h.first g (by rw [hsplit]; exact mem_append_right _ hg)
        (Nat.eq_zero_of_add_eq_zero_right hzero)
  have hbytes (f : Frag) (hf : f ∈ front ∨ f ∈ (eatNext env.pullNext stop back).2.1) :
      f.From hist := by
    rcases hf with hf | hf
    · exact h.bytes f (by rw [hsplit]; exact mem_append_left _ hf)
    · obtain ⟨g, hg, i, rfl⟩ := hcut f hf
      exact (h.bytes g (by rw [hsplit]; exact mem_append_right _ hg)).cut i
  simp only [IpFrag.place, ← hfront, ← hback]
  split_ifs with hcontained hpull hok
  · exact h
  · exact h
  · have hlen : (data.drop (overlap front offset)).length = data.length - overlap front offset :=
      length_drop
    have hpos : 0 < (data.drop (overlap front offset)).length := by omega
    refine ⟨Within.append_iff.mpr ⟨hlaid.1, ?_, ?_, ?_⟩, ?_, fun f hf hzero => ?_, fun f hf => ?_⟩
    · simp only
      omega
    · exact ne_nil_of_length_pos hpos
    · simp only
      rw [show offset + overlap front offset + (data.drop (overlap front offset)).length = stop by
        omega]
      exact hbehind hok
    · simp only [total_append, total_cons]
      omega
    · simp only [mem_append, mem_cons] at hf
      rcases hf with hf | rfl | hf
      · simp [hfirst f (.inl hf) hzero]
      · exact Bool.or_eq_true_iff.mpr (.inr (decide_eq_true hzero))
      · simp [hfirst f (.inr hf) hzero]
    · simp only [mem_append, mem_cons] at hf
      rcases hf with hf | rfl | hf
      · exact hbytes f (.inl hf)
      · exact hfrom.cut (overlap front offset)
      · exact hbytes f (.inr hf)
  · refine ⟨Within.append_iff.mpr ⟨hlaid.1, hkeep⟩, ?_, fun f hf => ?_, fun f hf => ?_⟩
    · simp only [total_append]
      omega
    · exact hfirst f (List.mem_append.mp hf)
    · exact hbytes f (List.mem_append.mp hf)

end Place

section Insert

/-- What `ip_frag_queue` does to the end of the datagram. -/
theorem checkEnd_spec (h : checkEnd skb q = some q') :
    q'.fragments = q.fragments ∧ q'.meat = q.meat ∧ q'.first = q.first ∧
      q'.complete = q.complete ∧ q.len ≤ q'.len ∧ skb.stop ≤ q'.len := by
  unfold checkEnd at h
  split_ifs at h with hmf hbad hlong hlast
  · obtain rfl := Option.some_inj.mp h
    refine ⟨rfl, rfl, rfl, rfl, ?_, le_rfl⟩
    simp only
    omega
  · obtain rfl := Option.some_inj.mp h
    exact ⟨rfl, rfl, rfl, rfl, le_of_lt hlong, le_rfl⟩
  · obtain rfl := Option.some_inj.mp h
    exact ⟨rfl, rfl, rfl, rfl, le_rfl, Nat.le_of_not_lt hlong⟩

theorem Sound.checkEnd (h : Sound hist q) (heq : checkEnd skb q = some q') : Sound hist q' := by
  obtain ⟨hfrag, hmeat, hfirst, -, hlen, -⟩ := checkEnd_spec heq
  exact ⟨by rw [hfrag]; exact h.laid.mono le_rfl hlen, by rw [hmeat, hfrag]; exact h.meat,
    by rw [hfrag, hfirst]; exact h.first, by rw [hfrag]; exact h.bytes⟩

theorem Sound.startOver (h : Sound hist q) (env : Env) (skb : Skb) :
    Sound hist (startOver env skb q).2 := by
  unfold IpFrag.startOver
  split_ifs
  · exact sound_init hist
  · exact ⟨h.laid, h.meat, h.first, h.bytes⟩
  · exact h

theorem stop_le (skb : Skb) : skb.stop ≤ skb.offset + skb.payload.length := by
  unfold Skb.stop
  split_ifs
  · exact div_mul_le_self _ _
  · exact le_rfl

theorem offset_le_stop (skb : Skb) : skb.offset ≤ skb.stop := by
  unfold Skb.stop Skb.offset
  split_ifs <;> omega

theorem from_received (hist : List Skb) (skb : Skb) (n : ℕ) :
    (⟨skb.offset, skb.ihl, skb.payload.take n⟩ : Frag).From (hist ++ [skb]) := by
  intro j x hx
  refine ⟨skb, mem_append_right _ (mem_singleton_self _), le_add_right _ _, ?_⟩
  rw [Nat.add_sub_cancel_left]
  simp only [List.getElem?_take] at hx
  split_ifs at hx
  exact hx

theorem Sound.insert (h : Sound hist q) (env : Env) (skb : Skb) :
    Sound (hist ++ [skb]) (insert env skb q).2 := by
  have hstart := (h.mono skb).startOver env skb
  rw [IpFrag.insert]
  by_cases hcomplete : q.complete = true
  · rw [if_pos hcomplete]
    exact h.mono skb
  · rw [if_neg hcomplete]
    cases hr : IpFrag.startOver env skb q with
    | mk r q₁ =>
      rw [hr] at hstart
      cases r with
      | some err => exact hstart
      | none =>
        cases hend : IpFrag.checkEnd skb q₁ with
        | none =>
          simp only [hend]
          exact hstart
        | some q₂ =>
          have h₂ := hstart.checkEnd hend
          have hle := offset_le_stop skb
          have hstop := stop_le skb
          simp only [hend]
          split_ifs with hempty
          iterate 3
            · exact h₂
          · refine h₂.place ?_ (Ne.symm hempty) (checkEnd_spec hend).2.2.2.2.2
              (from_received hist skb _) env
            rw [length_take]
            omega

theorem insert_accepted (h : (insert env skb q).1 = none) :
    (insert env skb q).2.complete = false ∧ 0 < (insert env skb q).2.len := by
  rw [insert] at h ⊢
  by_cases hcomplete : q.complete = true
  · rw [if_pos hcomplete] at h
    cases h
  · rw [if_neg hcomplete] at h ⊢
    have hstart : (startOver env skb q).1 = none → (startOver env skb q).2.complete = false := by
      unfold startOver
      split_ifs
      · exact fun _ => rfl
      · exact fun hnone => by cases hnone
      · exact fun _ => Bool.eq_false_iff.mpr hcomplete
    cases hr : startOver env skb q with
    | mk r q₁ =>
      rw [hr] at h hstart
      cases r with
      | some err => cases h
      | none =>
        cases hend : checkEnd skb q₁ with
        | none =>
          simp only [hend] at h
          cases h
        | some q₂ =>
          obtain ⟨-, -, -, hc, -, hstop⟩ := checkEnd_spec hend
          have hle := offset_le_stop skb
          simp only [hend] at h ⊢
          split_ifs at h ⊢ with hempty
          have hplace := place_keeps env skb.ihl skb.offset skb.stop
            (skb.payload.take (skb.stop - skb.offset)) q₂
          rw [hplace.1, hplace.2, hc]
          exact ⟨hstart rfl, by omega⟩

end Insert

section Reassembly

/-- The test before `ip_frag_reasm` is exact. -/
theorem Sound.ready_iff (h : Sound hist q) (hcomplete : q.complete = false) (hpos : 0 < q.len) :
    q.ready = true ↔ q.last = true ∧ Covers q := by
  have hfills : total Frag.data q.fragments = q.len ↔ Covers q := by
    have := h.laid.fills_iff
    rw [zero_add] at this
    rw [this]
    exact ⟨fun hall k hk => hall k (Nat.zero_le k) hk, fun hall k _ hk => hall k hk⟩
  have hmeat : (q.meat == (q.len : ℤ)) = true ↔ Covers q := by
    rw [beq_iff_eq, h.meat, Nat.cast_inj, hfills]
  simp only [Queue.ready, Bool.and_eq_true, hmeat, hcomplete, Bool.not_false, and_true]
  refine ⟨fun hall => ⟨hall.1.2, hall.2⟩, fun hall => ⟨⟨?_, hall.1⟩, hall.2⟩⟩
  obtain ⟨f, hf, hzero, -⟩ := hall.2 0 hpos
  exact h.first f hf (Nat.le_zero.mp hzero)

/-- What is put together has the length of the datagram, and bytes that were received. -/
theorem Sound.payload (h : Sound hist q) (hfull : Covers q) :
    (q.fragments.flatMap data).length = q.len ∧
      ∀ k x, (q.fragments.flatMap data)[k]? = some x → ∃ skb ∈ hist, skb.offset ≤ k ∧
        skb.payload[k - skb.offset]? = some x := by
  have htotal : 0 + total data q.fragments = q.len := h.laid.fills_iff.mpr fun k _ hk => hfull k hk
  refine ⟨by rw [length_flatMap_eq_total, ← htotal, zero_add], fun k x hx => ?_⟩
  obtain ⟨f, hf, hoff, hfx⟩ := h.laid.getElem?_flatMap htotal hx
  rw [zero_add] at hoff hfx
  obtain ⟨r, hr, hroff, hrx⟩ := h.bytes f hf _ x hfx
  rw [Nat.add_sub_cancel' hoff] at hroff hrx
  exact ⟨r, hr, hroff, hrx⟩

/-- The queue is in order, or its fragments have been delivered. -/
def InOrder (hist : List Skb) (q : Queue) : Prop :=
  Sound hist q ∨ q.complete = true ∧ q.fragments = []

theorem insert_of_complete (h : q.complete = true) : insert env skb q = (some (-enoent), q) :=
  if_pos h

theorem reasm_cases (env : Env) (prev : Bool) (q : Queue) :
    (∃ err, reasm env prev q = (.error err, q.kill)) ∨
      reasm env prev q = (.ok (q.fragments.flatMap data), { q.kill with fragments := [] }) := by
  unfold reasm
  split_ifs
  iterate 3
    · exact .inl ⟨_, rfl⟩
  · exact .inr rfl

/-- What `ip_frag_queue` may do, after the insertion. -/
inductive Outcome (q : Queue) : Option ℤ → Verdict × Queue → Prop
  | rejected (err : ℤ) : Outcome q (some err) (.rejected err, q)
  | queued (hready : q.ready = false) : Outcome q none (.queued, q)
  | failed (hready : q.ready = true) (err : ℤ) : Outcome q none (.failed err, q.kill)
  | delivered (hready : q.ready = true) :
      Outcome q none (.delivered (q.fragments.flatMap data), { q.kill with fragments := [] })

theorem ipFragQueue_outcome (env : Env) (skb : Skb) (q : Queue) :
    Outcome (insert env skb q).2 (insert env skb q).1 (ipFragQueue env skb q) := by
  rw [ipFragQueue]
  cases hr : insert env skb q with
  | mk r q₁ =>
    cases r with
    | some err => exact .rejected err
    | none =>
      simp only
      by_cases hready : q₁.ready = true
      · rw [if_pos hready]
        rcases reasm_cases env (q₁.fragments.any (·.offset < skb.offset)) q₁ with ⟨err, heq⟩ | heq
        · rw [heq]
          exact .failed hready err
        · rw [heq]
          exact .delivered hready
      · rw [if_neg hready]
        exact .queued (Bool.eq_false_iff.mpr hready)

theorem InOrder.ipFragQueue (h : InOrder hist q) (env : Env) (skb : Skb) :
    InOrder (hist ++ [skb]) (ipFragQueue env skb q).2 := by
  rcases h with h | ⟨hcomplete, hnil⟩
  · have hins := h.insert env skb
    have hout := ipFragQueue_outcome env skb q
    generalize IpFrag.ipFragQueue env skb q = r at hout ⊢
    generalize (insert env skb q).1 = e at hout
    cases hout with
    | rejected | queued => exact .inl hins
    | failed => exact .inl ⟨hins.laid, hins.meat, hins.first, hins.bytes⟩
    | delivered => exact .inr ⟨rfl, rfl⟩
  · have hins : insert env skb q = (some (-enoent), q) := insert_of_complete hcomplete
    rw [IpFrag.ipFragQueue, hins]
    exact .inr ⟨hcomplete, hnil⟩

end Reassembly

section Rejection

/-- No buffer operation fails, the fragment is not empty, and if it is the last one and lies within
a fragment that begins before it, the end was known already. -/
structure Regular (env : Env) (skb : Skb) (q : Queue) : Prop where
  pull : env.pull = true
  trim : env.trim = true
  pullHead : env.pullHead = true
  pullNext : env.pullNext = true
  nonempty : skb.stop ≠ skb.offset
  known : skb.mf = false → (∃ f ∈ q.fragments, f.offset < skb.offset ∧
    skb.stop ≤ f.offset + f.data.length) → q.last = true

/-- A fragment can only be rejected for its place when it lies within the one before. -/
theorem place_rejected {ihl offset : ℕ} {data : List UInt8}
    (hhead : env.pullHead = true) (hnext : env.pullNext = true)
    (h : (place env ihl offset stop data q).1 = some err) :
    (place env ihl offset stop data q).2 = q ∧
      ∃ f ∈ q.fragments, f.offset < offset ∧ stop ≤ f.offset + f.data.length := by
  simp only [place, hhead, hnext, Bool.true_eq_false, and_false, if_false, eatNext_pulled,
    if_true] at h ⊢
  split_ifs at h ⊢ with hcontained
  refine ⟨rfl, ?_⟩
  obtain ⟨hpos, hstop⟩ := hcontained
  rw [overlap] at hpos hstop
  cases hlast : (q.fragments.takeWhile (·.offset < offset)).getLast? with
  | none => simp [hlast] at hpos
  | some prev =>
    simp only [hlast] at hpos hstop
    have hmem := mem_of_getLast? hlast
    refine ⟨prev, ( takeWhile_prefix _).subset hmem, ?_, by omega⟩
    have hlt := mem_takeWhile_imp hmem
    exact of_decide_eq_true hlt

/-- A fragment that lies within the queue moves the end only when it tells that it is the last. -/
theorem checkEnd_within (hstop : skb.stop ≤ q.len) (hknown : skb.mf = false → q.last = true)
    (heq : checkEnd skb q = some q') : q' = q := by
  unfold checkEnd at heq
  split_ifs at heq with hmf hbad hlong
  · have hlast := hknown (by simpa using hmf)
    have hlen : skb.stop = q.len := by
      by_contra hne
      exact hbad (.inr ⟨hlast, hne⟩)
    rw [← Option.some_inj.mp heq, hlen, ← hlast]
  · omega
  · exact (Option.some_inj.mp heq).symm

theorem checkEnd_init (skb : Skb) : ∃ q, checkEnd skb .init = some q := by
  have hlast : ¬(Queue.init.last = true) := Bool.false_ne_true
  have hbad : ¬(skb.stop < Queue.init.len ∨ Queue.init.last = true ∧ skb.stop ≠ Queue.init.len) :=
    fun hor => hor.elim (not_lt_zero _) fun hand => hlast hand.1
  rw [checkEnd, if_neg hbad, if_neg hlast]
  split_ifs <;> exact ⟨_, rfl⟩

/-- A regular fragment that is rejected leaves the queue as it was, or killed. -/
theorem Sound.rejected (h : Sound hist q) (hreg : Regular env skb q)
    (hrej : (IpFrag.insert env skb q).1 = some err) :
    (IpFrag.insert env skb q).2 = q ∨ (IpFrag.insert env skb q).2 = q.kill := by
  rw [IpFrag.insert] at hrej ⊢
  by_cases hcomplete : q.complete = true
  · rw [if_pos hcomplete]
    exact .inl rfl
  rw [if_neg hcomplete] at hrej ⊢
  by_cases hover : (!skb.fragComplete && env.tooFar && !q.fragments.isEmpty) = true
  · have hstart : IpFrag.startOver env skb q =
        if env.timer then (none, .init) else (some (-etimedout), q.kill) := if_pos hover
    cases htimer : env.timer with
    | false =>
      rw [hstart, htimer]
      exact .inr rfl
    | true =>
      -- nothing contradicts the fragment any more
      rw [hstart, htimer, if_pos rfl] at hrej
      obtain ⟨q₁, hend⟩ := checkEnd_init skb
      simp only [hend, hreg.pull, hreg.trim, Bool.not_true, Bool.false_and, Bool.false_eq_true,
        if_false, if_neg hreg.nonempty] at hrej
      obtain ⟨-, f, hf, -⟩ := place_rejected hreg.pullHead hreg.pullNext hrej
      rw [(checkEnd_spec hend).1] at hf
      exact absurd hf not_mem_nil
  · have hstart : IpFrag.startOver env skb q = (none, q) := if_neg hover
    rw [hstart] at hrej ⊢
    cases hend : IpFrag.checkEnd skb q with
    | none =>
      simp only [hend]
      exact .inl trivial
    | some q₁ =>
      simp only [hend, hreg.pull, hreg.trim, Bool.not_true, Bool.false_and, Bool.false_eq_true,
        if_false, if_neg hreg.nonempty] at hrej ⊢
      obtain ⟨hsame, f, hf, hbefore, hwithin⟩ := place_rejected hreg.pullHead hreg.pullNext hrej
      rw [(checkEnd_spec hend).1] at hf
      have hlen := (h.laid.mem hf).2.2
      left
      rw [hsame]
      exact checkEnd_within (hwithin.trans hlen)
        (fun hmf => hreg.known hmf ⟨f, hf, hbefore, hwithin⟩)
        hend

end Rejection

/-- The queue after the fragments that were received. -/
def run (steps : List (Env × Skb)) : Queue :=
  steps.foldl (fun q s => (ipFragQueue s.1 s.2 q).2) .init

/-- Every fragment of the run is regular in the queue that it finds. -/
def RegularRun : List (Env × Skb) → Queue → Prop
  | [], _ => True
  | s :: steps, q => Regular s.1 s.2 q ∧ RegularRun steps (ipFragQueue s.1 s.2 q).2

section Runs

theorem inOrder_foldl (steps : List (Env × Skb)) (h : InOrder hist q) :
    InOrder (hist ++ steps.map Prod.snd)
      (steps.foldl (fun q s => (ipFragQueue s.1 s.2 q).2) q) := by
  induction steps generalizing hist q with
  | nil => rwa [map_nil, append_nil]
  | cons s steps ih =>
    rw [map_cons, append_cons]
    exact ih (h.ipFragQueue s.1 s.2)

/-- A datagram that is complete has been handed to `ip_frag_reasm`. -/
def Waiting (q : Queue) : Prop := q.complete = true ∨ ¬(q.last = true ∧ Covers q)

section

variable (h : InOrder hist q)
include h

theorem Waiting.ipFragQueue (hwait : Waiting q) (hreg : Regular env skb q) :
    Waiting (ipFragQueue env skb q).2 := by
  rcases h with h | ⟨hcomplete, -⟩
  · have hins := h.insert env skb
    have hrej (err : ℤ) (he : (insert env skb q).1 = some err) := h.rejected hreg he
    have hacc (he : (insert env skb q).1 = none) := insert_accepted he
    have hout := ipFragQueue_outcome env skb q
    generalize IpFrag.ipFragQueue env skb q = r at hout ⊢
    generalize (insert env skb q).1 = e at hout hrej hacc
    cases hout with
    | rejected err =>
      simp only
      rcases hrej err rfl with heq | heq
      · rwa [heq]
      · rw [heq]
        exact .inl rfl
    | queued hready =>
      obtain ⟨hcomplete, hpos⟩ := hacc rfl
      right
      rw [← hins.ready_iff hcomplete hpos, hready]
      exact Bool.false_ne_true
    | failed | delivered => exact .inl rfl
  · rw [IpFrag.ipFragQueue, insert_of_complete hcomplete]
    exact .inl hcomplete

theorem waiting_foldl {steps : List (Env × Skb)} (hwait : Waiting q) (hreg : RegularRun steps q) :
    Waiting (steps.foldl (fun q s => (ipFragQueue s.1 s.2 q).2) q) := by
  induction steps generalizing hist q with
  | nil => exact hwait
  | cons s steps ih => exact ih (h.ipFragQueue s.1 s.2) (hwait.ipFragQueue h hreg.1) hreg.2

theorem InOrder.sound_of_accepted (hnone : (insert env skb q).1 = none) : Sound hist q := by
  rcases h with h | ⟨hcomplete, -⟩
  · exact h
  · rw [insert_of_complete hcomplete] at hnone
    cases hnone

/-- The test before `ip_frag_reasm` is exact for every fragment that is in the queue. -/
theorem InOrder.ready_iff (hnone : (insert env skb q).1 = none) :
    (insert env skb q).2.ready = true ↔
      (insert env skb q).2.last = true ∧ Covers (insert env skb q).2 := by
  obtain ⟨hcomplete, hpos⟩ := insert_accepted hnone
  exact ((h.sound_of_accepted hnone).insert env skb).ready_iff hcomplete hpos

theorem InOrder.delivered {payload : List UInt8}
    (hout : (IpFrag.ipFragQueue env skb q).1 = .delivered payload) :
    payload.length = (IpFrag.ipFragQueue env skb q).2.len ∧
      ∀ k x, payload[k]? = some x → ∃ r ∈ hist ++ [skb], r.offset ≤ k ∧
        r.payload[k - r.offset]? = some x := by
  have hcases := ipFragQueue_outcome env skb q
  have hready (hnone : (insert env skb q).1 = none) := h.ready_iff hnone
  have hsound (hnone : (insert env skb q).1 = none) := (h.sound_of_accepted hnone).insert env skb
  generalize IpFrag.ipFragQueue env skb q = r at hout hcases ⊢
  generalize (insert env skb q).1 = e at hcases hready hsound
  cases hcases with
  | rejected | queued | failed => cases hout
  | delivered hr =>
    cases hout
    exact (hsound rfl).payload ((hready rfl).mp hr).2

theorem InOrder.rejected (hreg : Regular env skb q)
    (hout : (IpFrag.ipFragQueue env skb q).1 = .rejected err) :
    (IpFrag.ipFragQueue env skb q).2.len = q.len ∧
      (IpFrag.ipFragQueue env skb q).2.first = q.first ∧
      (IpFrag.ipFragQueue env skb q).2.last = q.last := by
  rcases h with h | ⟨hcomplete, -⟩
  · have hcases := ipFragQueue_outcome env skb q
    have hrej (err : ℤ) (he : (insert env skb q).1 = some err) := h.rejected hreg he
    generalize IpFrag.ipFragQueue env skb q = r at hout hcases ⊢
    generalize (insert env skb q).1 = e at hcases hrej
    cases hcases with
    | rejected err =>
      simp only
      rcases hrej err rfl with heq | heq
      all_goals
        rw [heq]
        exact ⟨rfl, rfl, rfl⟩
    | queued | failed | delivered => cases hout
  · rw [IpFrag.ipFragQueue, insert_of_complete hcomplete]
    exact ⟨rfl, rfl, rfl⟩

end

end Runs

/-- For every sequence of fragments: the queue holds fragments in order, without overlap, within the
datagram, and counts their bytes until they are delivered. After a fragment is put in the queue,
`ip_frag_reasm` is called exactly when the end is known and the datagram is covered, and a datagram
that is delivered has the right length and bytes that were received. A regular fragment that is
rejected changes neither the end nor the flags; and when all were regular, no datagram that is
covered and whose end is known is left in the queue. -/
theorem reassembly (steps : List (Env × Skb)) :
    (run steps).fragments.Pairwise (fun f g => f.offset + f.data.length ≤ g.offset) ∧
    (∀ f ∈ (run steps).fragments, f.offset + f.data.length ≤ (run steps).len) ∧
    ((run steps).meat = ((run steps).fragments.map fun f => f.data.length).sum ∨
      (run steps).complete = true ∧ (run steps).fragments = []) ∧
    (∀ env skb, (insert env skb (run steps)).1 = none →
      ((insert env skb (run steps)).2.ready = true ↔
        (insert env skb (run steps)).2.last = true ∧ Covers (insert env skb (run steps)).2)) ∧
    (∀ env skb payload, (ipFragQueue env skb (run steps)).1 = .delivered payload →
      payload.length = (ipFragQueue env skb (run steps)).2.len ∧
      ∀ k x, payload[k]? = some x → ∃ r ∈ steps.map Prod.snd ++ [skb], r.offset ≤ k ∧
        r.payload[k - r.offset]? = some x) ∧
    (∀ env skb err, Regular env skb (run steps) →
      (ipFragQueue env skb (run steps)).1 = .rejected err →
      (ipFragQueue env skb (run steps)).2.len = (run steps).len ∧
      (ipFragQueue env skb (run steps)).2.first = (run steps).first ∧
      (ipFragQueue env skb (run steps)).2.last = (run steps).last) ∧
    (RegularRun steps .init → (run steps).complete = true ∨
      ¬((run steps).last = true ∧ Covers (run steps))) := by
  have hinit : InOrder [] .init := .inl (sound_init [])
  have h : InOrder (steps.map Prod.snd) (run steps) := inOrder_foldl steps hinit
  refine ⟨?_, ?_, ?_, fun env skb => h.ready_iff, fun env skb payload => h.delivered,
    fun env skb err hreg => h.rejected hreg, fun hreg => ?_⟩
  · rcases h with h | ⟨-, hnil⟩
    · exact h.laid.pairwise
    · rw [hnil]
      exact .nil
  · rcases h with h | ⟨-, hnil⟩
    · exact fun f hf => (h.laid.mem hf).2.2
    · rw [hnil]
      exact fun f hf => absurd hf not_mem_nil
  · exact h.imp (fun h => h.meat) id
  · exact waiting_foldl hinit (.inr fun hall => Bool.false_ne_true hall.1) hreg

/-- Nothing fails. -/
def fine : Env := ⟨false, true, true, true, true, true, true, true, true⟩

/-- A datagram of ten bytes in two fragments. -/
def twoFragments : List (Env × Skb) :=
  [(fine, ⟨0, true, 20, [1, 2, 3, 4, 5, 6, 7, 8], false⟩), (fine, ⟨1, false, 20, [9, 10], false⟩)]

theorem reassembly_twoFragments : RegularRun twoFragments .init ∧
    ((run twoFragments).complete = true ∨
      ¬((run twoFragments).last = true ∧ Covers (run twoFragments))) := by
  have hreg : RegularRun twoFragments .init :=
    ⟨⟨rfl, rfl, rfl, rfl, by decide, fun h => by cases h⟩,
      ⟨rfl, rfl, rfl, rfl, by decide, fun _ => by decide⟩, trivial⟩
  exact ⟨hreg, (reassembly twoFragments).2.2.2.2.2.2 hreg⟩

/-- The queue with the first 16 bytes of a datagram. -/
def sixteen : Queue := run [(fine, ⟨0, true, 20, replicate 16 1, false⟩)]

/-- The last fragment of the datagram, from byte 8 to byte 16. -/
def lastHalf : Skb := ⟨1, false, 20, replicate 8 1, false⟩

/-- The last fragment is rejected, since its bytes are in the queue; but the end is known from then
on, and the datagram is covered without being delivered. -/
theorem rejected_fragment_ends_datagram :
    (ipFragQueue fine lastHalf sixteen).1 = .rejected (-einval) ∧ sixteen.last = false ∧
      (ipFragQueue fine lastHalf sixteen).2.last = true ∧
      (ipFragQueue fine lastHalf sixteen).2.ready = true := by
  decide

end AndroidKernel.IpFrag
