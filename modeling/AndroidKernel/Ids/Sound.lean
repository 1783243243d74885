import AndroidKernel.Ids.Basic
import AndroidKernel.Lib.Digits
import Mathlib.Algebra.BigOperators.Fin

/-!
# What an id tree holds

A tree of a height denotes a map from ids to the users' pointers; an id is in it when its bit in the
lowest layer is set. The tree is sound when its layers' numbers and counts are right and the bit of
an entry says whether all the ids below it are taken.
-/

namespace AndroidKernel.Ids

open Digits Function Finset List Nat Layer

variable {ι : Type} {h i j l : ℕ} {s s' : Slot ι} {b b' : Bool} {p p' : Layer (Slot ι)} {o : Fin 32}
  {way : List (Fin 32)}

/-- The pointer of an id, below an entry with the given bit. -/
def view : ℕ → Slot ι → Bool → ℕ → Option (Option ι)
  | 0, s, b, _ => if b then s.toPtr else none
  | h + 1, .layer p, _, i => view h (p.ary (offset i h)) (p.bitmap (offset i h)) i
  | _ + 1, _, _, _ => none

/-- Whether an entry with the given bit counts. -/
def occupied (s : Slot ι) (b : Bool) : ℕ := (b || !s.isNull).toNat

/-- How many entries of a layer count. -/
def Layer.used (p : Layer (Slot ι)) : ℕ := ∑ o, occupied (p.ary o) (p.bitmap o)

/-- The numbers, the counts and the bits of a tree are right. -/
inductive Sound : ℕ → Slot ι → Bool → Prop
  | unused (h : ℕ) : Sound h .null false
  | null : Sound 0 .null true
  | ptr (x : ι) : Sound 0 (.ptr x) true
  | layer {h : ℕ} {p : Layer (Slot ι)} {b : Bool} (layer : p.layer = h) (count : p.count = p.used)
      (ary : ∀ o, Sound h (p.ary o) (p.bitmap o)) (full : b = p.isFull) : Sound (h + 1) (.layer p) b

theorem Sound.ofPtr (x : Option ι) : Sound 0 (.ofPtr x) true := by
  cases x with
  | none => exact .null
  | some x => exact .ptr x

theorem shift_eq (l : ℕ) : 2 ^ (idrBits * l) = 32 ^ l := pow_mul 2 5 l

theorem offset_val : (offset i h).val = digit 32 h i := by
  have hmask : (i >>> (idrBits * h)) &&& (2 ^ 5 - 1) = (i >>> (idrBits * h)) % 2 ^ 5 :=
    and_two_pow_sub_one_eq_mod _ 5
  simpa [offset, digit, shiftRight_eq_div_pow, shift_eq] using hmask

theorem modEq_succ_iff :
    i ≡ j [MOD 32 ^ (h + 1)] ↔ offset i h = offset j h ∧ i ≡ j [MOD 32 ^ h] := by
  rw [modEq_succ (by decide), Fin.ext_iff, offset_val, offset_val]

@[simp] theorem view_null_false : view h (.null : Slot ι) false i = none := by cases h <;> rfl

theorem view_layer : view (h + 1) (.layer p) b i =
    view h (p.ary (offset i h)) (p.bitmap (offset i h)) i := rfl

theorem Layer.isFull_iff : p.isFull = true ↔ ∀ o, p.bitmap o = true := by simp [isFull]

theorem Sound.mapped_of_full (hs : Sound h s true) (i : ℕ) : view h s true i ≠ none := by
  generalize hb : true = b at hs
  induction hs with
  | unused => cases hb
  | null | ptr => simp [view, Slot.toPtr]
  | @layer h p b layer count ary full ih =>
    have hbit := isFull_iff.mp (full.symm.trans hb.symm) (offset i h)
    rw [view_layer]
    exact ih (offset i h) hbit.symm

theorem Sound.height_eq (hp : Sound h (.layer p) b) : h = p.layer + 1 := by
  cases hp with
  | layer layer => rw [layer]

section Layers

/-- `p'` is `p` with another entry and another bit at `o`. -/
structure Layer.Put (p : Layer (Slot ι)) (o : Fin 32) (s : Slot ι) (b : Bool)
    (p' : Layer (Slot ι)) : Prop where
  ary : p'.ary = update p.ary o s
  bitmap : p'.bitmap = update p.bitmap o b
  layer : p'.layer = p.layer

theorem Layer.Put.used (hput : p.Put o s b p') :
    p'.used + occupied (p.ary o) (p.bitmap o) = p.used + occupied s b := by
  have hsum := sum_update_of_mem (mem_univ o)
    (fun o => occupied (p.ary o) (p.bitmap o)) (occupied s b)
  have hold := add_sum_erase Finset.univ (fun o => occupied (p.ary o) (p.bitmap o)) (mem_univ o)
  have hupdate : (fun o' => occupied (p'.ary o') (p'.bitmap o')) =
      update (fun o => occupied (p.ary o) (p.bitmap o)) o (occupied s b) := by
    funext o'
    rw [hput.ary, hput.bitmap]
    by_cases ho : o' = o
    · subst ho
      simp
    · simp [update_of_ne ho]
  rw [Layer.used, Layer.used, hupdate, hsum, ← hold, sdiff_singleton_eq_erase]
  omega

theorem Layer.Put.view (hput : p.Put o s b p') {f f' : Bool} (i : ℕ) :
    view (h + 1) (.layer p') f' i =
      if offset i h = o then Ids.view h s b i else Ids.view (h + 1) (.layer p) f i := by
  rw [view_layer, view_layer, hput.ary, hput.bitmap]
  split_ifs with ho
  · subst ho
    rw [update_self, update_self]
  · rw [update_of_ne ho, update_of_ne ho]

theorem Layer.Put.sound (hput : p.Put o s b p') {f : Bool} (hp : Sound (h + 1) (.layer p) f)
    (hs : Sound h s b)
    (hcount : p'.count + occupied (p.ary o) (p.bitmap o) = p.count + occupied s b) :
    Sound (h + 1) (.layer p') p'.isFull := by
  cases hp with
  | layer layer count ary full =>
    refine .layer (hput.layer.trans layer) ?_ (fun o' => ?_) rfl
    · have := hput.used
      omega
    · rw [hput.ary, hput.bitmap]
      by_cases ho : o' = o
      · subst ho
        rwa [update_self, update_self]
      · rw [update_of_ne ho, update_of_ne ho]
        exact ary o'

theorem occupied_eq_zero_iff : occupied s b = 0 ↔ s = .null ∧ b = false := by
  cases s <;> simp [occupied]

theorem Sound.empty_of_count (hp : Sound (h + 1) (.layer p) b) (hcount : p.count = 0) (o : Fin 32) :
    p.ary o = .null ∧ p.bitmap o = false := by
  cases hp with
  | layer layer count ary full =>
    have hused : p.used = 0 := by omega
    exact occupied_eq_zero_iff.mp (Finset.sum_eq_zero_iff.mp hused o (mem_univ o))

theorem Sound.view_of_count (hp : Sound (h + 1) (.layer p) b) (hcount : p.count = 0) :
    view (h + 1) (.layer p) b i = none := by
  obtain ⟨hary, hbit⟩ := hp.empty_of_count hcount (offset i h)
  rw [view_layer, hary, hbit, view_null_false]

/-- A layer as `id_free` keeps it: nothing in it but its old number. -/
structure Layer.Blank (p : Layer (Slot ι)) : Prop where
  count : p.count = 0
  ary : ∀ o, p.ary o = .null
  bitmap : ∀ o, p.bitmap o = false

theorem Layer.Blank.sound (hp : p.Blank) (hlayer : p.layer = h) :
    Sound (h + 1) (.layer p) false := by
  refine .layer hlayer ?_ (fun o => ?_) ?_
  · simp [hp.count, used, occupied, hp.ary, hp.bitmap]
  · rw [hp.ary, hp.bitmap]
    exact .unused h
  · have hnot : ¬p.isFull = true := fun hfull => by
      simpa [hp.bitmap] using isFull_iff.mp hfull 0
    simpa using hnot

theorem getFromFreeList_blank {free free' : List (Layer (Slot ι))} (hfree : ∀ q ∈ free, q.Blank)
    (hget : getFromFreeList free = some (p, free')) : p.Blank ∧ ∀ q ∈ free', q.Blank := by
  cases free with
  | nil => cases hget
  | cons q free =>
    simp only [getFromFreeList, Option.some.injEq, Prod.mk.injEq] at hget
    obtain ⟨rfl, rfl⟩ := hget
    have hq := hfree q (mem_cons_self ..)
    refine ⟨⟨hq.count, fun o => ?_, hq.bitmap⟩, fun r hr => hfree r (mem_cons_of_mem _ hr)⟩
    simp [setAry, update_apply, hq.ary]

end Layers

section Ways

variable {f : Layer (Slot ι) → Layer (Slot ι)}

/-- The ids that lead through the entries of a way, from a tree of the height. -/
def OnWay : ℕ → List (Fin 32) → ℕ → Prop
  | h + 1, o :: way, i => offset i h = o ∧ OnWay h way i
  | _, [], _ => True
  | 0, _ :: _, _ => False

@[simp] theorem onWay_nil : OnWay h [] i := by cases h <;> trivial

theorem OnWay.dropLast (hway : OnWay h way i) : OnWay h way.dropLast i := by
  induction way generalizing h with
  | nil => simp
  | cons o way ih =>
    cases h with
    | zero => exact hway.elim
    | succ h =>
      cases way with
      | nil => simp
      | cons o' way => exact ⟨hway.1, ih hway.2⟩

theorem OnWay.append (hway : OnWay h way i) (hlen : h = way.length + l + 1) :
    OnWay h (way ++ [offset i l]) i := by
  induction way generalizing h with
  | nil =>
    obtain rfl : h = l + 1 := by simpa using hlen
    exact ⟨rfl, onWay_nil⟩
  | cons o way ih =>
    cases h with
    | zero => exact hway.elim
    | succ h => exact ⟨hway.1, ih hway.2 (by simpa [add_right_comm] using hlen)⟩

/-- Ids with the same digits above the place `l` take the same way down to it. -/
theorem OnWay.of_div_eq (hway : OnWay h way i) (hlen : h = way.length + l)
    (hij : j / 32 ^ l = i / 32 ^ l) : OnWay h way j := by
  induction way generalizing h with
  | nil => simp
  | cons o way ih =>
    cases h with
    | zero => exact hway.elim
    | succ h =>
      have hlen' : h = way.length + l := by simpa [add_right_comm] using hlen
      refine ⟨?_, ih hway.2 hlen'⟩
      have hdiv : j / 32 ^ h = i / 32 ^ h := by
        rw [hlen', Nat.add_comm, pow_add, ← Nat.div_div_eq_div_mul, hij, Nat.div_div_eq_div_mul]
      rw [← hway.1, Fin.ext_iff, offset_val, offset_val, digit, digit, hdiv]

section

variable (hread : s.read way = .layer p)
include hread

theorem read_append : s.read (way ++ [o]) = p.ary o := by
  induction way generalizing s with
  | nil =>
    obtain rfl : s = .layer p := by
      cases s <;> exact hread
    rfl
  | cons o' way ih =>
    cases s with
    | null | ptr => cases hread
    | layer q => exact ih hread

theorem read_dropLast (hway : way ≠ []) : ∃ q, s.read way.dropLast = .layer q := by
  induction way generalizing s with
  | nil => exact absurd rfl hway
  | cons o way ih =>
    cases s with
    | null | ptr => cases hread
    | layer q =>
      cases way with
      | nil => exact ⟨q, rfl⟩
      | cons o' way => exact ih hread (by simp)

theorem layer_of_read : ∃ q, s = .layer q := by
  cases s with
  | layer q => exact ⟨q, rfl⟩
  | null | ptr => cases way <;> cases hread

theorem read_modify : (s.modify f way).read way = .layer (f p) := by
  induction way generalizing s with
  | nil =>
    obtain rfl : s = .layer p := by
      cases s <;> exact hread
    rfl
  | cons o way ih =>
    cases s with
    | null | ptr => cases hread
    | layer q => simpa [Slot.modify, Slot.read, setAry] using ih hread

end

/-- The layer at the end of a way is sound, and the ids on the way are found in it. -/
theorem Sound.read (hs : Sound h s b) (hread : s.read way = .layer p) :
    ∃ l b', h = way.length + l + 1 ∧ Sound (l + 1) (.layer p) b' ∧
      ∀ j, OnWay h way j → view h s b j = view (l + 1) (.layer p) b' j := by
  induction way generalizing h s b with
  | nil =>
    obtain rfl : s = .layer p := by
      cases s <;> exact hread
    cases hs with
    | layer layer count ary full =>
      exact ⟨_, _, by simp, .layer layer count ary full, fun j _ => rfl⟩
  | cons o way ih =>
    cases hs with
    | unused | null | ptr => cases hread
    | layer layer count ary full =>
      obtain ⟨l, b', hlen, hp, hview⟩ := ih (ary o) hread
      refine ⟨l, b', by simp only [length_cons]; omega, hp, ?_⟩
      rintro j ⟨rfl, hj⟩
      exact hview j hj

/-- A change to the layer at the end of a way that keeps what it holds keeps what the tree holds. -/
theorem Sound.modify (hs : Sound h s b) (hread : s.read way = .layer p)
    (hf : ∀ l b', h = way.length + l + 1 → Sound (l + 1) (.layer p) b' →
      Sound (l + 1) (.layer (f p)) b' ∧
        ∀ j, view (l + 1) (.layer (f p)) b' j = view (l + 1) (.layer p) b' j) :
    Sound h (s.modify f way) b ∧ ∀ j, view h (s.modify f way) b j = view h s b j := by
  induction way generalizing h s b with
  | nil =>
    obtain rfl : s = .layer p := by
      cases s <;> exact hread
    cases hs with
    | layer layer count ary full => exact hf _ _ (by simp) (.layer layer count ary full)
  | cons o way ih =>
    cases hs with
    | unused | null | ptr => cases hread
    | @layer h q b layer count ary full =>
      obtain ⟨hsound, hview⟩ := ih (ary o) hread fun l b' hlen =>
        hf l b' (by simp only [length_cons]; omega)
      have hput : q.Put o ((q.ary o).modify f way) (q.bitmap o)
          (q.setAry o ((q.ary o).modify f way)) :=
        ⟨rfl, (update_eq_self o q.bitmap).symm, rfl⟩
      -- the entry is a layer before and after
      have hnull : ((q.ary o).modify f way).isNull = (q.ary o).isNull := by
        cases hq : q.ary o with
        | null | ptr | layer => cases way <;> rfl
      have hsound' := hput.sound (.layer layer count ary full) hsound (by
        simp only [occupied, hnull]
        rfl)
      refine ⟨?_, fun j => ?_⟩
      · rw [full]
        exact hsound'
      · change Ids.view (h + 1) (.layer (q.setAry o ((q.ary o).modify f way))) b j = _
        rw [hput.view (f := b)]
        split_ifs with ho
        · subst ho
          rw [hview]
          rfl
        · rfl

end Ways

end AndroidKernel.Ids
