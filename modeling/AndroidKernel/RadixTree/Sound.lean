import AndroidKernel.Lib.Digits
import AndroidKernel.RadixTree.Basic
import Mathlib.Algebra.BigOperators.Fin
import Mathlib.Tactic.FinCases

/-!
# What a radix tree holds

A tree of a height denotes a map from indices to items with their tags. It is sound when the heights
and counts of its nodes are right and each tag bit sums up the bits below it. `P` is the set of
indices that lead to the tree: an item stands only where some index leads.
-/

namespace AndroidKernel.RadixTree

open Digits Finset Function List

variable {ι : Type} {P P' : Set ℕ} {h i j : ℕ} {t t' : Tree ι} {tags : Fin 2 → Bool}
  {n : Node (Tree ι)} {o : Fin 64} {m m' : Slab ι} {tag : Fin 2}

/-- No tag at all. -/
def untagged : Fin 2 → Bool := fun _ => false

/-- The item of an index with its tags, below a slot with the given tags. -/
def view : ℕ → Tree ι → (Fin 2 → Bool) → ℕ → Option (ι × (Fin 2 → Bool))
  | 0, .item x, tags, _ => some (x, tags)
  | h + 1, .node n, _, i => view h (n.slots (offset i h)) (n.tagsAt (offset i h)) i
  | _, _, _, _ => none

/-- How many slots of a node are in use. -/
def Node.used (n : Node (Tree ι)) : ℕ := ∑ o, (!(n.slots o).isNull).toNat

/-- The heights, the counts and the tags of a tree are right. -/
inductive Sound : Set ℕ → ℕ → Tree ι → (Fin 2 → Bool) → Prop
  | null (P : Set ℕ) (h : ℕ) : Sound P h .null untagged
  | item {P : Set ℕ} (hP : P.Nonempty) (x : ι) (tags : Fin 2 → Bool) : Sound P 0 (.item x) tags
  | node {P : Set ℕ} {h : ℕ} {n : Node (Tree ι)} {tags : Fin 2 → Bool} (height : n.height = h + 1)
      (count : n.count = n.used)
      (slots : ∀ o, Sound (P ∩ {i | offset i h = o}) h (n.slots o) (n.tagsAt o))
      (summary : ∀ tag, tags tag = true ↔ ∃ o, n.tags tag o = true) : Sound P (h + 1) (.node n) tags

/-- How many nodes a tree has. -/
def nodes : ℕ → Tree ι → ℕ
  | h + 1, .node n => 1 + ∑ o, nodes h (n.slots o)
  | _, _ => 0

/-- Every node has something below it. -/
def Full : ℕ → Tree ι → Prop
  | h + 1, .node n => (∃ o, (n.slots o).isNull = false) ∧ ∀ o, Full h (n.slots o)
  | _, _ => True

/-- Every node below the topmost has something below it. -/
def FullBelow : ℕ → Tree ι → Prop
  | h + 1, .node n => ∀ o, Full h (n.slots o)
  | _, _ => True

theorem offset_val : (offset i h).val = digit 64 h i := by
  have hmask : (i >>> (h * mapShift)) &&& (2 ^ 6 - 1) = (i >>> (h * mapShift)) % 2 ^ 6 :=
    Nat.and_two_pow_sub_one_eq_mod _ 6
  have hpow : 2 ^ (h * 6) = 64 ^ h := by
    rw [Nat.mul_comm, pow_mul]
    rfl
  simpa [offset, digit, mapShift, Nat.shiftRight_eq_div_pow, hpow] using hmask

theorem modEq_succ_iff :
    i ≡ j [MOD 64 ^ (h + 1)] ↔ offset i h = offset j h ∧ i ≡ j [MOD 64 ^ h] := by
  rw [modEq_succ (by decide), Fin.ext_iff, offset_val, offset_val]

@[simp] theorem view_null : view h (.null : Tree ι) tags i = none := by cases h <;> rfl

@[simp] theorem view_item {x : ι} : view 0 (.item x) tags i = some (x, tags) := rfl

theorem view_node : view (h + 1) (.node n) tags i =
    view h (n.slots (offset i h)) (n.tagsAt (offset i h)) i := rfl

@[simp] theorem nodes_null : nodes h (.null : Tree ι) = 0 := by cases h <;> rfl

@[simp] theorem full_null : Full h (.null : Tree ι) := by cases h <;> trivial

theorem Full.below (ht : Full h t) : FullBelow h t := by
  cases h with
  | zero => cases t <;> trivial
  | succ h =>
    cases t with
    | null | item => trivial
    | node n => exact ht.2

section

variable (ht : Sound P h t tags)
include ht

theorem Sound.null_tags (hnull : t.isNull = true) : tags = untagged := by
  cases ht with
  | null => rfl
  | item | node => cases hnull

theorem Sound.mono (hP : P ⊆ P') : Sound P' h t tags := by
  induction ht generalizing P' with
  | null P h => exact .null P' h
  | item hne x tags => exact .item (hne.mono hP) x tags
  | node height count slots summary ih =>
    exact .node height count (fun o => ih o (Set.inter_subset_inter_left _ hP)) summary

theorem Sound.tag_iff :
    tags tag = true ↔ ∃ i ∈ P, ∃ x f, view h t tags i = some (x, f) ∧ f tag = true := by
  induction ht with
  | null P h => simp [untagged]
  | item hne x tags =>
    obtain ⟨i, hi⟩ := hne
    constructor
    · intro htag
      exact ⟨i, hi, x, tags, rfl, htag⟩
    · rintro ⟨_, -, _, _, heq, htag⟩
      cases heq
      exact htag
  | node height count slots summary ih =>
    rw [summary]
    constructor
    · rintro ⟨o, ho⟩
      obtain ⟨i, ⟨hi, rfl⟩, hview⟩ := (ih o).mp ho
      exact ⟨i, hi, hview⟩
    · rintro ⟨i, hi, hview⟩
      exact ⟨offset i _, (ih _).mpr ⟨i, ⟨hi, rfl⟩, hview⟩⟩

theorem Sound.exists_view (hfull : Full h t) (hnull : t.isNull = false) :
    ∃ i ∈ P, view h t tags i ≠ none := by
  induction ht with
  | null P h => cases hnull
  | item hne x tags =>
    obtain ⟨i, hi⟩ := hne
    exact ⟨i, hi, by simp⟩
  | node height count slots summary ih =>
    obtain ⟨⟨o, ho⟩, hfull⟩ := hfull
    obtain ⟨i, ⟨hi, rfl⟩, hview⟩ := ih o (hfull o) ho
    exact ⟨i, hi, hview⟩

end

section Slots

theorem view_setSlot : view (h + 1) (.node (n.setSlot o t)) tags i =
    if offset i h = o then view h t (n.tagsAt o) i else view (h + 1) (.node n) tags i := by
  rw [view_node, view_node, Node.setSlot_tagsAt, Node.setSlot_slots]
  split_ifs with ho
  · subst ho
    rw [update_self]
  · rw [update_of_ne ho]

theorem sum_setSlot (f : Tree ι → ℕ) (n : Node (Tree ι)) (o : Fin 64) (t : Tree ι) :
    ∑ o', f ((n.setSlot o t).slots o') + f (n.slots o) = ∑ o', f (n.slots o') + f t := by
  have hsum := sum_update_of_mem (mem_univ o) (fun o => f (n.slots o)) (f t)
  have hold := add_sum_erase Finset.univ (fun o => f (n.slots o)) (mem_univ o)
  have hupdate : (fun o' => f ((n.setSlot o t).slots o')) =
      update (fun o => f (n.slots o)) o (f t) := by
    funext o'
    by_cases ho : o' = o
    · subst ho
      simp
    · simp [update_of_ne ho]
  rw [hupdate, hsum, ← hold, sdiff_singleton_eq_erase]
  omega

theorem nodes_setSlot : nodes (h + 1) (.node (n.setSlot o t)) + nodes h (n.slots o) =
    nodes (h + 1) (.node n) + nodes h t := by
  have := sum_setSlot (nodes h) n o t
  simp only [nodes]
  omega

theorem used_setSlot : (n.setSlot o t).used + (!(n.slots o).isNull).toNat =
    n.used + (!t.isNull).toNat :=
  sum_setSlot (fun t => (!t.isNull).toNat) n o t

theorem used_ne_zero_iff : n.used ≠ 0 ↔ ∃ o, (n.slots o).isNull = false := by simp [Node.used]

end Slots

section Slabs

/-- How many nodes are out of the slab. -/
def Slab.held (m : Slab ι) : ℤ := m.made - m.free.length

/-- A node as the slab keeps it: nothing in it but its old height. -/
structure Node.Blank (n : Node (Tree ι)) : Prop where
  count : n.count = 0
  slots : ∀ o, n.slots o = .null
  tags : ∀ tag o, n.tags tag o = false

theorem Node.Blank.eq_zero_iff {n : Node (Tree ι)} (h : n.Blank) : n = .zero ↔ n.height = 0 := by
  refine ⟨fun hn => hn ▸ rfl, fun hheight => ?_⟩
  obtain ⟨height, count, slots, tags⟩ := n
  exact (Node.mk.injEq ..).mpr ⟨hheight, h.count, funext h.slots, funext fun tag =>
    funext fun o => h.tags tag o⟩

/-- All the nodes of the slab are blank. -/
def Slab.Clean (m : Slab ι) : Prop := ∀ n ∈ m.free, n.Blank

theorem Slab.Clean.nodeAlloc (hm : m.Clean) : m.nodeAlloc.2.Clean ∧
    ((m.nodeAlloc.1 = none ∧ m.nodeAlloc.2.held = m.held) ∨
      ∃ n, m.nodeAlloc.1 = some n ∧ n.Blank ∧ m.nodeAlloc.2.held = m.held + 1) := by
  unfold Slab.nodeAlloc
  split
  iterate 2
    · exact ⟨hm, .inl ⟨rfl, rfl⟩⟩
  · refine ⟨hm, .inr ⟨.zero, rfl, ⟨rfl, fun _ => rfl, fun _ _ => rfl⟩, ?_⟩⟩
    simp only [Slab.held]
    omega
  · next i answers _ =>
    refine ⟨fun n hn => hm n (mem_of_mem_eraseIdx hn), ?_⟩
    cases hi : m.free[i]? with
    | none =>
      have hlen := List.getElem?_eq_none_iff.mp hi
      refine .inl ⟨rfl, ?_⟩
      simp [Slab.held, eraseIdx_of_length_le hlen]
    | some n =>
      obtain ⟨hlt, -⟩ := List.getElem?_eq_some_iff.mp hi
      refine .inr ⟨n, rfl, hm n (mem_of_getElem? hi), ?_⟩
      simp only [Slab.held, length_eraseIdx_of_lt hlt]
      omega

theorem Slab.Clean.nodeFree (hm : m.Clean) (hslots : ∀ o, o ≠ 0 → n.slots o = .null)
    (htags : ∀ tag o, o ≠ 0 → n.tags tag o = false) :
    (m.nodeFree n).Clean ∧ (m.nodeFree n).held = m.held - 1 := by
  constructor
  · intro n' hn'
    rcases List.mem_cons.mp hn' with rfl | hn'
    · refine ⟨rfl, fun o => ?_, fun tag o => ?_⟩
      · by_cases ho : o = 0
        · subst ho
          simp
        · simp [update_of_ne ho, hslots o ho]
      · by_cases ho : o = 0
        · subst ho
          fin_cases tag <;> simp [Node.putTag_tags]
        · simp [Node.putTag_tags, ho, htags tag o ho]
    · exact hm n' hn'
  · simp only [Slab.held, Slab.nodeFree, length_cons]
    omega

end Slabs

end AndroidKernel.RadixTree
