import Mathlib.Data.List.Basic
import Mathlib.Data.List.Pairwise
import Mathlib.Order.Nat

/-!
# Search trees with rebalancing

A binary tree is searched and extended at its leaves by the caller's own
comparison; the rebalancing that follows an insertion, and the removal of a node,
are operations that keep the in-order sequence. Everything a caller can rely on
is therefore a statement about that sequence, whatever shape the tree takes.
-/

namespace RbTree

variable {α : Type} {a : α} {key : α → ℕ} {goLeft : α → Option Bool}

/-- A coloured binary tree. -/
inductive Tree (α : Type) where
  | nil
  | node (red : Bool) (left : Tree α) (val : α) (right : Tree α)

/-- The elements of a tree, from left to right. -/
def Tree.inorder : Tree α → List α
  | .nil => []
  | .node _ left val right => left.inorder ++ val :: right.inorder

/-- Descend from the root and link a new red leaf. The caller's comparison says for
each node on the way whether to go left; `none` stops the descent. -/
def Tree.link (goLeft : α → Option Bool) (a : α) : Tree α → Option (Tree α)
  | .nil => some (.node true .nil a .nil)
  | .node red left val right =>
    match goLeft val with
    | none => none
    | some true => (left.link goLeft a).map fun left => .node red left val right
    | some false => (right.link goLeft a).map fun right => .node red left val right

/-- The descent to the place of a new leaf never turns right. -/
def Tree.leftmost (goLeft : α → Option Bool) : Tree α → Bool
  | .nil => true
  | .node _ left val _ => if goLeft val = some true then left.leftmost goLeft else false

/-- The element behind `a`, from left to right. -/
def Tree.next [DecidableEq α] (t : Tree α) (a : α) : Option α := t.inorder[t.inorder.idxOf a + 1]?

/-- The rebalancing operations, with what they guarantee. -/
structure Balance (α : Type) [DecidableEq α] where
  insertColor : Tree α → α → Tree α
  erase : Tree α → α → Tree α
  inorder_insertColor : ∀ t a, (insertColor t a).inorder = t.inorder
  inorder_erase : ∀ t a, (erase t a).inorder = t.inorder.erase a

/-- The tree that is a right spine. -/
def Tree.ofList : List α → Tree α
  | [] => .nil
  | a :: l => .node false .nil a (Tree.ofList l)

theorem Tree.inorder_ofList (l : List α) : (Tree.ofList l).inorder = l := by
  induction l with
  | nil => rfl
  | cons a l ih => simp [ofList, inorder, ih]

/-- The rebalancing that never rotates and removes by rebuilding a spine. -/
def Balance.spine (α : Type) [DecidableEq α] : Balance α where
  insertColor t _ := t
  erase t a := .ofList (t.inorder.erase a)
  inorder_insertColor _ _ := rfl
  inorder_erase _ _ := Tree.inorder_ofList _

/-- The elements are ordered by a key. -/
def Sorted (key : α → ℕ) (l : List α) : Prop := l.Pairwise fun a b => key a ≤ key b

/-- Linking by comparison of keys succeeds, and puts the new element behind those whose
key is not larger and before those whose key is. -/
theorem Tree.link_sorted {t : Tree α} (hsorted : Sorted key t.inorder)
    (hleft : ∀ b ∈ t.inorder, goLeft b = some (decide (key a < key b))) :
    ∃ t' before after, t.link goLeft a = some t' ∧ t.inorder = before ++ after ∧
      t'.inorder = before ++ a :: after ∧ (∀ b ∈ before, key b ≤ key a) ∧
      ∀ b ∈ after, key a < key b := by
  induction t with
  | nil => exact ⟨_, [], [], rfl, rfl, rfl, by simp, by simp⟩
  | node red left val right ihl ihr =>
    simp only [Tree.inorder, Sorted, List.pairwise_append, List.pairwise_cons] at hsorted
    obtain ⟨hl, ⟨hval, hr⟩, hcross⟩ := hsorted
    have hmem : val ∈ (Tree.node red left val right).inorder := by simp [Tree.inorder]
    by_cases hlt : key a < key val
    · obtain ⟨t', before, after, hlink, hsplit, hinorder, hle, hgt⟩ :=
        ihl hl (fun b hb => hleft b (by simp [Tree.inorder, hb]))
      refine ⟨.node red t' val right, before, after ++ val :: right.inorder, ?_, ?_, ?_, hle, ?_⟩
      · simp [Tree.link, hleft val hmem, hlt, hlink]
      · simp [Tree.inorder, hsplit]
      · simp [Tree.inorder, hinorder]
      · intro b hb
        rcases List.mem_append.mp hb with hb | hb
        · exact hgt b hb
        · rcases List.mem_cons.mp hb with rfl | hb
          · exact hlt
          · exact lt_of_lt_of_le hlt (hval b hb)
    · obtain ⟨t', before, after, hlink, hsplit, hinorder, hle, hgt⟩ :=
        ihr hr (fun b hb => hleft b (by simp [Tree.inorder, hb]))
      refine ⟨.node red left val t', left.inorder ++ val :: before, after, ?_, ?_, ?_, ?_, hgt⟩
      · simp [Tree.link, hleft val hmem, hlt, hlink]
      · simp [Tree.inorder, hsplit]
      · simp [Tree.inorder, hinorder]
      · intro b hb
        rcases List.mem_append.mp hb with hb | hb
        · exact (hcross b hb val (by simp)).trans (Nat.le_of_not_lt hlt)
        · rcases List.mem_cons.mp hb with rfl | hb
          · exact Nat.le_of_not_lt hlt
          · exact hle b hb

/-- A descent that is never stopped links the new element somewhere in the sequence, and in front
of it exactly if it never turns right. -/
theorem Tree.link_split (hgo : ∀ b, (goLeft b).isSome) (a : α) (t : Tree α) :
    ∃ t' before after, t.link goLeft a = some t' ∧ t.inorder = before ++ after ∧
      t'.inorder = before ++ a :: after ∧ (t.leftmost goLeft = true ↔ before = []) := by
  induction t with
  | nil => exact ⟨_, [], [], rfl, rfl, rfl, by simp [leftmost]⟩
  | node red left val right ihl ihr =>
    obtain ⟨dir, hdir⟩ := Option.isSome_iff_exists.mp (hgo val)
    cases dir with
    | true =>
      obtain ⟨t', before, after, hlink, hsplit, hinorder, hleft⟩ := ihl
      refine ⟨.node red t' val right, before, after ++ val :: right.inorder, ?_, ?_, ?_, ?_⟩
      · simp [link, hdir, hlink]
      · simp [inorder, hsplit]
      · simp [inorder, hinorder]
      · simpa [leftmost, hdir] using hleft
    | false =>
      obtain ⟨t', before, after, hlink, hsplit, hinorder, -⟩ := ihr
      refine ⟨.node red left val t', left.inorder ++ val :: before, after, ?_, ?_, ?_, ?_⟩
      · simp [link, hdir, hlink]
      · simp [inorder, hsplit]
      · simp [inorder, hinorder]
      · simp [leftmost, hdir]

/-- The element behind the first one is the first one once that is gone. -/
theorem Tree.next_eq_head_erase [DecidableEq α] {t : Tree α} (h : t.inorder.head? = some a) :
    t.next a = (t.inorder.erase a).head? := by
  obtain ⟨rest, hrest⟩ := List.head?_eq_some_iff.mp h
  simp [next, hrest, List.head?_eq_getElem?]

/-- Insertion between smaller and larger keys keeps the order. -/
theorem sorted_insert {before after : List α} (h : Sorted key (before ++ after))
    (hle : ∀ b ∈ before, key b ≤ key a) (hgt : ∀ b ∈ after, key a < key b) :
    Sorted key (before ++ a :: after) := by
  unfold Sorted at h ⊢
  rw [List.pairwise_append] at h ⊢
  obtain ⟨hbefore, hafter, hcross⟩ := h
  refine ⟨hbefore, List.pairwise_cons.mpr ⟨fun b hb => (hgt b hb).le, hafter⟩, ?_⟩
  intro b hb c hc
  rcases List.mem_cons.mp hc with rfl | hc
  · exact hle b hb
  · exact hcross b hb c hc

/-- The order only depends on the keys of the listed elements. -/
theorem Sorted.congr {key' : α → ℕ} {l : List α} (h : Sorted key l)
    (heq : ∀ a ∈ l, key' a = key a) : Sorted key' l := by
  apply List.Pairwise.imp_of_mem _ h
  intro a b ha hb hab
  rwa [heq a ha, heq b hb]

end RbTree
