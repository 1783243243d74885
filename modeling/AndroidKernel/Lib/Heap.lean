import AndroidKernel.Lib.Except
import Mathlib.Order.Nat

/-!
# A heap of cells

Cells of one type, named by numbers that are handed out in order and never used
again. A freed cell is empty; reading one is an error of the caller's choice.
-/

/-- A heap with the next unused name. -/
structure Heap (α : Type) where
  next : ℕ
  cell : ℕ → Option α
  cell_of_le : ∀ i, next ≤ i → cell i = none

namespace Heap

open Function

variable {α : Type} {ε : Type} {h : Heap α} {i : ℕ}

/-- The heap without cells. -/
def empty : Heap α := ⟨0, fun _ => none, fun _ _ => rfl⟩

/-- A new cell, at the name `h.next`. -/
def alloc (h : Heap α) (a : α) : Heap α where
  next := h.next + 1
  cell := update h.cell h.next (some a)
  cell_of_le i hi := by
    rw [update_of_ne (by omega)]
    exact h.cell_of_le i (by omega)

/-- Give a cell back. -/
def free (h : Heap α) (i : ℕ) : Heap α where
  next := h.next
  cell := update h.cell i none
  cell_of_le j hj := by
    by_cases hij : j = i
    · rw [hij, update_self]
    · rw [update_of_ne hij]
      exact h.cell_of_le j hj

/-- Change a cell that is there. -/
def modify (h : Heap α) (i : ℕ) (f : α → α) : Heap α where
  next := h.next
  cell := update h.cell i ((h.cell i).map f)
  cell_of_le j hj := by
    by_cases hij : j = i
    · rw [hij, update_self, ← hij, h.cell_of_le j hj]
      rfl
    · rw [update_of_ne hij]
      exact h.cell_of_le j hj

/-- Read a cell. -/
def get (h : Heap α) (e : ε) (i : ℕ) : Except ε α :=
  match h.cell i with
  | some a => .ok a
  | none => .error e

theorem get_eq_ok {e : ε} {a : α} : h.get e i = .ok a ↔ h.cell i = some a := by
  unfold get
  cases h.cell i <;> simp

/-- A program that starts with a look at a cell returns: the cell is there. -/
theorem of_get {β : Type} {e : ε} {f : α → Except ε β} {b : β} (hok : (h.get e i >>= f) = .ok b) :
    ∃ a, h.cell i = some a ∧ f a = .ok b := by
  obtain ⟨a, hget, hok⟩ := Except.of_bind hok
  exact ⟨a, get_eq_ok.mp hget, hok⟩

theorem lt_next_of_cell {a : α} (hi : h.cell i = some a) : i < h.next := by
  by_contra hle
  rw [h.cell_of_le i (by omega)] at hi
  cases hi

section

variable (h i)

@[simp] theorem next_alloc (a : α) : (h.alloc a).next = h.next + 1 := rfl

@[simp] theorem next_free : (h.free i).next = h.next := rfl

@[simp] theorem next_modify (f : α → α) : (h.modify i f).next = h.next := rfl

@[simp] theorem cell_next : h.cell h.next = none := h.cell_of_le _ le_rfl

theorem cell_alloc (a : α) (i : ℕ) :
    (h.alloc a).cell i = if i = h.next then some a else h.cell i := by
  simp [alloc, update_apply]

theorem cell_free (i j : ℕ) : (h.free i).cell j = if j = i then none else h.cell j := by
  simp [free, update_apply]

theorem cell_modify (i j : ℕ) (f : α → α) :
    (h.modify i f).cell j = if j = i then (h.cell i).map f else h.cell j := by
  simp [modify, update_apply]

@[simp] theorem cell_alloc_self (a : α) : (h.alloc a).cell h.next = some a := by simp [cell_alloc]

@[simp] theorem cell_free_self : (h.free i).cell i = none := by simp [cell_free]

@[ext] theorem ext {h h' : Heap α} (hnext : h.next = h'.next) (hcell : ∀ i, h.cell i = h'.cell i) :
    h = h' := by
  cases h
  cases h'
  obtain rfl : _ = _ := hnext
  obtain rfl : _ = _ := funext hcell
  rfl

/-- Only the last of two changes of a cell counts. -/
theorem modify_const_modify (f : α → α) (a : α) :
    (h.modify i f).modify i (fun _ => a) = h.modify i fun _ => a := by
  ext j
  · rfl
  · simp only [cell_modify, if_true]
    split_ifs <;> simp

/-- A cell that is given back need not be changed before. -/
theorem free_modify (f : α → α) : (h.modify i f).free i = h.free i := by
  ext j
  · rfl
  · simp only [cell_free, cell_modify]
    split_ifs <;> rfl

end

theorem cell_alloc_of_ne (a : α) (hi : i ≠ h.next) : (h.alloc a).cell i = h.cell i := by
  rw [cell_alloc, if_neg hi]

theorem cell_alloc_of_cell {b : α} (a : α) (hi : h.cell i = some b) :
    (h.alloc a).cell i = some b := by
  rw [cell_alloc_of_ne a (Nat.ne_of_lt (lt_next_of_cell hi)), hi]

end Heap

/-- A read fails in one way only. -/
theorem Except.Avoids.get {ε α : Type} {bad : ε → Prop} [DecidablePred bad] {h : Heap α} {e : ε}
    (he : decide (bad e) = false) (i : ℕ) : (h.get e i).Avoids bad := by
  unfold Heap.get
  split
  · exact .ok
  · exact .error he

theorem Except.Avoids.read {ε α β : Type} {bad : ε → Prop} [DecidablePred bad] {h : Heap α} {e : ε}
    {i : ℕ} {k : α → Except ε β} (he : decide (bad e) = false)
    (hk : ∀ a, h.get e i = .ok a → (k a).Avoids bad) : (h.get e i >>= k).Avoids bad :=
  .bind (.get he i) hk
