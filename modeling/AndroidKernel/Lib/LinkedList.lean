import Mathlib.Data.List.Nodup

/-!
# Neighbours in a linked list

A doubly linked list is modelled by the sequence of its elements. The operations
look up the neighbours of an element, insert behind it and remove it; around a
known split of the list each of them is a computation on the two parts.
-/

namespace LinkedList

open List

variable {α : Type} [DecidableEq α] {l : List α} {a b : α} {after before : List α} {c : α}

/-- The element that follows `a`. -/
def next : List α → α → Option α
  | x :: y :: l, a => if x = a then some y else next (y :: l) a
  | _, _ => none

/-- The element that precedes `a`. -/
def prev : List α → α → Option α
  | x :: y :: l, a => if y = a then some x else prev (y :: l) a
  | _, _ => none

/-- Insert `b` right behind `a`. -/
def insertAfter (a b : α) : List α → List α
  | [] => []
  | x :: l => if x = a then x :: b :: l else x :: insertAfter a b l

@[simp] theorem next_cons_self (a : α) (l : List α) : next (a :: l) a = l.head? := by
  cases l <;> simp [next]

theorem next_cons_of_ne {x : α} (l : List α) (h : x ≠ a) : next (x :: l) a = next l a := by
  cases l <;> simp [next, h]

/-- The successor of an element is the head of what follows it. -/
theorem next_split (h : a ∉ before) : next (before ++ a :: after) a = after.head? := by
  induction before with
  | nil => simp
  | cons x before ih =>
    rw [cons_append, next_cons_of_ne _ (fun he => h (by simp [he]))]
    exact ih (fun hm => h (by simp [hm]))

theorem prev_cons_of_notMem {x : α} (h : a ∉ l) : prev (x :: l) a = none := by
  induction l generalizing x with
  | nil => rfl
  | cons y l ih =>
    rw [prev, if_neg (fun he => h (by simp [he]))]
    exact ih (fun hm => h (by simp [hm]))

/-- The predecessor of an element is the end of what precedes it. -/
theorem prev_split (h : (before ++ a :: after).Nodup) :
    prev (before ++ a :: after) a = before.getLast? := by
  induction before with
  | nil => exact prev_cons_of_notMem (List.nodup_cons.mp h).1
  | cons x before ih =>
    have hrest := ih (List.nodup_cons.mp h).2
    cases before with
    | nil => simp [prev]
    | cons y before =>
      have hy : y ≠ a := by
        rintro rfl
        simp at h
      simpa [prev, hy] using hrest

theorem next_of_notMem (h : a ∉ l) : next l a = none := by
  induction l with
  | nil => rfl
  | cons x l ih =>
    rw [next_cons_of_ne _ (fun he => h (by simp [he]))]
    exact ih (fun hm => h (by simp [hm]))

/-- The elements around a pair of neighbours. -/
theorem exists_split_of_next (h : next l a = some b) :
    ∃ before after, l = before ++ a :: b :: after ∧ a ∉ before := by
  induction l with
  | nil => simp [next] at h
  | cons x l ih =>
    by_cases hx : x = a
    · subst hx
      rw [next_cons_self] at h
      obtain ⟨after, rfl⟩ : ∃ after, l = b :: after := by
        cases l with
        | nil => simp at h
        | cons y l => exact ⟨l, by simpa using h⟩
      exact ⟨[], after, rfl, by simp⟩
    · rw [next_cons_of_ne _ hx] at h
      obtain ⟨before, after, rfl, hmem⟩ := ih h
      exact ⟨x :: before, after, rfl, by simp [Ne.symm hx, hmem]⟩

theorem mem_of_next (h : next l a = some b) : a ∈ l ∧ b ∈ l := by
  obtain ⟨before, after, rfl, -⟩ := exists_split_of_next h
  simp

/-- In a list without repetitions, predecessor and successor are inverse. -/
theorem next_of_prev (hnodup : l.Nodup) (h : prev l b = some a) : next l a = some b := by
  have hb : b ∈ l := by
    cases l with
    | nil => simp [prev] at h
    | cons x l =>
      by_contra hb
      rw [prev_cons_of_notMem (fun hm => hb (mem_cons_of_mem _ hm))] at h
      simp at h
  obtain ⟨before, after, rfl⟩ := append_of_mem hb
  rw [prev_split hnodup, getLast?_eq_some_iff] at h
  obtain ⟨before, rfl⟩ := h
  rw [append_assoc, singleton_append] at hnodup ⊢
  rw [next_split ?_]
  · rfl
  · intro ha
    have hdisj := (List.nodup_append.mp hnodup).2.2 a ha a (by simp)
    exact hdisj rfl

theorem insertAfter_split (h : a ∉ before) :
    insertAfter a b (before ++ a :: after) = before ++ a :: b :: after := by
  induction before with
  | nil => simp [insertAfter]
  | cons x before ih =>
    have hx : x ≠ a := fun he => h (by simp [he])
    simp [insertAfter, hx, ih (fun hm => h (by simp [hm]))]

theorem erase_split (h : a ∉ before) : (before ++ a :: after).erase a = before ++ after := by
  rw [erase_append_right _ h, erase_cons_head]

@[simp] theorem head?_insertAfter (a b : α) (l : List α) : (insertAfter a b l).head? = l.head? := by
  cases l with
  | nil => rfl
  | cons x l => by_cases hx : x = a <;> simp [insertAfter, hx]

theorem mem_insertAfter (ha : a ∈ l) : c ∈ insertAfter a b l ↔ c = b ∨ c ∈ l := by
  obtain ⟨before, after, rfl, hbefore⟩ := eq_append_cons_of_mem ha
  rw [insertAfter_split hbefore]
  simp only [mem_append, mem_cons]
  tauto

/-- The new element follows `a`. -/
theorem next_insertAfter_self (ha : a ∈ l) : next (insertAfter a b l) a = some b := by
  obtain ⟨before, after, rfl, hbefore⟩ := eq_append_cons_of_mem ha
  rw [insertAfter_split hbefore, next_split hbefore]
  rfl

/-- The new element is followed by what followed `a`. -/
theorem next_insertAfter_new (ha : a ∈ l) (hb : b ∉ l) : next (insertAfter a b l) b = next l a := by
  obtain ⟨before, after, rfl, hbefore⟩ := eq_append_cons_of_mem ha
  rw [insertAfter_split hbefore, append_cons, next_split, next_split hbefore]
  simp only [mem_append, mem_cons, not_or] at hb
  simpa using ⟨hb.1, hb.2.1⟩

/-- Once the successor of `a` is removed, `a` is followed by what followed it. -/
theorem next_erase_next (hnodup : l.Nodup) (h : next l a = some b) :
    next (l.erase b) a = next l b := by
  obtain ⟨before, after, rfl, ha⟩ := exists_split_of_next h
  rw [append_cons] at hnodup ⊢
  have hb : b ∉ before ++ [a] := by
    intro hmem
    exact (List.nodup_append.mp hnodup).2.2 b hmem b (by simp) rfl
  rw [erase_split hb, next_split hb, append_assoc, singleton_append, next_split ha]

/-- Inserting behind `a` changes the successor of no other element. -/
theorem next_insertAfter_of_ne (ha : c ≠ a) (hb : c ≠ b) :
    next (insertAfter a b l) c = next l c := by
  induction l with
  | nil => rfl
  | cons x l ih =>
    by_cases hx : x = a
    · subst hx
      simp [insertAfter, next_cons_of_ne _ ha.symm, next_cons_of_ne _ hb.symm]
    · by_cases hc : x = c
      · subst hc
        simp [insertAfter, hx]
      · simp [insertAfter, hx, next_cons_of_ne _ hc, ih]

/-- Removing `b` changes the successor of no element that `b` does not follow. -/
theorem next_erase_of_ne (hb : c ≠ b) (hnext : next l c ≠ some b) :
    next (l.erase b) c = next l c := by
  induction l with
  | nil => rfl
  | cons x l ih =>
    by_cases hx : x = b
    · subst hx
      simp [next_cons_of_ne _ hb.symm]
    · rw [erase_cons_tail (by simpa using hx)]
      by_cases hc : x = c
      · subst hc
        rw [next_cons_self] at hnext
        rw [next_cons_self, next_cons_self]
        cases l with
        | nil => rfl
        | cons y l =>
          have hy : y ≠ b := fun he => hnext (by simp [he])
          rw [erase_cons_tail (by simpa using hy)]
          rfl
      · rw [next_cons_of_ne _ hc] at hnext ⊢
        rw [next_cons_of_ne _ hc]
        exact ih hnext

/-- In a list without repetitions, predecessor and successor are inverse. -/
theorem prev_of_next (hnodup : l.Nodup) (h : next l a = some b) : prev l b = some a := by
  obtain ⟨before, after, rfl, -⟩ := exists_split_of_next h
  rw [append_cons] at hnodup ⊢
  rw [prev_split hnodup, getLast?_concat]

theorem next_injective (hnodup : l.Nodup) (ha : next l a = some c)
    (hb : next l b = some c) : a = b := by
  have heq := (prev_of_next hnodup ha).symm.trans (prev_of_next hnodup hb)
  exact Option.some.inj heq

/-- The neighbours in a list from which the successor of `b` was removed. -/
theorem next_erase_iff {u v : α} (hnodup : l.Nodup) (h : next l b = some c) :
    next (l.erase c) u = some v ↔
      u = b ∧ next l c = some v ∨ u ≠ b ∧ u ≠ c ∧ next l u = some v := by
  by_cases hub : u = b
  · subst hub
    simp [next_erase_next hnodup h]
  · by_cases huc : u = c
    · subst huc
      have hnone : next (l.erase u) u = none := next_of_notMem hnodup.not_mem_erase
      simp [hub, hnone]
    · have hne : next l u ≠ some c := fun he => hub (next_injective hnodup he h)
      simp [hub, huc, next_erase_of_ne huc hne]

/-- The neighbours in a list into which `c` was inserted behind `b`. -/
theorem next_insertAfter_iff {u v : α} (hb : b ∈ l) (hc : c ∉ l) :
    next (insertAfter b c l) u = some v ↔
      u = b ∧ v = c ∨ u = c ∧ next l b = some v ∨ u ≠ b ∧ u ≠ c ∧ next l u = some v := by
  have hne : b ≠ c := fun he => hc (he ▸ hb)
  by_cases hub : u = b
  · subst hub
    simp [next_insertAfter_self hb, hne, eq_comm]
  · by_cases huc : u = c
    · subst huc
      simp [next_insertAfter_new hb hc, hub]
    · simp [next_insertAfter_of_ne hub huc, hub, huc]

end LinkedList
