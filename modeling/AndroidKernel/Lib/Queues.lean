import Mathlib.Data.List.Basic

/-!
# Items on queues

Items with a single list entry each: an item is on at most one queue, at one place.
The queues and the map from items to queues are kept together, with the fact that
they agree.
-/

/-- Queues named by `Q` of items `W`. -/
structure Queues (Q W : Type) [DecidableEq Q] [DecidableEq W] where
  items : Q → List W
  /-- The queue of an item; none when its list entry is empty. -/
  home : W → Option Q
  mem_items : ∀ q w, w ∈ items q ↔ home w = some q
  nodup : ∀ q, (items q).Nodup

namespace Queues

open Function

variable {Q W : Type} [DecidableEq Q] [DecidableEq W]

/-- No item is on a queue. -/
def empty : Queues Q W := ⟨fun _ => [], fun _ => none, by simp, by simp⟩

variable (s : Queues Q W) (w : W)

/-- Take an item from its queue. -/
def del : Queues Q W where
  items q := (s.items q).erase w
  home := update s.home w none
  mem_items q v := by
    rw [(s.nodup q).mem_erase_iff, s.mem_items, update_apply]
    by_cases hvw : v = w <;> simp [hvw]
  nodup q := (s.nodup q).erase w

section

variable {q : Q} {l : List W} (hl : l.Perm (w :: (s.del w).items q)) (r : Q)
include hl

theorem mem_put (v : W) :
    v ∈ update (s.del w).items q l r ↔ update s.home w (some q) v = some r := by
  have hdel := (s.del w).mem_items r v
  simp only [del, update_apply] at hdel ⊢
  by_cases hrq : r = q
  · subst hrq
    rw [if_pos rfl, hl.mem_iff]
    by_cases hvw : v = w <;> simp_all [del]
  · by_cases hvw : v = w
    · simp_all [eq_comm]
    · simp_all

theorem nodup_put : (update (s.del w).items q l r).Nodup := by
  by_cases hrq : r = q
  · subst hrq
    rw [update_self, hl.nodup_iff, List.nodup_cons]
    refine ⟨?_, (s.del w).nodup r⟩
    rw [(s.del w).mem_items]
    simp [del]
  · rw [update_of_ne hrq]
    exact (s.del w).nodup r

end

/-- Put an item at the end of a queue, from wherever it was. -/
def addTail (q : Q) : Queues Q W where
  items := update (s.del w).items q ((s.del w).items q ++ [w])
  home := update s.home w (some q)
  mem_items := s.mem_put w (List.perm_append_singleton ..)
  nodup := s.nodup_put w (List.perm_append_singleton ..)

/-- Put an item at the front of a queue, from wherever it was. -/
def addHead (q : Q) : Queues Q W where
  items := update (s.del w).items q (w :: (s.del w).items q)
  home := update s.home w (some q)
  mem_items := s.mem_put w (.refl _)
  nodup := s.nodup_put w (.refl _)

section

variable (s : Queues Q W) (w v : W)

theorem home_del : (s.del w).home v = if v = w then none else s.home v := by
  simp [del, update_apply]

theorem home_addTail (q : Q) : (s.addTail w q).home v = if v = w then some q else s.home v := by
  simp [addTail, update_apply]

theorem home_addHead (q : Q) : (s.addHead w q).home v = if v = w then some q else s.home v := by
  simp [addHead, update_apply]

end

/-- The second queues come from the first by moving items, each only to where `A` lets it; none
stands for taking the item from its queue. -/
inductive Moves (A : W → Option Q → Prop) : Queues Q W → Queues Q W → Prop
  | refl (s : Queues Q W) : Moves A s s
  | del {s t : Queues Q W} {w : W} (h : Moves A s t) (hA : A w none) : Moves A s (t.del w)
  | addTail {s t : Queues Q W} {w : W} {q : Q} (h : Moves A s t) (hA : A w (some q)) :
      Moves A s (t.addTail w q)
  | addHead {s t : Queues Q W} {w : W} {q : Q} (h : Moves A s t) (hA : A w (some q)) :
      Moves A s (t.addHead w q)

namespace Moves

variable {A B : W → Option Q → Prop} {s t u : Queues Q W}

theorem trans (h : Moves A s t) (h' : Moves A t u) : Moves A s u := by
  induction h' with
  | refl => exact h
  | del _ hA ih => exact .del ih hA
  | addTail _ hA ih => exact .addTail ih hA
  | addHead _ hA ih => exact .addHead ih hA

theorem mono (hAB : ∀ w q, A w q → B w q) (h : Moves A s t) : Moves B s t := by
  induction h with
  | refl => exact .refl s
  | del _ hA ih => exact .del ih (hAB _ _ hA)
  | addTail _ hA ih => exact .addTail ih (hAB _ _ hA)
  | addHead _ hA ih => exact .addHead ih (hAB _ _ hA)

/-- An item is where it was or where it was allowed to go. -/
theorem home_cases (h : Moves A s t) (w : W) : t.home w = s.home w ∨ A w (t.home w) := by
  induction h with
  | refl => exact .inl rfl
  | @del t v _ hA ih =>
    rw [home_del]
    split_ifs with hwv
    · exact .inr (hwv ▸ hA)
    · exact ih
  | @addTail t v q _ hA ih =>
    rw [home_addTail]
    split_ifs with hwv
    · exact .inr (hwv ▸ hA)
    · exact ih
  | @addHead t v q _ hA ih =>
    rw [home_addHead]
    split_ifs with hwv
    · exact .inr (hwv ▸ hA)
    · exact ih

/-- An item that may not move stays. -/
theorem home_eq (h : Moves A s t) {w : W} (hw : ∀ q, ¬ A w q) : t.home w = s.home w :=
  (h.home_cases w).resolve_right (hw _)

end Moves

end Queues
