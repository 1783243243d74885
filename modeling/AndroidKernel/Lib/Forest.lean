import Mathlib.Logic.Relation
import Mathlib.Order.Basic

/-!
# Forests as relations

A relation between parents and children is a forest when it has a rank that falls from a parent to
its children. Two changes keep it one: a leaf becomes the child of a node, and a node is put between
a parent and some of its children. Where the children of a parent do not meet each other, and what a
node meets is met by its parent too, two nodes below a common root that meet are one below the
other.
-/

namespace AndroidKernel.Forest

open Relation (ReflTransGen)

variable {ι : Type*} {child child' : ι → ι → Prop} {a b c p n o x y : ι}

/-- There are no cycles, and no endless ways down. -/
def Ranked (child : ι → ι → Prop) : Prop := ∃ rank : ι → ℕ, ∀ a b, child a b → rank b < rank a

theorem Ranked.mono (h : Ranked child) (hsub : ∀ a b, child' a b → child a b) : Ranked child' := by
  obtain ⟨rank, hrank⟩ := h
  exact ⟨rank, fun a b hab => hrank a b (hsub a b hab)⟩

/-- Nodes below a common root that meet are one below the other. -/
theorem comparable (meets : ι → ι → Prop) (hsymm : ∀ a b, meets a b → meets b a)
    (hup : ∀ a b c, child a b → meets b c → meets a c)
    (hsiblings : ∀ p a b, child p a → child p b → meets a b → a = b)
    (hx : ReflTransGen child o x) (hy : ReflTransGen child o y) (hmeets : meets x y) :
    ReflTransGen child x y ∨ ReflTransGen child y x := by
  have hlift {a b c : ι} (hab : ReflTransGen child a b) (hbc : meets b c) : meets a c := by
    induction hab using ReflTransGen.head_induction_on with
    | refl => exact hbc
    | head hchild _ ih => exact hup _ _ _ hchild ih
  induction hx using ReflTransGen.head_induction_on with
  | refl => exact .inl hy
  | @head o a hoa hax ih =>
    rcases hy.cases_head with rfl | ⟨b, hob, hby⟩
    · exact .inr (.head hoa hax)
    · -- the two ways down start with children that meet, so they are the same
      have hab : meets a b := hsymm _ _ (hlift hby (hsymm _ _ (hlift hax hmeets)))
      obtain rfl := hsiblings o a b hoa hob hab
      exact ih hby

section Link

variable (hlink : ∀ a b, child' a b → child a b ∨ a = p ∧ b = n) (hleaf : ∀ b, ¬ child n b)
  (hne : p ≠ n)
include hlink hleaf hne

/-- The ways down after a leaf became a child. -/
theorem reflTransGen_link (h : ReflTransGen child' a b) :
    ReflTransGen child a b ∨ ReflTransGen child a p ∧ b = n := by
  induction h with
  | refl => exact .inl .refl
  | tail _ hbc ih =>
    rcases ih with hab | ⟨-, rfl⟩
    · rcases hlink _ _ hbc with hchild | ⟨rfl, rfl⟩
      · exact .inl (hab.tail hchild)
      · exact .inr ⟨hab, rfl⟩
    · rcases hlink _ _ hbc with hchild | ⟨rfl, -⟩
      · exact absurd hchild (hleaf _)
      · exact absurd rfl hne

theorem Ranked.link (h : Ranked child) : Ranked child' := by
  classical
  obtain ⟨rank, hrank⟩ := h
  refine ⟨fun a => if a = n then 0 else rank a + 1, fun a b hab => ?_⟩
  have han : a ≠ n := by
    rintro rfl
    rcases hlink _ _ hab with hchild | ⟨rfl, -⟩
    · exact hleaf b hchild
    · exact hne rfl
  dsimp only
  rw [if_neg han]
  by_cases hbn : b = n
  · rw [if_pos hbn]
    exact Nat.succ_pos _
  · rw [if_neg hbn]
    rcases hlink _ _ hab with hchild | ⟨-, rfl⟩
    · exact Nat.succ_lt_succ (hrank a b hchild)
    · exact absurd rfl hbn

end Link

section Between

variable (hlink : ∀ a b, child' a b → child a b ∧ a ≠ n ∨ a = p ∧ b = n ∨ a = n ∧ child p b)
  (hfresh : ∀ a, ¬ child a n) (hne : p ≠ n)
include hlink hfresh hne

/-- The ways down that end at a node that was there. -/
theorem reflTransGen_between (h : ReflTransGen child' a b) (hb : b ≠ n) :
    a ≠ n ∧ ReflTransGen child a b ∨ a = n ∧ ∃ c, child' n c ∧ ReflTransGen child c b := by
  induction h using ReflTransGen.head_induction_on with
  | refl => exact .inl ⟨hb, .refl⟩
  | @head a c hac hcb ih =>
    rcases ih with ⟨hcn, hcb'⟩ | ⟨rfl, d, hnd, hdb⟩
    · rcases hlink _ _ hac with ⟨hchild, han⟩ | ⟨-, rfl⟩ | ⟨rfl, -⟩
      · exact .inl ⟨han, .head hchild hcb'⟩
      · exact absurd rfl hcn
      · exact .inr ⟨rfl, c, hac, hcb'⟩
    · rcases hlink _ _ hac with ⟨hchild, -⟩ | ⟨rfl, -⟩ | ⟨rfl, hchild⟩
      · exact absurd hchild (hfresh a)
      · rcases hlink _ _ hnd with ⟨-, hself⟩ | ⟨hself, -⟩ | ⟨-, hpd⟩
        · exact absurd rfl hself
        · exact absurd hself.symm hne
        · exact .inl ⟨hne, .head hpd hdb⟩
      · exact absurd hchild (hfresh p)

/-- The ways down to the new node. -/
theorem reflTransGen_to_between (h : ReflTransGen child' a n) : a = n ∨ ReflTransGen child a p := by
  rcases h.cases_tail with heq | ⟨b, hab, hbn⟩
  · exact .inl heq.symm
  · obtain rfl : b = p := by
      rcases hlink _ _ hbn with ⟨hchild, -⟩ | ⟨hbp, -⟩ | ⟨-, hchild⟩
      · exact absurd hchild (hfresh b)
      · exact hbp
      · exact absurd hchild (hfresh p)
    rcases reflTransGen_between hlink hfresh hne hab hne with ⟨-, hab'⟩ | ⟨rfl, -⟩
    · exact .inr hab'
    · exact .inl rfl

theorem Ranked.between (h : Ranked child) : Ranked child' := by
  classical
  obtain ⟨rank, hrank⟩ := h
  refine ⟨fun a => if a = n then 2 * rank p + 1 else 2 * rank a + 2, fun a b hab => ?_⟩
  dsimp only
  rcases hlink _ _ hab with ⟨hchild, han⟩ | ⟨rfl, rfl⟩ | ⟨rfl, hchild⟩
  · have hbn : b ≠ n := fun heq => hfresh a (heq ▸ hchild)
    have := hrank a b hchild
    rw [if_neg han, if_neg hbn]
    omega
  · rw [if_neg hne, if_pos rfl]
    omega
  · have hbn : b ≠ a := fun heq => hfresh p (heq ▸ hchild)
    have := hrank p b hchild
    rw [if_pos rfl, if_neg hbn]
    omega

end Between

end AndroidKernel.Forest
