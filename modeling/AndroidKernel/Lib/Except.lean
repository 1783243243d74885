import Mathlib.Data.List.Basic

/-!
# Programs that may stop at an error

What the result of a program says about its parts, loops included, and which errors a program
does not stop at.
-/

variable {ε α β γ : Type} {x : Except ε α} {b : β}

/-- A program in two parts succeeds only when both parts do. -/
theorem Except.of_bind {f : α → Except ε β} (h : (x >>= f) = .ok b) :
    ∃ a, x = .ok a ∧ f a = .ok b := by
  cases x with
  | error e => cases h
  | ok a => exact ⟨a, rfl, h⟩

/-- The result of a program that is read off another one's. -/
theorem Except.of_map {f : α → β} (h : x.map f = .ok b) : ∃ a, x = .ok a ∧ f a = b := by
  cases x with
  | error e => cases h
  | ok a => exact ⟨a, rfl, Except.ok.inj h⟩

/-- The result of a program, if there is one, has a property. -/
def Except.Ensures {ε α : Type} (P : α → Prop) : Except ε α → Prop
  | .ok a => P a
  | .error _ => True

instance {ε α : Type} (P : α → Prop) [DecidablePred P] : DecidablePred (@Except.Ensures ε α P)
  | .ok a => inferInstanceAs (Decidable (P a))
  | .error _ => inferInstanceAs (Decidable True)

theorem Except.Ensures.of_eq {P : α → Prop} {a : α} (h : x.Ensures P) (hx : x = .ok a) : P a := by
  rw [hx] at h
  exact h

/-- A result that passes a test is a result. -/
theorem Except.exists_ok {f : α → Bool} (h : x.toOption.any f = true) :
    ∃ a, x = .ok a ∧ f a = true := by
  cases x with
  | error e => cases h
  | ok a => exact ⟨a, rfl, h⟩

/-- A program does not stop at certain errors. -/
def Except.Avoids {ε α : Type} (bad : ε → Prop) (x : Except ε α) : Prop :=
  ∀ e, x = .error e → ¬ bad e

namespace Except.Avoids

variable {bad : ε → Prop} {f : β → γ → Except ε β} {l : List γ}

theorem ok {a : α} : (Except.ok a : Except ε α).Avoids bad := by rintro e ⟨⟩

theorem error [DecidablePred bad] {e : ε} (he : decide (bad e) = false) :
    (Except.error e : Except ε α).Avoids bad := by
  rintro _ ⟨⟩
  exact of_decide_eq_false he

theorem ite {c : Prop} [Decidable c] {y : Except ε α} (hx : x.Avoids bad) (hy : y.Avoids bad) :
    (if c then x else y).Avoids bad := by
  split_ifs
  · exact hx
  · exact hy

theorem bind {f : α → Except ε β} (hx : x.Avoids bad) (hf : ∀ a, x = .ok a → (f a).Avoids bad) :
    (x >>= f).Avoids bad := by
  cases x with
  | error e => exact fun e' he' => hx e' (by cases he'; rfl)
  | ok a => exact hf a rfl

theorem map {f : α → β} (hx : x.Avoids bad) : (x.map f).Avoids bad := by
  cases x with
  | error e => exact fun e' he' => hx e' (by cases he'; rfl)
  | ok a => exact ok

/-- A loop over a list. `R` is what the rounds may rely on, with the rest of the list. -/
theorem foldlM {R : List γ → β → Prop} (hR : R l b)
    (hf : ∀ c l b, R (c :: l) b → (f b c).Avoids bad ∧ ∀ b', f b c = .ok b' → R l b') :
    (l.foldlM f b).Avoids bad := by
  induction l generalizing b with
  | nil => exact ok
  | cons c l ih =>
    rw [List.foldlM_cons]
    exact bind (hf c l b hR).1 fun b' hb' => ih ((hf c l b hR).2 b' hb')

/-- A loop over a list whose rounds rely on nothing. -/
theorem foldlM_of_forall (hf : ∀ b c, (f b c).Avoids bad) : (l.foldlM f b).Avoids bad :=
  foldlM (R := fun _ _ => True) trivial fun c _ b _ => ⟨hf b c, fun _ _ => trivial⟩

end Except.Avoids

/-- What every round of a loop keeps, the loop keeps. `R` sees the rest of the list. -/
theorem List.foldlM_ok {f : β → γ → Except ε β} {R : List γ → β → Prop}
    (hf : ∀ c l b b', R (c :: l) b → f b c = .ok b' → R l b') {l : List γ} {b' : β}
    (hR : R l b) (h : l.foldlM f b = .ok b') : R [] b' := by
  induction l generalizing b with
  | nil =>
    cases h
    exact hR
  | cons c l ih =>
    rw [List.foldlM_cons] at h
    obtain ⟨b₁, hstep, h⟩ := Except.of_bind h
    exact ih (hf c l b b₁ hR hstep) h
