import Mathlib.Order.Basic

/-!
# Loops

A loop whose body goes on with a new state or ends with a result. It is run for a bounded number of
rounds; the rule below says when the bound is enough.
-/

namespace AndroidKernel

variable {σ ρ : Type*}

/-- The loop with the given body, for at most the given number of rounds. The body has no outcome
where the program would crash. -/
def loop (body : σ → Option (σ ⊕ ρ)) : ℕ → σ → Option ρ
  | 0, _ => none
  | n + 1, s =>
    match body s with
    | none => none
    | some (.inl s) => loop body n s
    | some (.inr r) => some r

/-- A loop that keeps an invariant while a measure falls ends, with what its last round gives. -/
theorem loop_spec {body : σ → Option (σ ⊕ ρ)} (Inv : σ → Prop) (measure : σ → ℕ) (Post : ρ → Prop)
    (hbody : ∀ s, Inv s → (∃ s', body s = some (.inl s') ∧ Inv s' ∧ measure s' < measure s) ∨
      ∃ r, body s = some (.inr r) ∧ Post r)
    {n : ℕ} {s : σ} (hs : Inv s) (hn : measure s < n) : ∃ r, loop body n s = some r ∧ Post r := by
  induction n generalizing s with
  | zero => omega
  | succ n ih =>
    rcases hbody s hs with ⟨s', heq, hs', hlt⟩ | ⟨r, heq, hr⟩
    · obtain ⟨r, hloop, hr⟩ := ih hs' (by omega)
      exact ⟨r, by rw [loop, heq]; exact hloop, hr⟩
    · exact ⟨r, by rw [loop, heq], hr⟩

end AndroidKernel
