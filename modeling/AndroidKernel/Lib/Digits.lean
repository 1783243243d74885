import Mathlib.Data.Nat.ModEq
import Mathlib.Tactic.Ring

/-!
# Digits of an index

A tree that branches on the digits of an index finds its way by `digit`. Two indices take the same
way through the lowest `h` levels when they agree modulo `b ^ h`.
-/

namespace AndroidKernel.Digits

open Nat

variable {b h i j m : ℕ}

/-- The digit of `i` at the place `k`, in base `b`. -/
def digit (b k i : ℕ) : ℕ := i / b ^ k % b

/-- Two indices agree on one digit more. -/
theorem modEq_succ (hb : 0 < b) :
    i ≡ j [MOD b ^ (h + 1)] ↔ digit b h i = digit b h j ∧ i ≡ j [MOD b ^ h] := by
  have hpos : 0 < b ^ h := Nat.pow_pos hb
  simp only [Nat.ModEq, mod_pow_succ, digit]
  constructor
  · intro heq
    have hmod := congrArg (· % b ^ h) heq
    simp only [add_mul_mod_self_left, mod_mod] at hmod
    rw [hmod] at heq
    exact ⟨Nat.eq_of_mul_eq_mul_left hpos (Nat.add_left_cancel heq), hmod⟩
  · rintro ⟨hdigit, hmod⟩
    rw [hdigit, hmod]

/-- Indices below `b ^ h` that agree modulo `b ^ h` are equal. -/
theorem eq_of_modEq (hi : i < b ^ h) (hj : j < b ^ h) (heq : i ≡ j [MOD b ^ h]) : i = j :=
  Nat.ModEq.eq_of_lt_of_lt heq hi hj

/-- The top digit is zero just when the index needs one digit less. -/
theorem digit_eq_zero_iff (hi : i < b ^ (h + 1)) : digit b h i = 0 ↔ i < b ^ h := by
  rw [pow_succ] at hi
  rw [digit, mod_eq_of_lt (Nat.div_lt_of_lt_mul hi), Nat.div_eq_zero_iff]
  constructor
  · rintro (hpow | hlt)
    · rw [hpow, zero_mul] at hi
      omega
    · exact hlt
  · exact Or.inr

theorem div_pow_succ : i / b ^ (h + 1) = i / b ^ h / b := by rw [pow_succ, Nat.div_div_eq_div_mul]

/-- From `i` on, as long as the digit at the place `h` is below `m`, the digits above stay. -/
theorem digit_of_le_of_lt (hm : m ≤ b) (hij : i ≤ j)
    (hj : j < i / b ^ (h + 1) * b ^ (h + 1) + m * b ^ h) :
    j / b ^ (h + 1) = i / b ^ (h + 1) ∧ digit b h i ≤ digit b h j ∧ digit b h j < m := by
  have hle : i / b ^ h ≤ j / b ^ h := Nat.div_le_div_right hij
  have hlt : j / b ^ h < i / b ^ h / b * b + m := by
    apply Nat.div_lt_of_lt_mul
    calc j < i / b ^ (h + 1) * b ^ (h + 1) + m * b ^ h := hj
      _ = b ^ h * (i / b ^ h / b * b + m) := by
        rw [div_pow_succ, pow_succ]
        ring
  rw [div_pow_succ, div_pow_succ, digit, digit]
  generalize i / b ^ h = x at hle hlt
  generalize j / b ^ h = y at hle hlt
  have hx : x / b * b ≤ x := div_mul_le_self x b
  have hy : y / b = x / b := Nat.div_eq_of_lt_le (by omega) (by rw [Nat.add_mul]; omega)
  have hxmod := div_add_mod' x b
  have hymod := div_add_mod' y b
  rw [hy] at hymod
  omega

/-- The digits of the number with the digit `m` at the place `h` and zeros below. -/
theorem digit_block {k : ℕ} (hm : m < b) : (k * b ^ (h + 1) + m * b ^ h) / b ^ (h + 1) = k ∧
      digit b h (k * b ^ (h + 1) + m * b ^ h) = m := by
  have hb : 0 < b := zero_lt_of_lt hm
  have hdiv : (k * b ^ (h + 1) + m * b ^ h) / b ^ h = k * b + m := by
    rw [show k * b ^ (h + 1) + m * b ^ h = (k * b + m) * b ^ h by rw [pow_succ]; ring]
    exact Nat.mul_div_cancel _ (Nat.pow_pos hb)
  rw [div_pow_succ, digit, hdiv]
  constructor
  · rw [add_comm, add_mul_div_right _ _ hb, div_eq_of_lt hm, zero_add]
  · rw [add_comm, add_mul_mod_self_right, mod_eq_of_lt hm]

/-- A number is below the one with a larger digit in its place. -/
theorem lt_block_of_digit_lt (hb : 0 < b) (hm : digit b h i < m) :
    i < i / b ^ (h + 1) * b ^ (h + 1) + m * b ^ h := by
  have hpos : 0 < b ^ h := Nat.pow_pos hb
  have hmod := div_add_mod' (i / b ^ h) b
  rw [digit] at hm
  calc i < (i / b ^ h + 1) * b ^ h := lt_mul_of_div_lt (lt_succ_self _) hpos
    _ ≤ (i / b ^ h / b * b + m) * b ^ h := mul_le_mul_right _ (by omega)
    _ = i / b ^ (h + 1) * b ^ (h + 1) + m * b ^ h := by
      rw [div_pow_succ, pow_succ]
      ring

end AndroidKernel.Digits
