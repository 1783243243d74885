import Mathlib.Data.Nat.Bitwise
import Mathlib.Order.Interval.Finset.Nat
import Mathlib.Tactic.Ring

/-!
# Dyadic blocks of natural numbers

The block of order `o` at a multiple of `2 ^ o`, its buddy, with which it makes a block of order
`o + 1`, and the bit operations that compute them.
-/

namespace Dyadic

open Nat

/-- The `2 ^ o` numbers from `p` on. -/
def block (o p : ℕ) : Finset ℕ := Finset.Ico p (p + 2 ^ o)

/-- The other half of the block of the next order. -/
def buddy (o p : ℕ) : ℕ := if p / 2 ^ o % 2 = 0 then p + 2 ^ o else p - 2 ^ o

/-- The start of the block of the next order. -/
def parent (o p : ℕ) : ℕ := p / 2 ^ (o + 1) * 2 ^ (o + 1)

@[simp]
theorem mem_block {o p q : ℕ} : q ∈ block o p ↔ p ≤ q ∧ q < p + 2 ^ o := by simp [block]

theorem self_mem_block (o p : ℕ) : p ∈ block o p := by simp

theorem block_mono {o o' : ℕ} (h : o ≤ o') (p : ℕ) : block o p ⊆ block o' p := by
  intro q hq
  have := Nat.pow_le_pow_right (show 2 > 0 by decide) h
  simp only [mem_block] at hq ⊢
  omega

/-- A block is its lower half and its upper half. -/
theorem block_succ (o p : ℕ) : block (o + 1) p = block o p ∪ block o (p + 2 ^ o) := by
  ext q
  simp only [Finset.mem_union, mem_block, pow_succ]
  omega

theorem disjoint_halves (o p : ℕ) : Disjoint (block o p) (block o (p + 2 ^ o)) := by
  rw [Finset.disjoint_left]
  intro q hq hq'
  simp only [mem_block] at hq hq'
  omega

section Aligned

variable {o p : ℕ}

/-- An aligned number is an even or an odd multiple. -/
theorem even_or_odd (h : 2 ^ o ∣ p) :
    (∃ k, p = 2 ^ (o + 1) * k) ∨ ∃ k, p = 2 ^ (o + 1) * k + 2 ^ o := by
  obtain ⟨k, rfl⟩ := h
  rcases even_or_odd' k with ⟨j, rfl | rfl⟩
  · exact .inl ⟨j, by ring⟩
  · exact .inr ⟨j, by ring⟩

theorem buddy_even (o k : ℕ) : buddy o (2 ^ (o + 1) * k) = 2 ^ (o + 1) * k + 2 ^ o := by
  have hdiv : 2 ^ (o + 1) * k / 2 ^ o = 2 * k := by
    rw [pow_succ, Nat.mul_assoc, Nat.mul_div_cancel_left _ (Nat.two_pow_pos o)]
  simp [buddy, hdiv]

theorem buddy_odd (o k : ℕ) : buddy o (2 ^ (o + 1) * k + 2 ^ o) = 2 ^ (o + 1) * k := by
  have hdiv : (2 ^ (o + 1) * k + 2 ^ o) / 2 ^ o = 2 * k + 1 := by
    rw [show 2 ^ (o + 1) * k + 2 ^ o = 2 ^ o * (2 * k + 1) by ring,
      Nat.mul_div_cancel_left _ (Nat.two_pow_pos o)]
  simp [buddy, hdiv]

theorem parent_even (o k : ℕ) : parent o (2 ^ (o + 1) * k) = 2 ^ (o + 1) * k := by
  rw [parent, Nat.mul_div_cancel_left _ (Nat.two_pow_pos _), Nat.mul_comm]

theorem parent_odd (o k : ℕ) : parent o (2 ^ (o + 1) * k + 2 ^ o) = 2 ^ (o + 1) * k := by
  have hlt : 2 ^ o < 2 ^ (o + 1) := Nat.pow_lt_pow_right (by decide) o.lt_succ_self
  rw [parent, mul_add_div (Nat.two_pow_pos _), div_eq_of_lt hlt, Nat.add_zero, Nat.mul_comm]

theorem dvd_parent (o p : ℕ) : 2 ^ (o + 1) ∣ parent o p := Nat.dvd_mul_left _ _

theorem buddy_buddy (h : 2 ^ o ∣ p) : buddy o (buddy o p) = p := by
  rcases even_or_odd h with ⟨k, rfl⟩ | ⟨k, rfl⟩
  · rw [buddy_even, buddy_odd]
  · rw [buddy_odd, buddy_even]

theorem buddy_ne (h : 2 ^ o ∣ p) : buddy o p ≠ p := by
  have := Nat.two_pow_pos o
  rcases even_or_odd h with ⟨k, rfl⟩ | ⟨k, rfl⟩
  · rw [buddy_even]
    omega
  · rw [buddy_odd]
    omega

theorem buddy_upper (h : 2 ^ (o + 1) ∣ p) : buddy o (p + 2 ^ o) = p := by
  obtain ⟨k, rfl⟩ := h
  exact buddy_odd o k

/-- A block and its buddy are the block of the next order. -/
theorem block_parent (h : 2 ^ o ∣ p) :
    block (o + 1) (parent o p) = block o p ∪ block o (buddy o p) := by
  rcases even_or_odd h with ⟨k, rfl⟩ | ⟨k, rfl⟩
  · rw [parent_even, buddy_even, block_succ]
  · rw [parent_odd, buddy_odd, block_succ, Finset.union_comm]

/-- An aligned block is a class of numbers with one quotient. -/
theorem mem_block_iff {q : ℕ} (hp : 2 ^ o ∣ p) : q ∈ block o p ↔ q / 2 ^ o = p / 2 ^ o := by
  obtain ⟨k, rfl⟩ := hp
  rw [Nat.mul_div_cancel_left k (Nat.two_pow_pos o), Nat.div_eq_iff (Nat.two_pow_pos o), mem_block,
    Nat.mul_comm k]
  have := Nat.two_pow_pos o
  omega

/-- Two aligned blocks that meet are nested. -/
theorem block_subset_of_mem {c p' q : ℕ} (hle : o ≤ c) (hp : 2 ^ o ∣ p) (hp' : 2 ^ c ∣ p')
    (hq : q ∈ block o p) (hq' : q ∈ block c p') : block o p ⊆ block c p' := by
  obtain ⟨d, rfl⟩ := Nat.exists_eq_add_of_le hle
  intro r hr
  rw [mem_block_iff hp] at hq hr
  rw [mem_block_iff hp', pow_add, ← Nat.div_div_eq_div_mul] at hq' ⊢
  rw [hr, ← hq, hq']

end Aligned

section Bits

/-- Flipping bit `o` of a multiple of `2 ^ o`. -/
theorem mul_xor_two_pow (o k : ℕ) :
    2 ^ o * k ^^^ 2 ^ o = if k % 2 = 0 then 2 ^ o * k + 2 ^ o else 2 ^ o * k - 2 ^ o := by
  have hshift : 2 ^ o * k ^^^ 2 ^ o = 2 ^ o * (k ^^^ 1) := by
    have := shiftLeft_xor_distrib (i := o) (a := k) (b := 1)
    simpa [shiftLeft_eq, Nat.mul_comm] using this.symm
  rw [hshift]
  split_ifs with hk
  · rw [xor_one_of_even (Nat.even_iff.mpr hk)]
    ring
  · rw [xor_one_of_odd (Nat.odd_iff.mpr (by omega)), Nat.mul_sub, Nat.mul_one]

/-- Clearing bit `o` of a multiple of `2 ^ o`. -/
theorem ldiff_mul_two_pow (o k : ℕ) : Nat.ldiff (2 ^ o * k) (2 ^ o) = parent o (2 ^ o * k) := by
  have hparent : parent o (2 ^ o * k) = 2 ^ o * (2 ^ 1 * (k / 2)) := by
    rw [parent, pow_succ, Nat.mul_div_mul_left _ _ (Nat.two_pow_pos o)]
    ring
  rw [hparent]
  refine eq_of_testBit_eq fun i => ?_
  rw [testBit_ldiff, testBit_two_pow_mul, testBit_two_pow_mul,
    testBit_two_pow_mul, testBit_two_pow, testBit_div_two]
  rcases lt_trichotomy i o with h | rfl | h
  · simp [Nat.not_le.mpr h]
  · simp
  · have hsub : i - o - 1 + 1 = i - o := by omega
    simp [h.le, h.ne, hsub]
    omega

theorem parent_eq_sub (o p : ℕ) : parent o p = p - p % 2 ^ (o + 1) := by
  have := div_add_mod' p (2 ^ (o + 1))
  rw [parent]
  omega

variable {o m p : ℕ}

section

variable (ho : o < m)
include ho

/-- Bit `o` is that of the number modulo a higher power of two. -/
theorem mod_two_pow_div_mod_two : p % 2 ^ m / 2 ^ o % 2 = p / 2 ^ o % 2 := by
  have hbit : (p % 2 ^ m).testBit o = p.testBit o := by simp [ho]
  simp only [testBit_eq_decide_div_mod_eq, decide_eq_decide] at hbit
  omega

theorem dvd_mod_two_pow (h : 2 ^ o ∣ p) : 2 ^ o ∣ p % 2 ^ m :=
  (dvd_mod_iff (Nat.pow_dvd_pow 2 ho.le)).mpr h

/-- The buddy, computed on the number modulo a higher power of two. -/
theorem add_xor_sub (h : 2 ^ o ∣ p) : p + (p % 2 ^ m ^^^ 2 ^ o) - p % 2 ^ m = buddy o p := by
  have hparity := mod_two_pow_div_mod_two (p := p) ho
  have hle := mod_le p (2 ^ m)
  obtain ⟨k, hk⟩ := dvd_mod_two_pow ho h
  rw [hk, Nat.mul_div_cancel_left _ (Nat.two_pow_pos o)] at hparity
  rw [hk] at hle ⊢
  rw [mul_xor_two_pow, buddy, ← hparity]
  split_ifs with hodd
  · omega
  · have : 2 ^ o * 1 ≤ 2 ^ o * k := mul_le_mul_left _ (by omega)
    omega

theorem ldiff_mod_two_pow (h : 2 ^ o ∣ p) :
    Nat.ldiff (p % 2 ^ m) (2 ^ o) = p % 2 ^ m - p % 2 ^ (o + 1) := by
  obtain ⟨k, hk⟩ := dvd_mod_two_pow ho h
  rw [hk, ldiff_mul_two_pow, ← hk, parent_eq_sub, mod_mod_of_dvd _ (pow_dvd_pow 2 ho)]

theorem mod_two_pow_succ_le : p % 2 ^ (o + 1) ≤ p % 2 ^ m := by
  rw [← mod_mod_of_dvd p (pow_dvd_pow 2 ho)]
  exact mod_le _ _

/-- The parent, computed on the number modulo a higher power of two. -/
theorem add_ldiff_sub (h : 2 ^ o ∣ p) :
    p + Nat.ldiff (p % 2 ^ m) (2 ^ o) - p % 2 ^ m = parent o p := by
  have hle := mod_le p (2 ^ m)
  have hle' := mod_two_pow_succ_le (p := p) ho
  rw [ldiff_mod_two_pow ho h, parent_eq_sub]
  omega

/-- Clearing bit `o` modulo a higher power of two gives the parent modulo that power. -/
theorem ldiff_eq_parent_mod (h : 2 ^ o ∣ p) :
    Nat.ldiff (p % 2 ^ m) (2 ^ o) = parent o p % 2 ^ m := by
  have hle := mod_two_pow_succ_le (p := p) ho
  have hsplit : p - p % 2 ^ (o + 1) = 2 ^ m * (p / 2 ^ m) + (p % 2 ^ m - p % 2 ^ (o + 1)) := by
    have := div_add_mod p (2 ^ m)
    omega
  rw [ldiff_mod_two_pow ho h, parent_eq_sub, hsplit, mul_add_mod]
  exact (mod_eq_of_lt (by omega)).symm

end

end Bits

end Dyadic
