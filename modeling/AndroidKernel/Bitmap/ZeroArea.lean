import Mathlib.Data.Nat.Bitwise
import Mathlib.Order.Bounds.Defs

/-!
# `bitmap_find_next_zero_area` of `lib/bitmap.c`

The search for a run of zero bits from an aligned index on, in a map that is given by its bits. An
`unsigned long` has 32 bits.
-/

namespace AndroidKernel.Bitmap

open List Nat

/-- `find_next_bit` -/
def findNextBit (map : ℕ → Bool) (size offset : ℕ) : ℕ :=
  if size ≤ offset then size else offset + (range' offset (size - offset)).findIdx map

/-- `find_next_zero_bit` -/
def findNextZeroBit (map : ℕ → Bool) : ℕ → ℕ → ℕ := findNextBit fun i => !map i

/-- `__ALIGN_MASK` -/
def alignMask (x mask : ℕ) : ℕ := (x + mask) % 2 ^ 32 &&& (2 ^ 32 - 1 - mask)

/-- `bitmap_find_next_zero_area`, for a number of rounds from the label `again`. -/
def bitmapFindNextZeroArea (map : ℕ → Bool) (size nr mask : ℕ) : ℕ → ℕ → Option ℕ
  | 0, _ => none
  | rounds + 1, start =>
    let index := alignMask (findNextZeroBit map size start) mask
    let stop := (index + nr) % 2 ^ 32
    if size < stop then some stop
    else
      let i := findNextBit map stop index
      if i < stop then bitmapFindNextZeroArea map size nr mask rounds ((i + 1) % 2 ^ 32)
      else some index

/-- What the search is for: an aligned index from `start` on, with `nr` zero bits of the map. -/
structure FreeArea (map : ℕ → Bool) (size nr align start i : ℕ) : Prop where
  start_le : start ≤ i
  aligned : align ∣ i
  zero : ∀ j, i ≤ j → j < i + nr → map j = false
  le_size : i + nr ≤ size

/-- The least aligned index from the first zero bit on, or from the end of the map on. -/
def IsIndex (map : ℕ → Bool) (size align start index : ℕ) : Prop :=
  IsLeast {m | align ∣ m ∧ findNextZeroBit map size start ≤ m} index

/-- The places that a search without bounds on its numbers comes to: from each it goes on behind the
first set bit of the area at the least aligned index, if there is one. -/
inductive Visits (map : ℕ → Bool) (size nr align start : ℕ) : ℕ → Prop
  | start : Visits map size nr align start start
  | again {a index i : ℕ} (h : Visits map size nr align start a)
      (hindex : IsIndex map size align a index) (hle : index ≤ i) (hlt : i < index + nr)
      (hset : map i = true) (hfirst : ∀ j, index ≤ j → j < i → map j = false)
      (hsize : index + nr ≤ size) : Visits map size nr align start (i + 1)

/-- No area that the search looks at ends behind `2 ^ 32`. -/
def NoWrap (map : ℕ → Bool) (size nr align start : ℕ) : Prop :=
  ∀ a index, Visits map size nr align start a → IsIndex map size align a index →
    index + nr < 2 ^ 32

variable {map : ℕ → Bool} {size start nr k : ℕ}

/-- `find_next_bit` answers with the first set bit from the offset on, or with the size. -/
theorem findNextBit_spec (map : ℕ → Bool) (size offset : ℕ) : findNextBit map size offset ≤ size ∧
      (∀ j, offset ≤ j → j < findNextBit map size offset → map j = false) ∧
      (findNextBit map size offset < size →
        offset ≤ findNextBit map size offset ∧ map (findNextBit map size offset) = true) := by
  rw [findNextBit]
  split_ifs with h
  · exact ⟨le_rfl, fun j hj hj' => absurd hj' (h.trans hj).not_gt, fun h => absurd h (lt_irrefl _)⟩
  have hlen : (range' offset (size - offset)).length = size - offset := length_range'
  have hget : ∀ i (h : i < (range' offset (size - offset)).length),
      (range' offset (size - offset))[i] = offset + i := by simp
  generalize range' offset (size - offset) = l at *
  have hle : l.findIdx map ≤ l.length := findIdx_le_length
  refine ⟨by omega, fun j hj hj' => ?_, fun hlt => ⟨le_add_right _ _, ?_⟩⟩
  · have hskipped := not_of_lt_findIdx (by omega : j - offset < l.findIdx map)
    rwa [hget, Nat.add_sub_cancel' hj] at hskipped
  · have hfound := findIdx_getElem (w := (by omega : l.findIdx map < l.length))
    rwa [hget] at hfound

theorem alignMask_eq {x : ℕ} (hx : x + (2 ^ k - 1) < 2 ^ 32) :
    alignMask x (2 ^ k - 1) = (x + (2 ^ k - 1)) / 2 ^ k * 2 ^ k := by
  rw [alignMask, Nat.mod_eq_of_lt hx, Nat.sub_sub, add_comm 1]
  refine eq_of_testBit_eq fun i => ?_
  rw [testBit_and, testBit_two_pow_sub_succ (by omega), testBit_two_pow_sub_one,
    mul_comm, testBit_two_pow_mul, testBit_div_two_pow]
  obtain hi | hi := lt_or_ge i k
  · simp [hi, hi.not_ge]
  · rw [Nat.sub_add_cancel hi]
    obtain h32 | h32 := lt_or_ge i 32
    · simp [hi, hi.not_gt, h32]
    · simp [Nat.testBit_lt_two_pow (hx.trans_le (Nat.pow_le_pow_right Nat.two_pos h32))]

/-- The least multiple of the alignment from `x` on. -/
theorem isLeast_roundUp (x : ℕ) :
    IsLeast {i | 2 ^ k ∣ i ∧ x ≤ i} ((x + (2 ^ k - 1)) / 2 ^ k * 2 ^ k) := by
  have hpow := Nat.two_pow_pos k
  have hdiv := div_add_mod' (x + (2 ^ k - 1)) (2 ^ k)
  have hmod := Nat.mod_lt (x + (2 ^ k - 1)) hpow
  refine ⟨⟨dvd_mul_left _ _, by omega⟩, ?_⟩
  rintro i ⟨⟨c, rfl⟩, hle⟩
  rw [mul_comm]
  refine mul_le_mul_left _ (le_of_lt_succ ?_)
  rw [div_lt_iff_lt_mul hpow, succ_mul, mul_comm c]
  omega

/-- The aligned index is the least multiple of the alignment from `x` on. -/
theorem alignMask_spec {x : ℕ} (hx : x + (2 ^ k - 1) < 2 ^ 32) :
    alignMask x (2 ^ k - 1) ≤ x + (2 ^ k - 1) ∧
      IsLeast {i | 2 ^ k ∣ i ∧ x ≤ i} (alignMask x (2 ^ k - 1)) := by
  rw [alignMask_eq hx]
  exact ⟨div_mul_le_self _ _, isLeast_roundUp x⟩

theorem isIndex_alignMask (map : ℕ → Bool) (size : ℕ)
    (h : findNextZeroBit map size start + (2 ^ k - 1) < 2 ^ 32) :
    IsIndex map size (2 ^ k) start (alignMask (findNextZeroBit map size start) (2 ^ k - 1)) :=
  (alignMask_spec h).2

/-- Without a wrap, the sum with the mask does not wrap either. -/
theorem NoWrap.add_mask_lt (h : NoWrap map size nr (2 ^ k) start) (hk : k ≤ 32) :
    findNextZeroBit map size start + (2 ^ k - 1) < 2 ^ 32 := by
  have hpow := Nat.two_pow_pos k
  by_contra hge
  have hsum := h start _ .start (isLeast_roundUp (findNextZeroBit map size start))
  generalize findNextZeroBit map size start = x at *
  -- `2 ^ 32` is itself aligned
  have hlow : 2 ^ 32 ≤ (x + (2 ^ k - 1)) / 2 ^ k * 2 ^ k := by
    obtain ⟨c, hc⟩ : 2 ^ k ∣ 2 ^ 32 := pow_dvd_pow 2 hk
    rw [hc, mul_comm]
    refine mul_le_mul_right _ ((le_div_iff_mul_le hpow).mpr ?_)
    rw [mul_comm, ← hc]
    omega
  omega

theorem Visits.trans {a b : ℕ} (h : Visits map size nr k start a) (h' : Visits map size nr k a b) :
    Visits map size nr k start b := by
  induction h' with
  | start => exact h
  | again _ hindex hle hlt hset hfirst hsize ih =>
    exact ih.again hindex hle hlt hset hfirst hsize

theorem FreeArea.index_le {i index : ℕ} (h : FreeArea map size nr (2 ^ k) start i) (hnr : 0 < nr)
    (hindex : IsIndex map size (2 ^ k) start index) : index ≤ i := by
  obtain ⟨-, hskipped, -⟩ := findNextBit_spec (fun i => !map i) size start
  refine hindex.2 ⟨h.aligned, le_of_not_gt fun hlt => ?_⟩
  have hset := hskipped i h.start_le hlt
  have hclear := h.zero i le_rfl (by omega)
  simp [hclear] at hset

/-- A set bit too early for an area at `index` starts the search anew behind it. -/
theorem freeArea_succ {align index i : ℕ} (hstart : start ≤ index)
    (hindex : ∀ a, FreeArea map size nr align start a → index ≤ a) (hle : index ≤ i)
    (hlt : i < index + nr) (hset : map i = true) (a : ℕ) :
    FreeArea map size nr align (i + 1) a ↔ FreeArea map size nr align start a := by
  refine ⟨fun h => { h with start_le := by have := h.start_le; omega }, fun h => ?_⟩
  refine { h with start_le := Nat.lt_of_not_le fun hai => ?_ }
  have hclear := h.zero i hai (by have := hindex a h; omega)
  exact Bool.false_ne_true (hclear.symm.trans hset)

/-- As long as no area that it looks at ends behind `2 ^ 32`, the search ends, with the first area
from `start` on if there is one, and else with a value behind the size. -/
theorem bitmapFindNextZeroArea_least {rounds : ℕ} (hrounds : 0 < rounds)
    (hlong : size < rounds + start) (hnr : 0 < nr) (hk : k ≤ 32)
    (hwrap : NoWrap map size nr (2 ^ k) start) :
    ∃ r, bitmapFindNextZeroArea map size nr (2 ^ k - 1) rounds start = some r ∧
      (IsLeast {i | FreeArea map size nr (2 ^ k) start i} r ∨
        size < r ∧ ∀ i, ¬FreeArea map size nr (2 ^ k) start i) := by
  induction rounds generalizing start with
  | zero => exact absurd hrounds (lt_irrefl 0)
  | succ rounds ih =>
    obtain ⟨hzero, -, hzero'⟩ := findNextBit_spec (fun i => !map i) size start
    have hisindex := isIndex_alignMask map size (hwrap.add_mask_lt hk)
    have hsum := hwrap start _ .start hisindex
    have hleast := fun a (h : FreeArea map size nr (2 ^ k) start a) => h.index_le hnr hisindex
    simp only [bitmapFindNextZeroArea]
    rw [← findNextZeroBit] at hzero hzero'
    obtain ⟨haligned, hge⟩ := hisindex.1
    generalize alignMask (findNextZeroBit map size start) (2 ^ k - 1) = index at *
    rw [mod_eq_of_lt hsum]
    by_cases hbehind : size < index + nr
    · refine ⟨_, if_pos hbehind, .inr ⟨hbehind, fun a h => ?_⟩⟩
      have := hleast a h
      have := h.le_size
      omega
    have hstart : start ≤ index := (hzero' (by omega)).1.trans hge
    obtain ⟨-, hclear, hfound⟩ := findNextBit_spec map (index + nr) index
    rw [if_neg hbehind]
    split_ifs with hset
    · obtain ⟨hle, hbit⟩ := hfound hset
      rw [mod_eq_of_lt (by omega)]
      have hvisit : Visits map size nr (2 ^ k) start (findNextBit map (index + nr) index + 1) :=
        .again .start hisindex hle hset hbit hclear (by omega)
      obtain ⟨r, hr, hspec⟩ := @ih (findNextBit map (index + nr) index + 1) (by omega) (by omega)
        fun a index h => hwrap a index (hvisit.trans h)
      simp only [freeArea_succ hstart hleast hle hset hbit] at hspec
      exact ⟨r, hr, hspec⟩
    · refine ⟨_, rfl, .inl ⟨⟨hstart, haligned, fun j hj hj' => ?_, by omega⟩, hleast⟩⟩
      exact hclear j hj (by omega)

/-- A search wraps only if it comes to the end of the map: without a wrap there, there is none. -/
theorem noWrap_of_lt (hsum : size + (2 ^ k - 1) + nr < 2 ^ 32) :
    NoWrap map size nr (2 ^ k) start := by
  intro a index _ hindex
  obtain ⟨hle, -, -⟩ := findNextBit_spec (fun i => !map i) size a
  rw [← findNextZeroBit] at hle
  have hspec := alignMask_spec (x := findNextZeroBit map size a) (k := k) (by omega)
  have := hindex.2 hspec.2.1
  omega

/-- The area of two aligned bits behind the bit 1. -/
theorem bitmapFindNextZeroArea_least_eight : bitmapFindNextZeroArea (· == 1) 8 2 1 9 0 = some 2 ∧
      ∃ r, bitmapFindNextZeroArea (· == 1) 8 2 (2 ^ 1 - 1) 9 0 = some r ∧
        (IsLeast {i | FreeArea (· == 1) 8 2 (2 ^ 1) 0 i} r ∨
          8 < r ∧ ∀ i, ¬FreeArea (· == 1) 8 2 (2 ^ 1) 0 i) :=
  ⟨by decide, bitmapFindNextZeroArea_least (by decide) (by decide) (by decide) (by decide)
    (noWrap_of_lt (by decide))⟩

/-- Behind the last bit of a map of `2 ^ 32 - 1` bits the aligned index wraps: the search answers
with an index before `start`. -/
theorem bitmapFindNextZeroArea_wraps :
    (∀ n, bitmapFindNextZeroArea (· != 0) 4294967295 1 1 (n + 1) 4294967293 = some 0) ∧
      4294967293 + 1 + 1 < 2 ^ 32 ∧ ∀ i, ¬FreeArea (· != 0) 4294967295 1 2 4294967293 i := by
  refine ⟨fun n => by rfl, by decide, ?_⟩
  rintro i ⟨hstart, ⟨c, rfl⟩, hzero, hsize⟩
  have hclear := hzero (2 * c) le_rfl (by omega)
  simp only [bne_eq_false_iff_eq] at hclear
  omega

end AndroidKernel.Bitmap
