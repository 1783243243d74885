import Mathlib.Algebra.Order.Ring.Nat
import Mathlib.Data.List.DropRight

/-!
# Buffers

A buffer is a list of fixed length; `splice` copies values into it at a position, and `slice` reads
a range of it. Numbers stand in a buffer as bytes, the lowest first.
-/

namespace AndroidKernel.Bytes

open List

variable {α : Type*} {xs ys : List α} {pos a n : ℕ}

/-- The buffer with `ys` copied to the position `pos`. -/
def splice (xs : List α) (pos : ℕ) (ys : List α) : List α :=
  xs.take pos ++ ys ++ xs.drop (pos + ys.length)

/-- The `n` values from the position `a` on. -/
def slice (xs : List α) (a n : ℕ) : List α := (xs.drop a).take n

theorem length_splice (xs ys : List α) (pos : ℕ) (h : pos + ys.length ≤ xs.length) :
    (splice xs pos ys).length = xs.length := by
  simp only [splice, length_append, length_take, length_drop]
  omega

theorem getElem?_splice (h : pos ≤ xs.length) (i : ℕ) : (splice xs pos ys)[i]? =
    if i < pos then xs[i]? else if i < pos + ys.length then ys[i - pos]? else xs[i]? := by
  grind [splice]

theorem getElem?_slice (i : ℕ) : (slice xs a n)[i]? = if i < n then xs[a + i]? else none := by
  rw [slice, List.getElem?_take, List.getElem?_drop]

/-- Up to the end of the copy. -/
theorem take_splice (xs ys : List α) (pos : ℕ) (h : pos ≤ xs.length) :
    (splice xs pos ys).take (pos + ys.length) = xs.take pos ++ ys := by
  apply take_left'
  simp only [length_append, length_take]
  omega

/-- Behind the copy. -/
theorem drop_splice (xs ys : List α) (pos : ℕ) (h : pos ≤ xs.length) :
    (splice xs pos ys).drop (pos + ys.length) = xs.drop (pos + ys.length) := by
  apply drop_left'
  simp only [length_append, length_take]
  omega

/-- A range that the copy does not touch. -/
theorem slice_splice_of_disjoint (h : pos ≤ xs.length)
    (hdisj : a + n ≤ pos ∨ pos + ys.length ≤ a) : slice (splice xs pos ys) a n = slice xs a n := by
  apply ext_getElem?
  intro i
  rw [getElem?_slice, getElem?_slice, getElem?_splice h]
  grind

/-- What stands between two parts is read back. -/
theorem slice_append (xs ys zs : List α) : slice (xs ++ (ys ++ zs)) xs.length ys.length = ys := by
  rw [slice, drop_left, take_left]

/-- What stands between two parts is replaced. -/
theorem splice_append {zs ws : List α} (h : ws.length = ys.length) :
    splice (xs ++ (ys ++ zs)) xs.length ws = xs ++ (ws ++ zs) := by
  rw [splice, h, take_left, ← drop_drop, drop_left, drop_left, append_assoc]

/-- A range copied to its own place changes nothing. -/
theorem splice_slice : splice xs a (slice xs a n) = xs := by
  have hrest : slice xs a n ++ (xs.drop a).drop (slice xs a n).length = xs.drop a :=
    List.prefix_iff_eq_append.mp ( take_prefix n (xs.drop a))
  rw [splice, append_assoc, ← drop_drop, hrest, take_append_drop]

/-- The last values of a list that goes on depend only on the last values before. -/
theorem rtake_append_rtake : (xs.rtake n ++ ys).rtake n = (xs ++ ys).rtake n := by
  simp only [rtake, length_append, length_drop]
  rw [← drop_append_of_le_length (Nat.sub_le _ _), drop_drop]
  congr 1
  omega

/-- Of what is added to a list, only the last values count among its last values. -/
theorem rtake_append_of_rtake : (xs ++ ys.rtake n).rtake n = (xs ++ ys).rtake n := by
  by_cases h : ys.length ≤ n
  · rw [show ys.rtake n = ys by rw [rtake, Nat.sub_eq_zero_of_le h, drop_zero]]
  · have hlen : (ys.drop (ys.length - n)).length = n := by
      rw [length_drop]
      omega
    have hnil : xs.drop ((xs ++ ys).length - n) = [] :=
      drop_eq_nil_of_le (by rw [length_append]; omega)
    simp only [rtake]
    rw [drop_left' (by rw [length_append, hlen]; omega), drop_append, hnil, nil_append]
    congr 1
    rw [length_append]
    omega

section Numbers

/-- A number as `n` bytes, the lowest first. -/
def leBytes : ℕ → ℕ → List UInt8
  | 0, _ => []
  | n + 1, x => UInt8.ofNat x :: leBytes n (x / 256)

/-- A number from its bytes. -/
def ofLeBytes : List UInt8 → ℕ
  | [] => 0
  | x :: xs => x.toNat + 256 * ofLeBytes xs

theorem leBytes_length (n x : ℕ) : (leBytes n x).length = n := by
  induction n generalizing x with
  | zero => rfl
  | succ n ih => rw [leBytes, length_cons, ih]

/-- A number is read back from its bytes. -/
theorem ofLeBytes_leBytes {x : ℕ} (hx : x < 256 ^ n) : ofLeBytes (leBytes n x) = x := by
  induction n generalizing x with
  | zero =>
    rw [Nat.pow_zero] at hx
    simp only [leBytes, ofLeBytes]
    omega
  | succ n ih =>
    rw [leBytes, ofLeBytes, ih (Nat.div_lt_of_lt_mul (by rwa [← Nat.pow_succ']))]
    have hbyte : (UInt8.ofNat x).toNat = x % 256 := UInt8.toNat_ofNat'
    omega

end Numbers

end AndroidKernel.Bytes
