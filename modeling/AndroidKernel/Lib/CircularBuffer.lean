import Mathlib.Data.List.Range

/-!
# Circular byte buffers

A buffer of `size` cells is read and written at offsets that wrap once at its
end. The two-part copy used by such buffers (up to the end, then from the start)
is described cell by cell, so that a window of the buffer can be compared before
and after a write without any modular arithmetic.
-/

namespace CircularBuffer

open List

variable {α : Type} {buf : ℕ → α} {src : List α} {i j n off size : ℕ}

/-- The physical cell `n` positions after the start, for `n` below `2 * size`. -/
def wrap (size n : ℕ) : ℕ := if n < size then n else n - size

/-- Copy `src` over the cells starting at `off`, without wrapping. -/
def memcpy (buf : ℕ → α) (off : ℕ) (src : List α) : ℕ → α :=
  fun i => if off ≤ i then (src[i - off]?).getD (buf i) else buf i

/-- The `n` cells that follow `off` in circular order. -/
def window (buf : ℕ → α) (size off n : ℕ) : List α :=
  (List.range n).map fun i => buf (wrap size (off + i))

/-- The two-part copy: up to the end of the buffer, then the rest from its start. -/
def store (buf : ℕ → α) (size off : ℕ) (src : List α) : ℕ → α :=
  let len := min src.length (size - off)
  let buf := memcpy buf off (src.take len)
  if src.length ≠ len then memcpy buf 0 (src.drop len) else buf

/-- The two-part read that mirrors `store`. -/
def load (buf : ℕ → α) (size off n : ℕ) : List α :=
  let len := min n (size - off)
  let first := (List.range len).map fun i => buf (off + i)
  if n ≠ len then first ++ (List.range (n - len)).map buf else first

/-- Below two turns, wrapping is reduction modulo the size. -/
theorem wrap_eq_mod (hn : n < 2 * size) : wrap size n = n % size := by
  unfold wrap
  split_ifs with h
  · exact (Nat.mod_eq_of_lt h).symm
  · rw [Nat.mod_eq_sub_mod (by omega), Nat.mod_eq_of_lt (by omega)]

/-- A wrapped position is a cell of the buffer. -/
theorem wrap_lt (hn : n < 2 * size) : wrap size n < size := by
  unfold wrap
  split_ifs <;> omega

/-- Wrapping twice along a walk shorter than a turn is wrapping once. -/
theorem wrap_wrap_add {m : ℕ} (hoff : off < size) (hmn : m + n ≤ size) :
    wrap size (wrap size (off + m) + n) = wrap size (off + (m + n)) := by
  unfold wrap
  split_ifs <;> omega

@[simp] theorem window_length (buf : ℕ → α) (size off n : ℕ) :
    (window buf size off n).length = n := by
  simp [window]

/-- The cell at a position of the window. -/
theorem window_getElem? (hi : i < n) :
    (window buf size off n)[i]? = some (buf (wrap size (off + i))) := by
  simp [window, hi]

/-- Two windows agree when their cells do. -/
theorem window_congr {buf' : ℕ → α}
    (h : ∀ i < n, buf (wrap size (off + i)) = buf' (wrap size (off + i))) :
    window buf size off n = window buf' size off n := by
  apply map_congr_left
  intro i hi
  exact h i (List.mem_range.mp hi)

/-- A window is its first part followed by the window that starts where it ends. -/
theorem window_add {m : ℕ} (hoff : off < size) (hmn : m + n ≤ size) : window buf size off (m + n) =
      window buf size off m ++ window buf size (wrap size (off + m)) n := by
  unfold window
  rw [range_add, map_append, map_map]
  congr 1
  apply map_congr_left
  intro i hi
  have hi' : i < n := List.mem_range.mp hi
  simp only [Function.comp_apply]
  rw [wrap_wrap_add hoff (by omega)]

/-- The two-part read returns the window at its offset. -/
theorem load_eq_window (hoff : off < size) (hn : n ≤ size) :
    load buf size off n = window buf size off n := by
  have hfirst : (List.range (min n (size - off))).map (fun i => buf (off + i)) =
      window buf size off (min n (size - off)) := by
    apply map_congr_left
    intro i hi
    have hi' := List.mem_range.mp hi
    simp only [wrap, if_pos (show off + i < size by omega)]
  unfold load
  simp only [hfirst]
  split_ifs with hsplit
  · have hstart : wrap size (off + min n (size - off)) = 0 := by
      unfold wrap
      split_ifs <;> omega
    have hrest : (List.range (n - min n (size - off))).map buf =
        window buf size 0 (n - min n (size - off)) := by
      apply map_congr_left
      intro i hi
      have hi' := List.mem_range.mp hi
      simp [wrap, if_pos (show i < size by omega)]
    rw [hrest, ← hstart, ← window_add hoff (by omega)]
    congr 1
    omega
  · congr 1
    omega

theorem memcpy_of_lt (h : i < off) : memcpy buf off src i = buf i := by
  simp [memcpy, Nat.not_le.mpr h]

theorem memcpy_of_ge (h : off + src.length ≤ i) : memcpy buf off src i = buf i := by
  have hnone : src[i - off]? = none := by
    rw [List.getElem?_eq_none_iff]
    omega
  simp [memcpy, hnone]

theorem memcpy_of_mem (hj : j < src.length) : memcpy buf off src (off + j) = src[j] := by
  simp [memcpy, hj]

/-- A copy that ends before the end of the buffer is a plain copy. -/
theorem store_eq_memcpy (h : src.length ≤ size - off) :
    store buf size off src = memcpy buf off src := by
  simp [store, Nat.min_eq_left h]

/-- Copying up to the end and then from the start is one circular copy. -/
theorem memcpy_memcpy_eq_store {first rest : List α} (h : first.length = size - off) :
    memcpy (memcpy buf off first) 0 rest = store buf size off (first ++ rest) := by
  have hmin : min (first ++ rest).length (size - off) = first.length := by
    rw [length_append]
    omega
  unfold store
  simp only [hmin, take_left, drop_left]
  split_ifs with hrest
  · rfl
  · have hnil : rest = [] := by simpa using hrest
    subst hnil
    funext i
    simp [memcpy]

section

variable (hoff : off < size)
include hoff

/-- The copied cells, counted from the place of the copy, hold the source. -/
theorem store_of_lt (hlen : src.length ≤ size) (hj : j < src.length) :
    store buf size off src (wrap size (off + j)) = src[j] := by
  unfold store wrap
  by_cases hend : off + j < size
  · have htake : j < (src.take (min src.length (size - off))).length := by simp; omega
    have hfirst : memcpy buf off (src.take (min src.length (size - off))) (off + j) = src[j] := by
      rw [memcpy_of_mem htake, getElem_take]
    simp only [hend, if_true]
    split_ifs with hsplit
    · rw [memcpy_of_ge (by simp; omega), hfirst]
    · exact hfirst
  · have hsplit : src.length ≠ min src.length (size - off) := by omega
    have hdrop : off + j - size < (src.drop (min src.length (size - off))).length := by simp; omega
    simp only [hend, if_false, hsplit, ne_eq, not_false_eq_true, if_true]
    conv_lhs => rw [← Nat.zero_add (off + j - size)]
    rw [memcpy_of_mem hdrop, getElem_drop]
    congr 1
    omega

/-- The cells past the copied ones, up to a whole turn, are left as they were. -/
theorem store_of_ge (hlen : src.length ≤ j) (hj : j < size) :
    store buf size off src (wrap size (off + j)) = buf (wrap size (off + j)) := by
  unfold store wrap
  by_cases hend : off + j < size
  · have hwhole : ¬ src.length ≠ min src.length (size - off) := by omega
    simp only [hend, if_true, hwhole, if_false]
    exact memcpy_of_ge (by simp; omega)
  · simp only [hend, if_false]
    split_ifs with hsplit
    · rw [memcpy_of_ge (by simp; omega), memcpy_of_lt (by omega)]
    · exact memcpy_of_lt (by omega)

/-- A copy placed after a window that leaves room for it does not disturb the window. -/
theorem window_store_before (hroom : n + src.length ≤ size) :
    window (store buf size (wrap size (off + n)) src) size off n = window buf size off n := by
  rcases Nat.eq_zero_or_pos n with rfl | hn
  · rfl
  apply window_congr
  intro i hi
  have hpos : wrap size (off + i) = wrap size (wrap size (off + n) + (size - n + i)) := by
    unfold wrap
    split_ifs <;> omega
  rw [hpos]
  exact store_of_ge (wrap_lt (by omega)) (by omega) (by omega)

/-- A copy placed at the end of a window extends the window by the source. -/
theorem window_store_append (hroom : n + src.length ≤ size) :
    window (store buf size (wrap size (off + n)) src) size off (n + src.length) =
      window buf size off n ++ src := by
  rcases Nat.eq_or_lt_of_le (Nat.le_of_add_right_le hroom) with hfull | hn
  · have hnil : src = [] := eq_nil_of_length_eq_zero (by omega)
    subst hnil
    simpa using window_store_before hoff hroom
  rw [window_add hoff hroom, window_store_before hoff hroom]
  congr 1
  apply ext_getElem (by simp)
  intro j hj hj'
  simp only [window, getElem_map, getElem_range]
  exact store_of_lt (wrap_lt (by omega)) (by omega) hj'

end

end CircularBuffer
