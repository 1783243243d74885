import Mathlib.Algebra.Order.Ring.Nat
import Mathlib.Data.List.Basic

/-!
# Segments of a range

A list of segments, each with an offset and some data, that stand one behind the other within a
range. They fill the range exactly when their lengths add up to its length, and their data put
together is then that of the range.
-/

namespace AndroidKernel

open List

variable {σ α : Type*} (off : σ → ℕ) (dat : σ → List α)

/-- The segments are not empty and stand in order, and without overlap, from `a` to `b`. -/
def Within : ℕ → ℕ → List σ → Prop
  | a, b, [] => a ≤ b
  | a, b, s :: l => a ≤ off s ∧ dat s ≠ [] ∧ Within (off s + (dat s).length) b l

/-- The end of the last segment, or where they begin. -/
def lastEnd : ℕ → List σ → ℕ
  | a, [] => a
  | _, s :: l => lastEnd (off s + (dat s).length) l

/-- The number of values in the segments. -/
def total (l : List σ) : ℕ := (l.map fun s => (dat s).length).sum

variable {off dat} {a b c : ℕ} {s : σ} {l l₁ l₂ : List σ}

theorem total_nil : total dat ([] : List σ) = 0 := rfl

theorem total_cons : total dat (s :: l) = (dat s).length + total dat l := sum_cons

theorem total_append : total dat (l₁ ++ l₂) = total dat l₁ + total dat l₂ := by
  rw [total, map_append, sum_append]
  rfl

theorem lastEnd_append :
    lastEnd off dat a (l₁ ++ l₂) = lastEnd off dat (lastEnd off dat a l₁) l₂ := by
  induction l₁ generalizing a with
  | nil => rfl
  | cons s l₁ ih => exact ih

namespace Within

theorem le (h : Within off dat a b l) : a ≤ b := by
  induction l generalizing a with
  | nil => exact h
  | cons s l ih =>
    have := ih h.2.2
    have := h.1
    omega

theorem mono (h : Within off dat a b l) {a' b' : ℕ} (ha : a' ≤ a) (hb : b ≤ b') :
    Within off dat a' b' l := by
  induction l generalizing a a' with
  | nil => exact ha.trans (h.trans hb)
  | cons s l ih => exact ⟨ha.trans h.1, h.2.1, ih h.2.2 le_rfl⟩

/-- Two parts of the segments, split where the first one ends. -/
theorem append_iff : Within off dat a b (l₁ ++ l₂) ↔
    Within off dat a (lastEnd off dat a l₁) l₁ ∧ Within off dat (lastEnd off dat a l₁) b l₂ := by
  induction l₁ generalizing a with
  | nil => exact ⟨fun h => ⟨le_rfl, h⟩, fun h => h.2⟩
  | cons s l₁ ih =>
    rw [cons_append]
    simp only [Within, lastEnd, ih]
    tauto

section

variable (h : Within off dat a b l)
include h

/-- The segments are in order, and no two of them overlap. -/
theorem pairwise : l.Pairwise fun s t => off s + (dat s).length ≤ off t := by
  induction l generalizing a with
  | nil => exact .nil
  | cons s l ih =>
    refine List.pairwise_cons.mpr ⟨fun t ht => ?_, ih h.2.2⟩
    obtain ⟨l₁, l₂, rfl⟩ := append_of_mem ht
    obtain ⟨h₁, h₂⟩ := append_iff.mp h.2.2
    exact h₁.le.trans h₂.1

/-- Every segment lies in the range. -/
theorem mem (hs : s ∈ l) : a ≤ off s ∧ dat s ≠ [] ∧ off s + (dat s).length ≤ b := by
  obtain ⟨l₁, l₂, rfl⟩ := append_of_mem hs
  obtain ⟨h₁, h₂⟩ := append_iff.mp h
  exact ⟨h₁.le.trans h₂.1, h₂.2.1, h₂.2.2.le⟩

theorem add_total_le : a + total dat l ≤ b := by
  induction l generalizing a with
  | nil => exact h
  | cons s l ih =>
    have := ih h.2.2
    have := h.1
    rw [total_cons]
    omega

/-- The segments fill the range exactly when their lengths add up to its length. -/
theorem fills_iff : a + total dat l = b ↔
    ∀ k, a ≤ k → k < b → ∃ s ∈ l, off s ≤ k ∧ k < off s + (dat s).length := by
  induction l generalizing a with
  | nil =>
    rw [total_nil, Nat.add_zero]
    refine ⟨fun heq k hk hk' => by omega, fun hall => ?_⟩
    by_contra hne
    obtain ⟨s, hs, -⟩ := hall a le_rfl (Nat.lt_of_le_of_ne h hne)
    exact not_mem_nil hs
  | cons s l ih =>
    have hih := ih h.2.2
    have hle := h.2.2.add_total_le
    rw [total_cons]
    constructor
    · intro heq k hk hk'
      have hoff := h.1
      by_cases hks : k < off s + (dat s).length
      · exact ⟨s, mem_cons_self, by omega, hks⟩
      · obtain ⟨t, ht, hkt⟩ := hih.mp (by omega) k (Nat.le_of_not_lt hks) hk'
        exact ⟨t, mem_cons_of_mem _ ht, hkt⟩
    · intro hall
      have hfirst : off s = a := by
        obtain ⟨t, ht, hta, -⟩ := hall a le_rfl (by
          have := h.2.2.le
          have := length_pos_of_ne_nil h.2.1
          have := h.1
          omega)
        rcases List.mem_cons.mp ht with rfl | ht
        · exact Nat.le_antisymm hta h.1
        · have := (h.2.2.mem ht).1
          have := length_pos_of_ne_nil h.2.1
          have := h.1
          omega
      have hrest := hih.mpr fun k hk hk' => by
        obtain ⟨t, ht, hkt⟩ := hall k (by omega) hk'
        rcases List.mem_cons.mp ht with rfl | ht
        · omega
        · exact ⟨t, ht, hkt⟩
      omega

/-- What stands in the data put together stands at its place in a segment. -/
theorem getElem?_flatMap (hfull : a + total dat l = b) {k : ℕ} {x : α}
    (hk : (l.flatMap dat)[k]? = some x) :
    ∃ s ∈ l, off s ≤ a + k ∧ (dat s)[a + k - off s]? = some x := by
  induction l generalizing a k with
  | nil => simp at hk
  | cons s l ih =>
    have hle := h.2.2.add_total_le
    have hoff := h.1
    rw [total_cons] at hfull
    rw [flatMap_cons, List.getElem?_append] at hk
    split_ifs at hk with hlt
    · refine ⟨s, mem_cons_self, by omega, ?_⟩
      rwa [show a + k - off s = k by omega]
    · obtain ⟨t, ht, htk, hx⟩ := ih h.2.2 (by omega) hk
      refine ⟨t, mem_cons_of_mem _ ht, by omega, ?_⟩
      rwa [show a + k - off t = off s + (dat s).length + (k - (dat s).length) - off t by omega]

end

end Within

theorem length_flatMap_eq_total : (l.flatMap dat).length = total dat l := by
  rw [length_flatMap, total]

end AndroidKernel
