import AndroidKernel.Locks.Posix
import Mathlib.Data.List.Basic

/-!
# The locks of one owner as a map of offsets

The locks of an owner are in order, apart from each other, and two of one type do not touch. Such a
list is a function from offsets to lock types; here is what widening, removing and trimming a lock
does to it once a request is painted over it.
-/

namespace AndroidKernel.Locks

open List

variable {ω : Type} {S U V P Q : List (FileLock ω)} {l m c r fl : FileLock ω} {t : LockType} {x : ℤ}

/-- `l` ends before `m` starts, and does not touch it when both have the same type. -/
def Before (l m : FileLock ω) : Prop := l.stop < m.start ∧ (l.type = m.type → l.stop + 1 < m.start)

/-- What a lock in the list is. -/
structure Proper (l : FileLock ω) : Prop where
  nonneg : 0 ≤ l.start
  le : l.start ≤ l.stop
  le_max : l.stop ≤ offsetMax
  locked : l.type ≠ .unlck

/-- The locks of one owner. -/
structure Tidy (S : List (FileLock ω)) : Prop where
  ordered : S.Pairwise Before
  proper : ∀ l ∈ S, Proper l

/-- Some lock of the list has the type `t` at the offset `x`. -/
def Covers (S : List (FileLock ω)) (x : ℤ) (t : LockType) : Prop :=
  ∃ l ∈ S, l.type = t ∧ l.start ≤ x ∧ x ≤ l.stop

/-- The list with the interval of `c` painted over in its type. -/
def Painted (c : FileLock ω) (S : List (FileLock ω)) (x : ℤ) (t : LockType) : Prop :=
  if c.start ≤ x ∧ x ≤ c.stop then t = c.type else Covers S x t

theorem painted_of_mem (hin : c.start ≤ x ∧ x ≤ c.stop) : Painted c S x t ↔ t = c.type := by
  rw [Painted, if_pos hin]

theorem painted_of_not_mem (hin : ¬(c.start ≤ x ∧ x ≤ c.stop)) :
    Painted c S x t ↔ Covers S x t := by
  rw [Painted, if_neg hin]

theorem Before.trans_of_le (hlm : Before l m) (hmr : Before m r) (hm : m.start ≤ m.stop) :
    Before l r := by
  have h₁ := hlm.1
  have h₂ := hmr.1
  exact ⟨by omega, fun _ => by omega⟩

theorem Tidy.sublist (hS : Tidy S) (hsub : U.Sublist S) : Tidy U :=
  ⟨hS.ordered.sublist hsub, fun l hl => hS.proper l (hsub.subset hl)⟩

theorem Tidy.append (hU : Tidy U) (hV : Tidy V) (hUV : ∀ u ∈ U, ∀ v ∈ V, Before u v) :
    Tidy (U ++ V) := by
  refine ⟨pairwise_append.mpr ⟨hU.ordered, hV.ordered, hUV⟩, fun l hl => ?_⟩
  rcases mem_append.mp hl with h | h
  · exact hU.proper l h
  · exact hV.proper l h

theorem Tidy.nil : Tidy ([] : List (FileLock ω)) := ⟨Pairwise.nil, by simp⟩

theorem Tidy.singleton (hl : Proper l) : Tidy [l] := ⟨pairwise_singleton _ _, by simpa⟩

theorem Tidy.before (hS : Tidy (U ++ V)) : ∀ u ∈ U, ∀ v ∈ V, Before u v :=
  (pairwise_append.mp hS.ordered).2.2

@[simp] theorem covers_append : Covers (U ++ V) x t ↔ Covers U x t ∨ Covers V x t := by
  simp [Covers, or_and_right, exists_or]

@[simp] theorem covers_cons :
    Covers (l :: S) x t ↔ (l.type = t ∧ l.start ≤ x ∧ x ≤ l.stop) ∨ Covers S x t := by
  simp [Covers]

theorem not_covers_of_before (hU : ∀ u ∈ U, Before u c) (hx : c.start ≤ x) : ¬Covers U x t := by
  rintro ⟨u, hu, -, -, hstop⟩
  have := (hU u hu).1
  omega

theorem not_covers_of_after (hV : ∀ v ∈ V, Before c v) (hx : x ≤ c.stop) : ¬Covers V x t := by
  rintro ⟨v, hv, -, hstart, -⟩
  have := (hV v hv).1
  omega

/-- A lock of the request's type that meets or touches it can be taken into the request. -/
theorem painted_merge {c' : FileLock ω} (hS : Tidy (U ++ fl :: V)) (htype : fl.type = c.type)
    (hc : c.start ≤ c.stop) (hlow : ¬fl.stop < c.start - 1) (hhigh : ¬fl.start - 1 > c.stop)
    (htype' : c'.type = c.type) (hstart : c'.start = min fl.start c.start)
    (hstop : c'.stop = max fl.stop c.stop) :
    Painted c' (U ++ V) x t ↔ Painted c (U ++ fl :: V) x t := by
  have hU : ∀ u ∈ U, Before u fl := fun u hu => hS.before u hu fl (by simp)
  have hV : ∀ v ∈ V, Before fl v := (pairwise_cons.mp (pairwise_append.mp hS.ordered).2.1).1
  simp only [Painted, hstart, hstop, htype']
  by_cases hin : c.start ≤ x ∧ x ≤ c.stop
  · rw [if_pos hin, if_pos (by omega)]
  rw [if_neg hin]
  by_cases hinfl : fl.start ≤ x ∧ x ≤ fl.stop
  · rw [if_pos (by omega)]
    simp only [covers_append, covers_cons, not_covers_of_before hU hinfl.1,
      not_covers_of_after hV hinfl.2, hinfl, htype, and_true, or_false, false_or]
    exact eq_comm
  · rw [if_neg (by omega)]
    simp [covers_append, covers_cons, hinfl]

theorem painted_congr (h : ¬(c.start ≤ x ∧ x ≤ c.stop) → (Covers P x t ↔ Covers Q x t)) :
    Painted c P x t ↔ Painted c Q x t := by
  simp only [Painted]
  split_ifs with hin
  · rfl
  · exact h hin

theorem painted_covered (hlow : c.start ≤ fl.start) (hhigh : fl.stop ≤ c.stop) :
    Painted c (U ++ V) x t ↔ Painted c (U ++ fl :: V) x t := by
  refine painted_congr fun hin => ?_
  have hinfl : ¬(fl.start ≤ x ∧ x ≤ fl.stop) := by omega
  simp [covers_append, covers_cons, hinfl]

theorem painted_trim_left (hlow : c.start ≤ l.stop) (hhigh : l.stop ≤ c.stop) :
    Painted c (U ++ { l with stop := c.start - 1 } :: V) x t ↔ Painted c (U ++ l :: V) x t := by
  refine painted_congr fun hin => ?_
  have hiff : (l.start ≤ x ∧ x ≤ c.start - 1) ↔ (l.start ≤ x ∧ x ≤ l.stop) := by omega
  simp only [covers_append, covers_cons, hiff]

theorem painted_trim_right (hlow : c.start ≤ r.start) (hhigh : r.start ≤ c.stop) :
    Painted c (U ++ { r with start := c.stop + 1 } :: V) x t ↔ Painted c (U ++ r :: V) x t := by
  refine painted_congr fun hin => ?_
  have hiff : (c.stop + 1 ≤ x ∧ x ≤ r.stop) ↔ (r.start ≤ x ∧ x ≤ r.stop) := by omega
  simp only [covers_append, covers_cons, hiff]

theorem painted_split (hlow : r.start < c.start) (hc : c.start ≤ c.stop) (hhigh : c.stop < r.stop) :
    Painted c (U ++ { r with stop := c.start - 1 } :: { r with start := c.stop + 1 } :: V) x t ↔
      Painted c (U ++ r :: V) x t := by
  refine painted_congr fun hin => ?_
  have hiff : (r.start ≤ x ∧ x ≤ r.stop) ↔
      (r.start ≤ x ∧ x ≤ c.start - 1) ∨ (c.stop + 1 ≤ x ∧ x ≤ r.stop) := by omega
  simp only [covers_append, covers_cons, hiff, and_or_left, or_assoc]

section

variable (hUc : ∀ u ∈ U, Before u c) (hcV : ∀ v ∈ V, Before c v)
include hUc hcV

theorem Tidy.insert (hU : Tidy U) (hV : Tidy V) (hc : Proper c) : Tidy (U ++ c :: V) := by
  have hcV' : Tidy (c :: V) :=
    Tidy.append (Tidy.singleton hc) hV fun u hu => by simpa [mem_singleton.mp hu] using hcV
  refine hU.append hcV' fun u hu v hv => ?_
  rcases mem_cons.mp hv with rfl | hv
  · exact hUc u hu
  · exact (hUc u hu).trans_of_le (hcV v hv) hc.le

theorem Tidy.join (hU : Tidy U) (hV : Tidy V) (hc : c.start ≤ c.stop) : Tidy (U ++ V) :=
  hU.append hV fun u hu v hv => (hUc u hu).trans_of_le (hcV v hv) hc

/-- With the request between the locks below and above it, the list shows what was painted. -/
theorem covers_insert : Covers (U ++ c :: V) x t ↔ Painted c (U ++ V) x t := by
  simp only [Painted, covers_append, covers_cons]
  by_cases hin : c.start ≤ x ∧ x ≤ c.stop
  · simp only [not_covers_of_before hUc hin.1, not_covers_of_after hcV hin.2, hin, and_true,
      or_false, false_or, if_true]
    exact eq_comm
  · simp [hin]

theorem covers_join (hc : c.type = .unlck) (ht : t ≠ .unlck) :
    Covers (U ++ V) x t ↔ Painted c (U ++ V) x t := by
  simp only [Painted, covers_append]
  by_cases hin : c.start ≤ x ∧ x ≤ c.stop
  · simp [not_covers_of_before hUc hin.1, not_covers_of_after hcV hin.2, hc, ht]
  · simp only [if_neg hin]

end

theorem Tidy.covers_unique {t' : LockType} (hS : Tidy S) (h : Covers S x t) (h' : Covers S x t') :
    t = t' := by
  obtain ⟨l, hl, rfl, hl₁, hl₂⟩ := h
  obtain ⟨m, hm, rfl, hm₁, hm₂⟩ := h'
  by_contra hne
  have hlm : l ≠ m := fun h => hne (h ▸ rfl)
  obtain ⟨s, u, rfl⟩ := mem_iff_append.mp hl
  rcases mem_append.mp hm with hm | hm
  · have := (hS.before m hm l (by simp)).1
    omega
  · rcases mem_cons.mp hm with rfl | hm
    · exact hlm rfl
    · have := ((pairwise_cons.mp (pairwise_append.mp hS.ordered).2.1).1 m hm).1
      omega

end AndroidKernel.Locks
