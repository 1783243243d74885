import AndroidKernel.Ipc.SemRuns

/-!
# Undo adjustments

What a list of operations does to the values and to the adjustments of its process. Every operation
with `SEM_UNDO` is checked against the adjustment before the list; so a list with several of them on
one semaphore can leave the range of a `short`, and then the adjustment wraps.
-/

namespace AndroidKernel.Ipc

open AndroidKernel.Ipc.Core Sembuf SemArray

section Applied

variable {adj v : ℕ → ℤ} {sops done : List Sembuf}

/-- The sum of all operations on a semaphore. -/
def sumOps (n : ℕ) (sops : List Sembuf) : ℤ := total (fun _ => true) n sops

theorem update_add_sumOps (v : ℕ → ℤ) (sop : Sembuf) (sops : List Sembuf) :
    (fun n => Function.update v sop.semNum (v sop.semNum + sop.semOp) n + sumOps n sops) =
      fun n => v n + sumOps n (sop :: sops) := by
  funext n
  rw [sumOps, sumOps, total_cons]
  by_cases hn : sop.semNum = n
  · subst hn
    simp [add_assoc]
  · simp [hn, Function.update_of_ne (Ne.symm hn)]

theorem tryLoop_sumOps (h : (tryLoop adj v sops done).1 = 0) :
    (tryLoop adj v sops done).2 = (fun n => v n + sumOps n sops) ∧
      ∀ l₁ sop l₂, sops = l₁ ++ sop :: l₂ → Turn adj (fun n => v n + sumOps n l₁) sop := by
  induction sops generalizing v done with
  | nil => exact ⟨by simp [tryLoop, sumOps, total], by simp⟩
  | cons sop sops ih =>
    obtain ⟨hturn, heq⟩ := tryLoop_cons h
    rw [heq] at h ⊢
    obtain ⟨hval, hturns⟩ := ih h
    refine ⟨hval.trans (update_add_sumOps v sop sops), fun l₁ sop' l₂ hsplit => ?_⟩
    cases l₁ with
    | nil =>
      obtain ⟨rfl, -⟩ := List.cons.inj hsplit
      simpa [sumOps, total] using hturn
    | cons sop₁ l₁ =>
      obtain ⟨rfl, rfl⟩ := List.cons.inj hsplit
      rw [← update_add_sumOps]
      exact hturns l₁ sop' l₂ rfl

/-- Every operation can be done when its turn comes. -/
def AllTurns (adj v : ℕ → ℤ) (sops : List Sembuf) : Prop :=
  ∀ l₁ sop l₂, sops = l₁ ++ sop :: l₂ → Turn adj (fun n => v n + sumOps n l₁) sop

theorem tryLoop_eq_zero_iff : (tryLoop adj v sops done).1 = 0 ↔ AllTurns adj v sops := by
  refine ⟨fun h => (tryLoop_sumOps h).2, fun h => ?_⟩
  induction sops generalizing v done with
  | nil => rfl
  | cons sop sops ih =>
    have hturn : Turn adj v sop := by simpa [sumOps, total] using h [] sop sops rfl
    rw [hturn.tryLoop_cons]
    refine ih fun l₁ sop' l₂ hsplit => ?_
    rw [update_add_sumOps]
    exact h (sop :: l₁) sop' l₂ (by rw [hsplit, List.cons_append])

theorem Core.foldr_record_sempid (un : Option ℕ) (pid : ℤ) (sops : List Sembuf) (c : Core)
    (n : ℕ) : (sops.foldr (record un pid) c).sempid n =
      if n ∈ sops.map semNum then pid else c.sempid n := by
  induction sops with
  | nil => rfl
  | cons sop sops ih =>
    rw [List.foldr_cons]
    generalize sops.foldr (record un pid) c = c' at ih ⊢
    by_cases hn : n = sop.semNum
    · simp [record, hn]
    · simpa [record, hn] using ih

/-- All operations were applied. -/
structure Applied (c : Core) (sops : List Sembuf) (un : Option ℕ) (pid : ℤ) (c' : Core) :
    Prop where
  semval : ∀ n, c'.semval n = c.semval n + sumOps n sops
  /-- An operation that waits for zero saw zero, and the values on the way were in range. -/
  turn : ∀ l₁ sop l₂, sops = l₁ ++ sop :: l₂ →
    (sop.semOp = 0 → c.semval sop.semNum + sumOps sop.semNum l₁ = 0) ∧
      0 ≤ c.semval sop.semNum + sumOps sop.semNum l₁ + sop.semOp ∧
      c.semval sop.semNum + sumOps sop.semNum l₁ + sop.semOp ≤ semvmx
  sempid : ∀ n, c'.sempid n = if n ∈ sops.map semNum then pid else c.sempid n
  semadj : ∀ u n, c'.semadj u n = c.semadj u n - if un = some u then total undo n sops else 0

/-- A value of a `short` -/
abbrev IsShort (x : ℤ) : Prop := -semaem - 1 ≤ x ∧ x ≤ semaem

theorem IsShort.bmod_eq {x : ℤ} (h : IsShort x) : Int.bmod x (2 ^ 16) = x := by
  unfold IsShort semaem at h
  exact Int.bmod_eq_of_le (by omega) (by omega)

theorem isShort_bmod (x : ℤ) : IsShort (Int.bmod x (2 ^ 16)) := by
  unfold IsShort semaem
  have hle := Int.le_bmod (x := x) (m := 2 ^ 16) (by decide)
  have hlt := Int.bmod_lt (x := x) (m := 2 ^ 16) (by decide)
  omega

/-- Twice `SEM_UNDO` on one semaphore, with the value taken back between. -/
def undoTwice : List Sembuf :=
  [⟨0, 20000, false, true⟩, ⟨0, -20000, false, false⟩, ⟨0, 20000, false, true⟩]

/-- The adjustment wraps, and is positive after two increments. -/
theorem undoTwice_wraps :
    let r := (init 1).core.tryAtomicSemop undoTwice (some 1) 1
    r.1 = 0 ∧ r.2.semadj 1 0 = 25536 ∧
      (init 1).core.semadj 1 0 - total undo 0 undoTwice = -40000 := by
  decide +kernel

/-- The adjustments after a list that is applied: those of its process are reduced by the sum of
its operations with `SEM_UNDO`, as a `short`. -/
theorem applied_semadj {c : Core} {un : Option ℕ} (pid : ℤ)
    (hshort : ∀ u n, IsShort (c.semadj u n))
    (h : (c.tryAtomicSemop sops un pid).1 = 0) (u n : ℕ) :
    (c.tryAtomicSemop sops un pid).2.semadj u n = if un = some u
      then Int.bmod (c.semadj u n - total undo n sops) (2 ^ 16) else c.semadj u n := by
  have hafter : (c.tryAtomicSemop sops un pid).2 = _ := after_of_code_eq (q := ⟨0, sops, un, pid⟩) h
  rw [hafter]
  refine foldr_record_semadj _ _ _ ?_ u n
  exact fun u n => (hshort u n).bmod_eq

/-- `try_atomic_semop` applies all operations or none exactly if some operation cannot be done when
its turn comes, or the sums of those with `SEM_UNDO` leave the adjustments in range. A call that
does not succeed changes nothing in any case. -/
theorem tryAtomicSemop_all_or_nothing (c : Core) (sops : List Sembuf) (un : Option ℕ) (pid : ℤ)
    (hshort : ∀ u n, IsShort (c.semadj u n)) :
    let r := c.tryAtomicSemop sops un pid
    ((r.1 = 0 → Applied c sops un pid r.2) ↔ (AllTurns (c.adjustments un) c.semval sops →
      ∀ u, un = some u → ∀ n, IsShort (c.semadj u n - total undo n sops))) ∧
      (r.1 ≠ 0 → r.2 = c) := by
  intro r
  let q : Queue := ⟨0, sops, un, pid⟩
  have hcode : r.1 = (tryLoop (c.adjustments un) c.semval sops []).1 := code_eq c q
  refine ⟨?_, fun h => after_of_code_ne (q := q) h⟩
  rw [← @tryLoop_eq_zero_iff _ _ _ [], ← hcode]
  refine forall_congr' fun h => ⟨fun happ u hun n => ?_, fun hundo => ?_⟩
  · have hadj := applied_semadj pid hshort h u n
    rw [happ.semadj u n, if_pos hun, if_pos hun] at hadj
    rw [hadj]
    exact isShort_bmod _
  · have hafter : r.2 = _ := after_of_code_eq (q := q) h
    obtain ⟨hval, hturn⟩ := tryLoop_sumOps (hcode.symm.trans h)
    refine ⟨fun n => ?_, fun l₁ sop l₂ hsplit => ?_, fun n => ?_, fun u n => ?_⟩
    · rw [hafter, foldr_record_semval]
      exact congrFun hval n
    · have hsop := hturn l₁ sop l₂ hsplit
      exact ⟨hsop.zero, hsop.nonneg, hsop.le_semvmx⟩
    · rw [hafter]
      exact foldr_record_sempid ..
    · rw [applied_semadj pid hshort h]
      split_ifs with hun
      · exact (hundo u hun n).bmod_eq
      · exact (sub_zero _).symm

/-- Two increments with `SEM_UNDO` on one semaphore, whose sum is in range. -/
theorem tryAtomicSemop_all_or_nothing_increment :
    let sops : List Sembuf := [⟨0, 1, false, true⟩, ⟨0, 2, false, true⟩]
    Applied (init 1).core sops (some 1) 1 ((init 1).core.tryAtomicSemop sops (some 1) 1).2 :=
  (tryAtomicSemop_all_or_nothing _ _ _ _ fun _ _ => (by decide : IsShort 0)).1.mpr
    (fun _ u _ n => by by_cases hn : 0 = n <;> simp [init, total, IsShort, semaem, hn]) rfl

end Applied

end AndroidKernel.Ipc
