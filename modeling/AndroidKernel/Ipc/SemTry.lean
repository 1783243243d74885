import AndroidKernel.Ipc.Sem
import Mathlib.Data.List.Nodup
import Mathlib.Data.List.Count

/-!
# Trying an operation

`try_atomic_semop` applies all operations or leaves the values as they are. What it returns depends
only on the values and the adjustments, and for a single operation that waits only on one value.
-/

namespace AndroidKernel.Ipc

open Function List Sembuf Int AndroidKernel.Ipc.Core

section TryLoop

variable {adj v : ℕ → ℤ} {sops done : List Sembuf} {sop : Sembuf}

theorem wouldBlock_ne_zero (sop : Sembuf) : sop.wouldBlock ≠ 0 := by
  unfold wouldBlock
  split_ifs <;> decide

theorem erange_ne_zero : erange ≠ 0 := by decide

theorem tryLoop_restores (h : (tryLoop adj v sops done).1 ≠ 0) :
    (tryLoop adj v sops done).2 = undoLoop v done := by
  induction sops generalizing v done with
  | nil => exact absurd rfl h
  | cons sop sops ih =>
    rw [tryLoop] at h ⊢
    simp only at h ⊢
    split_ifs at h ⊢
    · rfl
    · rfl
    · rfl
    · rfl
    · rw [ih h, undoLoop]
      simp

/-- An operation can be done with these values and adjustments. -/
structure Turn (adj v : ℕ → ℤ) (sop : Sembuf) : Prop where
  zero : sop.semOp = 0 → v sop.semNum = 0
  nonneg : 0 ≤ v sop.semNum + sop.semOp
  le_semvmx : v sop.semNum + sop.semOp ≤ semvmx
  undo : sop.undo → -semaem - 1 ≤ adj sop.semNum - sop.semOp ∧ adj sop.semNum - sop.semOp ≤ semaem

theorem tryLoop_cons (h : (tryLoop adj v (sop :: sops) done).1 = 0) :
    Turn adj v sop ∧ tryLoop adj v (sop :: sops) done =
      tryLoop adj (update v sop.semNum (v sop.semNum + sop.semOp)) sops (sop :: done) := by
  rw [tryLoop] at h ⊢
  simp only at h ⊢
  split_ifs at h ⊢ with hzero hneg hmax hundo
  iterate 2
    · exact absurd h (wouldBlock_ne_zero sop)
  iterate 2
    · exact absurd h erange_ne_zero
  · refine ⟨⟨fun h0 => ?_, by omega, by omega, fun hu => ?_⟩, rfl⟩
    · by_contra hne
      exact hzero ⟨h0, hne⟩
    · constructor <;> by_contra hout
      · exact hundo ⟨hu, .inl (by omega)⟩
      · exact hundo ⟨hu, .inr (by omega)⟩

theorem Turn.tryLoop_cons (h : Turn adj v sop) : tryLoop adj v (sop :: sops) done =
    tryLoop adj (update v sop.semNum (v sop.semNum + sop.semOp)) sops (sop :: done) := by
  have hnonneg := h.nonneg
  have hmax := h.le_semvmx
  rw [tryLoop]
  simp only
  rw [if_neg fun hz => hz.2 (h.zero hz.1), if_neg (by omega), if_neg (by omega), if_neg]
  rintro ⟨hu, hout⟩
  have hin := h.undo hu
  omega

/-- What every operation preserves holds of the values after a loop that succeeds. -/
theorem tryLoop_induct {P : (ℕ → ℤ) → Prop} (h : (tryLoop adj v sops done).1 = 0)
    (hstep : ∀ v, ∀ sop ∈ sops, Turn adj v sop → P v →
      P (update v sop.semNum (v sop.semNum + sop.semOp))) (hv : P v) :
    P (tryLoop adj v sops done).2 := by
  induction sops generalizing v done with
  | nil => exact hv
  | cons sop sops ih =>
    obtain ⟨hturn, heq⟩ := tryLoop_cons h
    rw [heq] at h ⊢
    exact ih h (fun v sop' hmem => hstep v sop' (mem_cons_of_mem _ hmem))
      (hstep v sop (mem_cons_self ..) hturn hv)

theorem tryLoop_range {P : ℤ → Prop} (hP : ∀ x, 0 ≤ x → x ≤ semvmx → P x) (hv : ∀ n, P (v n))
    (h : (tryLoop adj v sops done).1 = 0) (n : ℕ) : P ((tryLoop adj v sops done).2 n) := by
  refine tryLoop_induct (P := fun v => ∀ n, P (v n)) h (fun v sop _ hturn hv m => ?_) hv n
  by_cases hm : m = sop.semNum
  · subst hm
    rw [update_self]
    exact hP _ hturn.nonneg hturn.le_semvmx
  · rw [update_of_ne hm]
    exact hv m

theorem tryLoop_value {P : ℤ → Prop} {n : ℕ} (h : (tryLoop adj v sops done).1 = 0)
    (hops : ∀ sop ∈ sops, sop.semNum = n → ∀ x, P x → P (x + sop.semOp)) (hv : P (v n)) :
    P ((tryLoop adj v sops done).2 n) := by
  refine tryLoop_induct (P := fun v => P (v n)) h (fun v sop hmem _ hv => ?_) hv
  by_cases hn : n = sop.semNum
  · subst hn
    rw [update_self]
    exact hops sop hmem rfl _ hv
  · rwa [update_of_ne hn]

end TryLoop

variable (c : Core) (q : Queue)

/-- What `try_atomic_semop` returns. -/
def Core.code : ℤ := (c.tryAtomicSemop q.sops q.undo q.pid).1

/-- What `try_atomic_semop` leaves. -/
def Core.after : Core := (c.tryAtomicSemop q.sops q.undo q.pid).2

/-- The operation would have to sleep. -/
def Core.Blocks : Prop := 0 < c.code q

/-- The values are not negative, and the adjustments are `short` values. -/
structure Core.Ok (c : Core) : Prop where
  semval_nonneg : ∀ n, 0 ≤ c.semval n
  semadj_short : ∀ un n, bmod (c.semadj un n) (2 ^ 16) = c.semadj un n

variable {c : Core} {q : Queue}

theorem Core.code_eq (c : Core) (q : Queue) :
    c.code q = (tryLoop (c.adjustments q.undo) c.semval q.sops []).1 := by
  unfold code tryAtomicSemop
  simp only
  split_ifs with h
  · exact h.symm
  · rfl

theorem Core.after_of_code_ne (h : c.code q ≠ 0) : c.after q = c := by
  rw [code_eq] at h
  unfold after tryAtomicSemop
  simp only [if_neg h]
  rw [tryLoop_restores h, undoLoop]

/-- An attempt that succeeds sets the values and then records every operation. -/
theorem Core.after_of_code_eq (h : c.code q = 0) : c.after q = q.sops.foldr (record q.undo q.pid)
      { c with semval := (tryLoop (c.adjustments q.undo) c.semval q.sops []).2 } := by
  rw [code_eq] at h
  unfold after tryAtomicSemop
  simp only [if_pos h]

theorem Core.foldr_record_semval (un : Option ℕ) (pid : ℤ) (sops : List Sembuf) (c : Core) :
    (sops.foldr (record un pid) c).semval = c.semval := by
  induction sops with
  | nil => rfl
  | cons sop sops ih => exact ih

/-- The sum of the operations on a semaphore that satisfy `p`. -/
def total (p : Sembuf → Bool) (n : ℕ) (sops : List Sembuf) : ℤ :=
  ((sops.filter fun sop => sop.semNum = n ∧ p sop).map semOp).sum

theorem total_cons (p : Sembuf → Bool) (n : ℕ) (sop : Sembuf) (sops : List Sembuf) :
    total p n (sop :: sops) =
      (if sop.semNum = n ∧ p sop then sop.semOp else 0) + total p n sops := by
  unfold total
  by_cases h : sop.semNum = n ∧ p sop
  · rw [filter_cons_of_pos (by simpa using h), if_pos h, map_cons, sum_cons]
  · rw [filter_cons_of_neg (by simpa using h), if_neg h, zero_add]

theorem total_eq_zero {p : Sembuf → Bool} {n : ℕ} {sops : List Sembuf}
    (h : ∀ sop ∈ sops, sop.semNum = n → p sop → sop.semOp = 0) : total p n sops = 0 := by
  induction sops with
  | nil => rfl
  | cons sop sops ih =>
    rw [total_cons, ih fun sop' hmem => h sop' (mem_cons_of_mem _ hmem), add_zero]
    split_ifs with hsop
    · exact h sop (mem_cons_self ..) hsop.1 hsop.2
    · rfl

/-- The operations with `SEM_UNDO` are subtracted from the adjustments of the undo structure. -/
theorem Core.foldr_record_semadj (un : Option ℕ) (pid : ℤ) (sops : List Sembuf)
    (h : ∀ un n, bmod (c.semadj un n) (2 ^ 16) = c.semadj un n) (u n : ℕ) :
    (sops.foldr (record un pid) c).semadj u n =
      if un = some u then bmod (c.semadj u n - total undo n sops) (2 ^ 16)
      else c.semadj u n := by
  induction sops with
  | nil =>
    have htotal : total undo n [] = 0 := rfl
    rw [htotal, sub_zero, h, ite_self, foldr_nil]
  | cons sop sops ih =>
    rw [foldr_cons, total_cons]
    generalize sops.foldr (record un pid) c = c' at ih ⊢
    unfold record
    cases un with
    | none => exact ih
    | some un =>
      by_cases hu : u = un
      · subst hu
        rw [if_pos rfl] at ih ⊢
        by_cases hsop : sop.semNum = n ∧ sop.undo
        · obtain ⟨rfl, hundo⟩ := hsop
          simp only [hundo, and_self, if_true, update_self, ih, bmod_sub_bmod]
          congr 1
          omega
        · simp only [if_neg hsop, zero_add]
          rw [← ih]
          split_ifs with hundo
          · rw [update_self, update_of_ne fun hn => hsop ⟨hn.symm, hundo⟩]
          · rfl
      · simp only [Option.some.injEq, Ne.symm hu, if_false] at ih ⊢
        split_ifs
        · rw [update_of_ne hu, ih]
        · exact ih

/-- What `try_atomic_semop` leaves in the adjustments when it succeeds. -/
theorem Core.after_semadj (hc : c.Ok) (h : c.code q = 0) (u n : ℕ) : (c.after q).semadj u n =
      if q.undo = some u then bmod (c.semadj u n - total undo n q.sops) (2 ^ 16)
      else c.semadj u n := by
  rw [after_of_code_eq h]
  refine foldr_record_semadj _ _ _ ?_ u n
  exact hc.semadj_short

theorem Core.after_semval (h : c.code q = 0) :
    (c.after q).semval = (tryLoop (c.adjustments q.undo) c.semval q.sops []).2 := by
  rw [after_of_code_eq h, foldr_record_semval]

theorem Core.Ok.after (hc : c.Ok) (q : Queue) : (c.after q).Ok := by
  by_cases h : c.code q = 0
  · refine ⟨fun n => ?_, fun un n => ?_⟩
    · rw [after_semval h]
      rw [code_eq] at h
      exact tryLoop_range (P := fun x => 0 ≤ x) (fun _ hx _ => hx) hc.semval_nonneg h n
    · rw [after_semadj hc h]
      split_ifs
      · exact bmod_bmod
      · exact hc.semadj_short un n
  · rw [after_of_code_ne h]
    exact hc

theorem Core.code_after_of_not_altering (hc : c.Ok) (halter : altering q.sops = false)
    (q' : Queue) : (c.after q).code q' = c.code q' := by
  have hop (sop : Sembuf) (hmem : sop ∈ q.sops) : sop.semOp = 0 := by
    simpa using List.any_eq_false.mp halter sop hmem
  by_cases h : c.code q = 0
  · have hsemval : (c.after q).semval = c.semval := by
      rw [after_semval h]
      rw [code_eq] at h
      funext n
      refine tryLoop_value (P := fun x => x = c.semval n) h (fun sop hmem _ x hx => ?_) rfl
      rw [hop sop hmem, add_zero, hx]
    have hsemadj : (c.after q).semadj = c.semadj := by
      funext u n
      rw [after_semadj hc h, total_eq_zero fun sop hmem _ _ => hop sop hmem, sub_zero,
        hc.semadj_short, ite_self]
    have hadj : (c.after q).adjustments q'.undo = c.adjustments q'.undo := by
      cases q'.undo with
      | none => rfl
      | some un => exact congrFun hsemadj un
    rw [code_eq, code_eq, hsemval, hadj]
  · rw [after_of_code_ne h]

theorem Core.blocks_single (hq : q.sops = [sop]) : c.Blocks q ↔ sop.nowait = false ∧
      ((sop.semOp = 0 ∧ c.semval sop.semNum ≠ 0) ∨ c.semval sop.semNum + sop.semOp < 0) := by
  unfold Blocks
  rw [code_eq, hq]
  have hblock : 0 < sop.wouldBlock ↔ sop.nowait = false := by
    unfold wouldBlock
    cases sop.nowait <;> decide
  simp only [tryLoop]
  split_ifs with h1 h2 h3 h4
  · rw [hblock]
    tauto
  · rw [hblock]
    tauto
  · simp only [erange]
    tauto
  · simp only [erange]
    tauto
  · simp only [lt_irrefl, false_iff]
    tauto

theorem Core.after_single (hq : q.sops = [sop]) (h : c.code q = 0) :
    (c.after q).semval = update c.semval sop.semNum (c.semval sop.semNum + sop.semOp) := by
  rw [after_semval h]
  rw [code_eq] at h
  rw [hq] at h ⊢
  rw [(tryLoop_cons h).2, tryLoop]

end AndroidKernel.Ipc
