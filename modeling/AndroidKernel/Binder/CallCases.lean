import AndroidKernel.Binder.Calls

/-!
# What the functions on stacks can do

`binder_pop_transaction`, `binder_send_failed_reply` and the loop of `binder_free_thread` change
the stacks and errors of threads, cut transactions loose and free them. `Calls.Unwinds` lists
these edits, so that what they leave alone is proved once.
-/

namespace AndroidKernel.Binder

open Except

/-- A thread but for its stack and its errors. -/
def Thread.still (thread : Thread) : Thread :=
  { thread with transactionStack := none, returnError := brOk, returnError2 := brOk }

namespace Calls

/-- The edits that popping and unlinking transactions are made of. -/
inductive Unwinds (c : Calls) : Calls → Prop
  | refl : Unwinds c c
  | thread {c' : Calls} (h : Unwinds c c') (id : Id) {f : Thread → Thread}
      (hf : ∀ thread, (f thread).still = thread.still) : Unwinds c (c'.modifyThread id f)
  | transaction {c' : Calls} (h : Unwinds c c') (t : Id) {f : Transaction → Transaction}
      (hf : ∀ tx, (f tx).oneWay = tx.oneWay) : Unwinds c (c'.modifyTransaction t f)
  | detach {c' : Calls} (h : Unwinds c c') (buffer : Option BufferId) :
      Unwinds c (c'.detachBuffer buffer)
  | free {c' : Calls} (h : Unwinds c c') {t : Id} (ht : (c'.transactions.cell t).isSome) :
      Unwinds c (c'.freeTransaction t)

@[simp] theorem threads_detachBuffer (c : Calls) (buffer : Option BufferId) :
    (c.detachBuffer buffer).threads = c.threads := by
  cases buffer <;> rfl

@[simp] theorem transactions_detachBuffer (c : Calls) (buffer : Option BufferId) :
    (c.detachBuffer buffer).transactions = c.transactions := by
  cases buffer <;> rfl

namespace Unwinds

variable {c c' c'' : Calls} {t : Id} {fuel error : ℕ}

theorem trans (h : Unwinds c c') (h' : Unwinds c' c'') : Unwinds c c'' := by
  induction h' with
  | refl => exact h
  | thread _ id hf ih => exact .thread ih id hf
  | transaction _ t hf ih => exact .transaction ih t hf
  | detach _ buffer ih => exact .detach ih buffer
  | free _ ht ih => exact .free ih ht

theorem of_binderPopTransaction {target : Option Id}
    (h : c.binderPopTransaction target t = .ok c') :
    Unwinds c c' := by
  obtain ⟨tx, htx, h⟩ := Heap.of_get h
  obtain ⟨c₁, hpop, h⟩ := of_bind h
  cases h
  have hcell := htx
  cases target with
  | none =>
    cases hpop
    exact .free (.detach .refl _) (by simp [hcell])
  | some id =>
    obtain ⟨thread, -, hpop⟩ := of_bind hpop
    split at hpop
    · cases hpop
    · split at hpop
      · cases hpop
      · cases hpop
        refine .free (.detach (.thread .refl id ?_) _) (by simp [hcell, modifyThread])
        intro thread
        rfl

theorem shiftError_still (thread : Thread) : thread.shiftError.still = thread.still := by
  unfold Thread.shiftError
  split <;> rfl

theorem of_failedReplyLoop (h : failedReplyLoop error fuel c t = .ok c') : Unwinds c c' := by
  induction fuel generalizing c t with
  | zero => cases h
  | succ fuel ih =>
    unfold failedReplyLoop at h
    obtain ⟨tx, -, h⟩ := of_bind h
    split at h
    next id _ =>
      obtain ⟨thread, -, h⟩ := of_bind h
      have hshift : Unwinds c (c.modifyThread id Thread.shiftError) :=
        .thread .refl id shiftError_still
      split at h
      · obtain ⟨c₁, hpop, h⟩ := of_bind h
        cases h
        exact .thread (hshift.trans (of_binderPopTransaction hpop)) id fun _ => rfl
      · cases h
        exact hshift
    next =>
      obtain ⟨c₁, hpop, h⟩ := of_bind h
      have hfirst := of_binderPopTransaction hpop
      split at h
      · cases h
        exact hfirst
      · exact hfirst.trans (ih h)

theorem of_binderSendFailedReply (h : c.binderSendFailedReply t error = .ok c') : Unwinds c c' := by
  obtain ⟨tx, -, h⟩ := of_bind h
  split at h
  · cases h
  · exact of_failedReplyLoop h

theorem of_unlinkStack {id : Id} {stack : Option Id} (h : unlinkStack id fuel c stack = .ok c') :
    Unwinds c c' := by
  induction fuel generalizing c stack with
  | zero =>
    cases stack with
    | none => cases h; exact .refl
    | some t => cases h
  | succ fuel ih =>
    cases stack with
    | none => cases h; exact .refl
    | some t =>
      unfold unlinkStack at h
      obtain ⟨tx, -, h⟩ := of_bind h
      split at h
      · refine trans ?_ (ih h)
        exact .transaction (.detach .refl _) t fun _ => rfl
      · split at h
        · refine trans ?_ (ih h)
          exact .transaction .refl t fun _ => rfl
        · cases h

/-- No thread comes or goes, or changes its process, its `pid` or its looper state. -/
theorem still (h : Unwinds c c') (id : Id) :
    (c'.threads.cell id).map Thread.still = (c.threads.cell id).map Thread.still := by
  induction h with
  | refl => rfl
  | @thread c' _ id' f hf ih =>
    rw [← ih, modifyThread, Heap.cell_modify]
    split_ifs with hid
    · subst hid
      cases c'.threads.cell id <;> simp [hf]
    · rfl
  | transaction _ t hf ih => exact ih
  | detach _ buffer ih => simpa using ih
  | free _ ht ih => exact ih

end Unwinds

end Calls

end AndroidKernel.Binder
