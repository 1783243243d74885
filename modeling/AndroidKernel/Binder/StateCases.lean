import AndroidKernel.Binder.CallCases
import AndroidKernel.Binder.Driver

/-!
# What the functions on transactions and buffers can do

The outcomes of the functions that queue, read and drop transactions and that allocate and free
buffers, each listed once with the circumstances in which it arises.
-/

namespace AndroidKernel.Binder

open RbTree Except Heap

namespace Calls.Unwinds

variable {c c' : Calls} {id p : Id} {resolved : Resolved} {inReplyTo : Option Id}
  {tr : TransactionData}

theorem of_failTransaction {error : ℕ}
    (h : c.failTransaction id error inReplyTo = .ok c') : Unwinds c c' := by
  obtain ⟨thread, -, h⟩ := of_bind h
  split at h
  · cases h
  · cases inReplyTo with
    | none =>
      cases h
      exact .thread .refl id fun _ => rfl
    | some t =>
      refine trans ?_ (of_binderSendFailedReply h)
      exact .thread .refl id fun _ => rfl

theorem of_resolveReply (h : c.resolveReply id = .ok (resolved, c')) : Unwinds c c' := by
  obtain ⟨thread, -, h⟩ := of_bind h
  split at h
  · cases h
    exact .refl
  next t _ =>
    obtain ⟨tx, -, h⟩ := of_bind h
    split at h
    · cases h
      exact .refl
    · have hpop : Unwinds c (c.modifyThread id fun thread =>
          { thread with transactionStack := tx.toParent }) := .thread .refl id fun _ => rfl
      split at h
      · cases h
        exact hpop
      · obtain ⟨targetThread, -, h⟩ := of_bind h
        split at h <;> cases h <;> exact hpop

theorem of_leaveStack (h : c.leaveStack id = .ok c') : Unwinds c c' := by
  obtain ⟨thread, -, h⟩ := of_bind h
  obtain ⟨sendReply, -, h⟩ := of_bind h
  obtain ⟨c₁, hunlink, h⟩ := of_bind h
  split at h
  · exact (of_unlinkStack hunlink).trans (of_binderSendFailedReply h)
  · cases h
    exact of_unlinkStack hunlink

theorem of_resolve {s : State} {reply : Bool}
    (h : s.resolve p id tr reply = .ok (resolved, c')) : Unwinds s.calls c' := by
  unfold State.resolve at h
  split at h
  · exact of_resolveReply h
  · obtain ⟨_, -, h⟩ := of_map h
    cases h
    exact .refl

end Calls.Unwinds

namespace State

variable {s s' : State} {rb : Balance ℕ} {id : Id} {b : BufferId}

/-- What `binder_release_work` does to an item. -/
inductive Release (s : State) : Work → State → Prop
  | failed {t : Id} {tx : Transaction} {b : BufferId} {calls : Calls}
      (htx : s.calls.transactions.cell t = some tx) (hbuffer : tx.buffer = some b)
      (hnode : (s.calls.buffers b).targetNode.isSome) (hsync : tx.oneWay = false)
      (hsend : s.calls.binderSendFailedReply t brDeadReply = .ok calls) :
      Release s (.transaction t)
        { s with objs := s.objs.unqueue (.transaction t), calls := calls }
  | dropped {t : Id} {tx : Transaction} {b : BufferId}
      (htx : s.calls.transactions.cell t = some tx) (hbuffer : tx.buffer = some b)
      (hdrop : (s.calls.buffers b).targetNode.isSome → tx.oneWay = true) :
      Release s (.transaction t) { s with objs := s.objs.unqueue (.transaction t) }
  | complete (w : Id) :
      Release s (.transactionComplete w)
        (State.dropComplete { s with objs := s.objs.unqueue (.transactionComplete w) } w)
  | object {w : Work} (hw : w.isObject = true) : Release s w { s with objs := s.objs.unqueue w }

theorem Release.of_ok {w : Work} (h : s.releaseItem w = .ok s') : Release s w s' := by
  unfold releaseItem at h
  cases w with
  | transaction t =>
    obtain ⟨tx, htx, h⟩ := of_get h
    split at h
    · cases h
    next b hbuffer =>
      split at h
      next hreply =>
        obtain ⟨calls, hsend, h⟩ := of_bind h
        cases h
        exact .failed htx hbuffer hreply.1 (by simpa using hreply.2) hsend
      next hreply =>
        cases h
        refine .dropped htx hbuffer fun hnode => ?_
        by_contra hsync
        exact hreply ⟨hnode, hsync⟩
  | transactionComplete w =>
    cases h
    exact .complete w
  | node n | death d =>
    cases h
    exact .object rfl

/-- The transaction that a successful `binder_transaction` queues, but for the fields that
only a call has. -/
def newTransaction (target : Target) (b : BufferId) (tr : TransactionData) : Transaction :=
  ⟨none, none, some target.proc, target.thread, none, false, some b, tr.oneWay, tr.acceptFds⟩

/-- The outcomes of `binder_transaction` after the loop over the offsets. -/
inductive Commit (s : State) (id : Id) (target : Target) (b : BufferId) (tr : TransactionData) :
    State → Prop
  | reply {call : Id} {calls : Calls} (hin : target.inReplyTo = some call)
      (hpop : s.calls.binderPopTransaction target.thread call = .ok calls) :
      Commit s id target b tr
        ((State.publish { s with calls := calls } id (newTransaction target b tr) b
          target.queue).record (.reply s.calls.transactions.next call))
  | waiting {n : Id} {node : Node} (hin : target.inReplyTo = none) (hone : tr.oneWay = true)
      (hn : target.node = some n) (hnode : s.objs.nodes.cell n = some node)
      (hhas : node.hasAsyncTransaction = true) :
      Commit s id target b tr
        ((s.publish id (newTransaction target b tr) b (.async n)).record
          (.oneWay s.calls.transactions.next n))
  | oneWay {n : Id} {node : Node} (hin : target.inReplyTo = none) (hone : tr.oneWay = true)
      (hn : target.node = some n) (hnode : s.objs.nodes.cell n = some node)
      (hhas : node.hasAsyncTransaction = false) :
      Commit s id target b tr
        ((State.publish
          { s with objs := s.objs.setNode n { node with hasAsyncTransaction := true } }
          id (newTransaction target b tr) b target.queue).record
          (.oneWay s.calls.transactions.next n))
  | call {thread : Thread} (hin : target.inReplyTo = none) (hone : tr.oneWay = false)
      (hthread : s.calls.threads.cell id = some thread) :
      Commit s id target b tr
        ((State.publish
          { s with
            calls := s.calls.modifyThread id fun thread =>
              { thread with transactionStack := some s.calls.transactions.next } }
          id
          { newTransaction target b tr with
            fromThread := some id, fromParent := thread.transactionStack, needReply := true }
          b target.queue).record (.call s.calls.transactions.next id))

theorem Commit.of_ok {target : Target}
    (h : s.commit id target b tr = .ok s') : Commit s id target b tr s' := by
  unfold commit at h
  dsimp only at h
  split at h
  next call hin =>
    split at h
    · cases h
    · obtain ⟨calls, hpop, h⟩ := of_bind h
      cases h
      exact .reply hin hpop
  next hin =>
    split at h
    next hone =>
      split at h
      · cases h
      · obtain ⟨⟨n, q, t⟩, hasync, h⟩ := of_bind h
        cases h
        unfold asyncQueue at hasync
        split at hasync
        · cases hasync
        next m hn =>
          obtain ⟨node, hget, hasync⟩ := of_bind hasync
          split at hasync <;> cases hasync
          next hhas => exact .waiting hin hone hn (Heap.get_eq_ok.mp hget) hhas
          next hhas => exact .oneWay hin hone hn (Heap.get_eq_ok.mp hget) (by simpa using hhas)
    next hone =>
      split at h
      · cases h
      · obtain ⟨thread, hget, h⟩ := of_bind h
        cases h
        exact .call hin (by simpa using hone) (Heap.get_eq_ok.mp hget)

/-- What `binder_thread_read` does with a transaction. -/
inductive ReadTransaction (s : State) (id t : Id) : State → Prop
  | oneWay {tx : Transaction} {b : BufferId} {n : Id} (htx : s.calls.transactions.cell t = some tx)
      (hbuffer : tx.buffer = some b) (hn : (s.calls.buffers b).targetNode = some n)
      (hone : tx.oneWay = true) :
      ReadTransaction s id t ((s.takeFinal t b).record (.oneWayRead t n))
  | call {tx : Transaction} {b : BufferId} {n : Id} {thread : Thread}
      (htx : s.calls.transactions.cell t = some tx) (hbuffer : tx.buffer = some b)
      (hn : (s.calls.buffers b).targetNode = some n) (hone : tx.oneWay = false)
      (hthread : s.calls.threads.cell id = some thread) :
      ReadTransaction s id t
        ((s.takeCall id t b thread.transactionStack).record (.callRead t id))
  | reply {tx : Transaction} {b : BufferId} (htx : s.calls.transactions.cell t = some tx)
      (hbuffer : tx.buffer = some b) (hn : (s.calls.buffers b).targetNode = none) :
      ReadTransaction s id t ((s.takeFinal t b).record (.replyRead t id))

theorem ReadTransaction.of_ok {t : Id} (h : s.readTransaction id t = .ok s') :
    ReadTransaction s id t s' := by
  unfold readTransaction at h
  obtain ⟨tx, htx, h⟩ := of_get h
  split at h
  · cases h
  next b hbuffer =>
    obtain ⟨thread, hthread, h⟩ := of_get h
    obtain ⟨-, -, h⟩ := of_bind h
    split at h
    next n hn =>
      obtain ⟨node, -, h⟩ := of_bind h
      split at h
      next hone =>
        cases h
        exact .oneWay htx hbuffer hn hone
      next hone =>
        cases h
        exact .call htx hbuffer hn (by simpa using hone) hthread
    next hn =>
      cases h
      exact .reply htx hbuffer hn

/-- What `BC_FREE_BUFFER` does to the one-way transactions that wait. -/
inductive NextAsync (s : State) (id : Id) (b : BufferId) : State → Prop
  | none (hb : ¬ ((s.header b).asyncTransaction = true ∧ (s.calls.buffers b).targetNode.isSome)) :
      NextAsync s id b s
  | last {n : Id} {node : Node} (hasync : (s.header b).asyncTransaction = true)
      (hn : (s.calls.buffers b).targetNode = some n) (hnode : s.objs.nodes.cell n = some node)
      (hhas : node.hasAsyncTransaction = true) (hitems : s.objs.works.items (.async n) = []) :
      NextAsync s id b
        { s with objs := s.objs.setNode n { node with hasAsyncTransaction := false } }
  | next {n : Id} {node : Node} {w : Work} {l : List Work}
      (hasync : (s.header b).asyncTransaction = true)
      (hn : (s.calls.buffers b).targetNode = some n) (hnode : s.objs.nodes.cell n = some node)
      (hhas : node.hasAsyncTransaction = true) (hitems : s.objs.works.items (.async n) = w :: l) :
      NextAsync s id b { s with objs := (s.objs.unqueue w).queue w (.thread id) }

theorem NextAsync.of_ok (h : s.nextAsync id b = .ok s') : NextAsync s id b s' := by
  unfold nextAsync at h
  split at h
  next n hasync hn =>
    obtain ⟨node, hget, h⟩ := of_get h
    split at h
    · cases h
    next hhas =>
      rw [Bool.not_eq_true, Bool.not_eq_false] at hhas
      split at h
      next hitems =>
        cases h
        exact .last hasync hn hget hhas hitems
      next w l hitems =>
        cases h
        exact .next hasync hn hget hhas hitems
  next hnot =>
    cases h
    refine .none fun ⟨hasync, hn⟩ => ?_
    obtain ⟨n, hn⟩ := Option.isSome_iff_exists.mp hn
    exact hnot n hasync hn

/-- What `binder_free_buf` does to a process. -/
theorem binderFreeBuf_ok (h : s.binderFreeBuf rb b = .ok s') :
    ∃ proc area area', s.procs.cell b.1 = some proc ∧ proc.area = some area ∧
      (s.calls.buffers b).transaction = none ∧ area.free rb b.2 = .ok area' ∧
      s' = s.modifyProc b.1 fun proc => { proc with area := some area' } := by
  obtain ⟨proc, hget, h⟩ := of_get h
  split at h
  · cases h
  next area harea =>
    split at h
    · cases h
    next htx =>
      obtain ⟨area', hfree, h⟩ := of_bind h
      cases h
      exact ⟨proc, area, area', hget, harea, by simpa using htx, hfree, rfl⟩

/-- What `binder_mmap` does to a process. -/
theorem mmap_ok {area : VmArea} {header : ℕ → BufferHeader} {step : ℕ → PageStep}
    {files : Files} (h : s.mmap rb p area header step files = .ok s') :
    s' = s ∨ ∃ proc area', s.procs.cell p = some proc ∧ proc.area = none ∧
      Area.mmap rb area header step = .ok (some area') ∧
      s' = s.modifyProc p fun proc => { proc with area := some area', files := some files } := by
  obtain ⟨proc, hget, h⟩ := of_get h
  split at h
  · cases h
    exact .inl rfl
  next harea =>
    obtain ⟨r, hmmap, h⟩ := of_bind h
    split at h
    · cases h
      exact .inl rfl
    next area' =>
      cases h
      exact .inr ⟨proc, area', hget, by simpa using harea, hmmap, rfl⟩

/-- A failed `binder_transaction` changes threads and transactions only. -/
theorem fail_ok {error : ℕ} (h : s.fail id error inReplyTo = .ok s') :
    ∃ calls, s.calls.failTransaction id error inReplyTo = .ok calls ∧
      s' = { s with calls := calls } := by
  obtain ⟨calls, hfail, h⟩ := of_bind h
  cases h
  exact ⟨calls, hfail, rfl⟩

/-- The steps of `binder_free_thread`. -/
theorem binderFreeThread_ok (h : s.binderFreeThread p id = .ok s') :
    ∃ calls t, s.calls.leaveStack id = .ok calls ∧
      State.binderReleaseWork
        { s.modifyProc p fun proc => { proc with threads := proc.threads.erase id } with
          calls := calls } (.thread id) = .ok t ∧
      s' = { t with calls := { t.calls with
        threads := t.calls.threads.free id, threadStat := t.calls.threadStat.delete } } := by
  obtain ⟨calls, hleave, h⟩ := of_bind h
  obtain ⟨t, hrelease, h⟩ := of_bind h
  cases h
  exact ⟨calls, t, hleave, hrelease, rfl⟩

end State

end AndroidKernel.Binder
