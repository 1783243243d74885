import AndroidKernel.Binder.Translation

/-!
# Sending a transaction

`binder_transaction` and `binder_transaction_buffer_release`. The new transaction and its
completion notice are known to the sending call only until they are queued; they get their
cells there.
-/

namespace AndroidKernel.Binder

open RbTree

/-- `struct binder_transaction_data` as user space passes it, with the words its two
pointers lead to. -/
structure TransactionData where
  /-- `target.handle` -/
  handle : ℕ
  /-- `flags & TF_ONE_WAY` -/
  oneWay : Bool
  /-- `flags & TF_ACCEPT_FDS` -/
  acceptFds : Bool
  dataSize : ℕ
  offsetsSize : ℕ
  data : ℕ → ℕ
  offsets : ℕ → ℕ

/-- The entries of the offsets array. -/
def TransactionData.offsetList (tr : TransactionData) : List ℕ :=
  (List.range (tr.offsetsSize / 4)).map tr.offsets

namespace Calls

variable (c : Calls)

/-- `binder_stats_created(BINDER_STAT_TRANSACTION)` -/
def createdTransaction : Calls := { c with transactionStat := c.transactionStat.create }

/-- `binder_stats_created(BINDER_STAT_TRANSACTION_COMPLETE)` -/
def createdComplete : Calls := { c with completeStat := c.completeStat.create }

/-- `binder_stats_deleted(BINDER_STAT_TRANSACTION)` -/
def deletedTransaction : Calls := { c with transactionStat := c.transactionStat.delete }

/-- `binder_stats_deleted(BINDER_STAT_TRANSACTION_COMPLETE)` -/
def deletedComplete : Calls := { c with completeStat := c.completeStat.delete }

/-- The end of a failed `binder_transaction`. -/
def failTransaction (id : Id) (error : ℕ) (inReplyTo : Option Id) : Except Fault Calls := do
  let thread ← c.threads.get .danglingThread id
  if thread.returnError ≠ brOk then .error .returnError
  else
    match inReplyTo with
    | some t =>
      (c.modifyThread id fun thread => { thread with returnError := brTransactionComplete })
        |>.binderSendFailedReply t error
    | none => .ok (c.modifyThread id fun thread => { thread with returnError := error })

end Calls

namespace State

variable (rb : Balance ℕ) (s : State) (b : BufferId) (p id : Id) (target : Target)

/-- The node a `BC_TRANSACTION` is for, or `return_error`. -/
def targetNode (handle : ℕ) : Except Fault (Except ℕ Id) :=
  if handle ≠ 0 then
    match s.objs.binderGetRef p handle with
    | some r => (s.objs.refs.get .danglingRef r).map fun ref => .ok ref.node
    | none => .ok (.error brFailedReply)
  else
    match s.objs.contextMgrNode with
    | some n => .ok (.ok n)
    | none => .ok (.error brDeadReply)

/-- `binder_transaction` up to the target, for `BC_TRANSACTION`. -/
def resolveHandle (handle : ℕ) (oneWay : Bool) : Except Fault Resolved := do
  match ← s.targetNode p handle with
  | .error error => .ok (.failed error none)
  | .ok n =>
    let node ← s.objs.nodes.get .danglingNode n
    match node.proc with
    | none => .ok (.failed brDeadReply none)
    | some target =>
      match ← s.calls.resolveThread id target oneWay with
      | none => .ok (.failed brFailedReply none)
      | some thread => .ok (.target ⟨target, thread, some n, none⟩)

/-- `binder_transaction` up to the target. -/
def resolve (tr : TransactionData) (reply : Bool) : Except Fault (Resolved × Calls) :=
  if reply then s.calls.resolveReply id
  else (s.resolveHandle p id tr.handle tr.oneWay).map fun resolved => (resolved, s.calls)

/-- `binder_alloc_buf` for a process. -/
def binderAllocBuf (dataSize offsetsSize : ℕ) (isAsync : Bool) (faults : PageFaults) :
    Except Fault (Option ℕ × State) := do
  let proc ← s.procs.get .danglingProc p
  match proc.area with
  | none => .ok (none, s)
  | some area =>
    let (b, area) ← area.alloc rb dataSize offsetsSize isAsync faults
    .ok (b, s.modifyProc p fun proc => { proc with area := some area })

/-- `binder_free_buf` for a process. -/
def binderFreeBuf : Except Fault State := do
  let proc ← s.procs.get .danglingProc b.1
  match proc.area with
  | none => .error .danglingBuffer
  | some area =>
    if (s.calls.buffers b).transaction.isSome then .error .freeBuf
    else
      let area ← area.free rb b.2
      .ok (s.modifyProc b.1 fun proc => { proc with area := some area })

/-- The header of a buffer. -/
def header (s : State) (b : BufferId) : BufferHeader :=
  match (s.procs.cell b.1).bind Proc.area with
  | some area => area.1.header b.2
  | none => ⟨true, false, 0, 0⟩

/-- What the translation of the objects in a buffer works on. -/
def load : Transfer := ⟨s.objs, (s.procs.cell b.1).bind Proc.files, (s.calls.buffers b).data⟩

/-- Take over the results of a translation. -/
def store (x : Transfer) : State :=
  { s with
    objs := x.objs
    calls := s.calls.modifyBuffer b fun info => { info with data := x.data }
    procs := s.procs.modify b.1 fun proc => { proc with files := x.files } }

/-- `binder_transaction_buffer_release`; `failedAt` is the index that `failed_at` points to. -/
def binderTransactionBufferRelease (failedAt : Option ℕ) : Except Fault State := do
  let info := s.calls.buffers b
  let objs ← (match info.targetNode with
    | some n => s.objs.binderDecNode n true false
    | none => .ok s.objs)
  let offsets := match failedAt with
    | some i => info.offsets.take i
    | none => info.offsets
  let x ← Transfer.releaseObjects b.1 (s.header b).dataSize failedAt.isSome offsets
    { s.load b with objs := objs }
  .ok (s.store b x)

/-- The new buffer of a transaction, before anything is copied from user space. -/
def fillBuffer (targetNode : Option Id) (tr : TransactionData) : Except Fault State := do
  let objs ← (match targetNode with
    | some n => (s.objs.binderIncNode n true false none).map Prod.snd
    | none => .ok s.objs)
  .ok { s with
    objs := objs
    calls := s.calls.modifyBuffer b fun _ => ⟨false, none, targetNode, tr.data, tr.offsetList⟩ }

/-- Whether the receiver of a transaction takes file descriptors. -/
def acceptsFds : Bool :=
  match target.inReplyTo, target.node with
  | some t, _ => (s.calls.transactions.cell t).any Transaction.acceptFds
  | none, some n => (s.objs.nodes.cell n).any Node.acceptFds
  | none, none => false

/-- `binder_transaction` from the copying on to the end of the loop over the offsets:
`return_error` and the index that `offp` points to when it fails. -/
def translate (b : BufferId) (tr : TransactionData) (env : TransactionEnv) :
    Except Fault (Option (ℕ × ℕ) × State) :=
  if ¬ env.copyData ∨ ¬ env.copyOffsets ∨ tr.offsetsSize % 4 ≠ 0 then
    .ok (some (brFailedReply, 0), s)
  else do
    let (error, x) ← Transfer.translateObjects ⟨p, id, target.proc, s.acceptsFds target⟩
      (s.header b).dataSize env 0 tr.offsetList (s.load b)
    .ok (error, s.store b x)

/-- The end of a successful `binder_transaction`: the transaction is queued at its target and
the completion notice at the sender. -/
def publish (tx : Transaction) (b : BufferId) (q : Queue) : State :=
  let t := s.calls.transactions.next
  let w := s.calls.completes.next
  { s with
    objs := (s.objs.queue (.transaction t) q).queue (.transactionComplete w) (.thread id)
    calls := { s.calls with
      transactions := s.calls.transactions.alloc tx
      completes := s.calls.completes.alloc ()
      buffers := Function.update s.calls.buffers b
        { s.calls.buffers b with transaction := some t } } }

/-- The queue of a one-way transaction, which waits while another one for the same node is
not finished. -/
def asyncQueue : Except Fault (Id × Queue × State) := do
  match target.node with
  | none => .error .noTargetNode
  | some n =>
    let node ← s.objs.nodes.get .danglingNode n
    if node.hasAsyncTransaction then .ok (n, .async n, s)
    else .ok (n, target.queue,
      { s with objs := s.objs.setNode n { node with hasAsyncTransaction := true } })

/-- `binder_transaction` after the loop over the offsets. -/
def commit (b : BufferId) (tr : TransactionData) : Except Fault State := do
  let t := s.calls.transactions.next
  let tx : Transaction :=
    ⟨none, none, some target.proc, target.thread, none, false, some b, tr.oneWay, tr.acceptFds⟩
  match target.inReplyTo with
  | some call =>
    if (s.header b).asyncTransaction then .error .bufferAsync
    else
      let calls ← s.calls.binderPopTransaction target.thread call
      .ok ((State.publish { s with calls := calls } id tx b target.queue).record (.reply t call))
  | none =>
    if tr.oneWay then
      if ¬ (s.header b).asyncTransaction then .error .bufferAsync
      else
        let (n, q, s) ← s.asyncQueue target
        .ok ((s.publish id tx b q).record (.oneWay t n))
    else if (s.header b).asyncTransaction then .error .bufferAsync
    else
      let thread ← s.calls.threads.get .danglingThread id
      let s := { s with
        calls := s.calls.modifyThread id fun thread => { thread with transactionStack := some t } }
      .ok ((s.publish id
        { tx with
          fromThread := some id, fromParent := thread.transactionStack, needReply := true }
        b target.queue).record (.call t id))

/-- The end of a failed `binder_transaction`. -/
def fail (error : ℕ) (inReplyTo : Option Id) : Except Fault State := do
  let calls ← s.calls.failTransaction id error inReplyTo
  .ok { s with calls := calls }

/-- `err_copy_data_failed` and `err_bad_offset` to `err_binder_alloc_buf_failed` -/
def undo (failedAt : ℕ) : Except Fault State := do
  let s ← s.binderTransactionBufferRelease b (some failedAt)
  s.binderFreeBuf rb b

/-- `binder_transaction` once there is a target and `t` and `tcomplete` are allocated. -/
def sendTo (tr : TransactionData) (reply : Bool) (env : TransactionEnv) : Except Fault State := do
  let (b, s) ← s.binderAllocBuf rb target.proc tr.dataSize tr.offsetsSize (!reply && tr.oneWay)
    env.pages
  match b with
  | none =>
    State.fail { s with calls := s.calls.deletedComplete.deletedTransaction } id brFailedReply
      target.inReplyTo
  | some b =>
    let b : BufferId := (target.proc, b)
    let s ← s.fillBuffer b target.node tr
    let (error, s) ← s.translate p id target b tr env
    match error with
    | none => s.commit id target b tr
    | some (error, failedAt) =>
      let s ← s.undo rb b failedAt
      State.fail { s with calls := s.calls.deletedComplete.deletedTransaction } id error
        target.inReplyTo

/-- `binder_transaction` -/
def binderTransaction (tr : TransactionData) (reply : Bool) (env : TransactionEnv) :
    Except Fault State := do
  let (resolved, calls) ← s.resolve p id tr reply
  let s := { s with calls := calls }
  match resolved with
  | .failed error inReplyTo => s.fail id error inReplyTo
  | .target target =>
    if ¬ env.allocTransaction then s.fail id brFailedReply target.inReplyTo
    else
      let calls := s.calls.createdTransaction
      if ¬ env.allocComplete then
        State.fail { s with calls := calls.deletedTransaction } id brFailedReply target.inReplyTo
      else
        State.sendTo rb { s with calls := calls.createdComplete } p id target tr reply env

end State

end AndroidKernel.Binder
