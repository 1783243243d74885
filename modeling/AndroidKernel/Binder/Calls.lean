import AndroidKernel.Binder.Objects

/-!
# Threads and transactions

Threads of `drivers/staging/android/binder.c`, the transactions between them and what is
recorded with their buffers. A synchronous transaction sits on the stack of the thread
that sent it, through `from_parent`, and on the stack of the thread that took it,
through `to_parent`. The loops of the driver over these links get as much fuel as there
are transactions; running out of it is the fault `endless`.
-/

namespace AndroidKernel.Binder

/-- `BR_OK` -/
def brOk : ℕ := 0x7201

/-- `BR_DEAD_REPLY` -/
def brDeadReply : ℕ := 0x7205

/-- `BR_TRANSACTION_COMPLETE` -/
def brTransactionComplete : ℕ := 0x7206

/-- `BR_FAILED_REPLY` -/
def brFailedReply : ℕ := 0x7211

/-- `BR_ERROR` -/
def brError : ℕ := 0x80047200

/-- A buffer: the process whose area it lies in, and its address. -/
abbrev BufferId := Id × ℕ

/-- `struct binder_thread` -/
structure Thread where
  proc : Id
  pid : ℕ
  transactionStack : Option Id
  returnError : ℕ
  returnError2 : ℕ
  /-- `BINDER_LOOPER_STATE_REGISTERED` -/
  registered : Bool
  /-- `BINDER_LOOPER_STATE_ENTERED` -/
  entered : Bool
  deriving DecidableEq

/-- `struct binder_transaction` -/
structure Transaction where
  /-- `from` -/
  fromThread : Option Id
  fromParent : Option Id
  toProc : Option Id
  toThread : Option Id
  toParent : Option Id
  needReply : Bool
  buffer : Option BufferId
  /-- `flags & TF_ONE_WAY` -/
  oneWay : Bool
  /-- `flags & TF_ACCEPT_FDS` -/
  acceptFds : Bool
  deriving DecidableEq

/-- What `struct binder_buffer` holds besides the allocator's fields, and its contents:
the data by words, and the offsets. -/
structure BufferInfo where
  allowUserFree : Bool
  transaction : Option Id
  targetNode : Option Id
  data : ℕ → ℕ
  offsets : List ℕ

/-- The threads, the transactions and the buffers they use. -/
structure Calls where
  threads : Heap Thread
  transactions : Heap Transaction
  /-- The `binder_work`s of type `BINDER_WORK_TRANSACTION_COMPLETE`. -/
  completes : Heap Unit
  buffers : BufferId → BufferInfo
  threadStat : Stat
  transactionStat : Stat
  completeStat : Stat

namespace Calls

variable (c : Calls) (t : Id)

/-- Change a thread. -/
def modifyThread (id : Id) (f : Thread → Thread) : Calls :=
  { c with threads := c.threads.modify id f }

/-- Change a transaction. -/
def modifyTransaction (f : Transaction → Transaction) : Calls :=
  { c with transactions := c.transactions.modify t f }

/-- Change what is recorded with a buffer. -/
def modifyBuffer (b : BufferId) (f : BufferInfo → BufferInfo) : Calls :=
  { c with buffers := Function.update c.buffers b (f (c.buffers b)) }

/-- `if (t->buffer) t->buffer->transaction = NULL;` -/
def detachBuffer (buffer : Option BufferId) : Calls :=
  match buffer with
  | some b => c.modifyBuffer b fun info => { info with transaction := none }
  | none => c

/-- `kfree(t)` -/
def freeTransaction : Calls :=
  { c with
    transactions := c.transactions.free t
    transactionStat := c.transactionStat.delete }

/-- `binder_pop_transaction` -/
def binderPopTransaction (target : Option Id) (t : Id) : Except Fault Calls := do
  let tx ← c.transactions.get .danglingTransaction t
  let c ← (match target with
    | some id => do
      let thread ← c.threads.get .danglingThread id
      if thread.transactionStack ≠ some t then .error .popStack
      else if tx.fromThread ≠ some id then .error .popFrom
      else .ok (c.modifyThread id fun thread => { thread with transactionStack := tx.fromParent })
    | none => .ok c)
  .ok ((c.detachBuffer tx.buffer).freeTransaction t)

end Calls

/-- The change of the two error fields in `binder_send_failed_reply`, before it looks
whether there is room for another error. -/
def Thread.shiftError (thread : Thread) : Thread :=
  if thread.returnError ≠ brOk ∧ thread.returnError2 = brOk then
    { thread with returnError2 := thread.returnError, returnError := brOk }
  else thread

namespace Calls

/-- The loop of `binder_send_failed_reply`. -/
def failedReplyLoop (error : ℕ) : ℕ → Calls → Id → Except Fault Calls
  | 0, _, _ => .error .endless
  | fuel + 1, c, t => do
    let tx ← c.transactions.get .danglingTransaction t
    match tx.fromThread with
    | some id =>
      let thread ← c.threads.get .danglingThread id
      let c := c.modifyThread id Thread.shiftError
      if thread.shiftError.returnError = brOk then
        let c ← c.binderPopTransaction (some id) t
        .ok (c.modifyThread id fun thread => { thread with returnError := error })
      else .ok c
    | none =>
      let c ← c.binderPopTransaction none t
      match tx.fromParent with
      | none => .ok c
      | some next => failedReplyLoop error fuel c next

/-- `binder_send_failed_reply` -/
def binderSendFailedReply (c : Calls) (t : Id) (error : ℕ) : Except Fault Calls := do
  let tx ← c.transactions.get .danglingTransaction t
  if tx.oneWay then .error .failedReplyOneWay
  else failedReplyLoop error c.transactions.next c t

/-- The loop of `binder_free_thread` over the stack of the thread. -/
def unlinkStack (id : Id) : ℕ → Calls → Option Id → Except Fault Calls
  | _, c, none => .ok c
  | 0, _, some _ => .error .endless
  | fuel + 1, c, some t => do
    let tx ← c.transactions.get .danglingTransaction t
    if tx.toThread = some id then
      let c := (c.detachBuffer tx.buffer).modifyTransaction t fun tx =>
        { tx with toProc := none, toThread := none, buffer := none }
      unlinkStack id fuel c tx.toParent
    else if tx.fromThread = some id then
      let c := c.modifyTransaction t fun tx => { tx with fromThread := none }
      unlinkStack id fuel c tx.fromParent
    else .error .freeThread

/-- The loop of `binder_transaction` that looks for a thread of the target process among
the callers of the pending transactions. -/
def searchTarget (c : Calls) (proc : Id) : ℕ → Option Id → Option Id → Except Fault (Option Id)
  | _, none, found => .ok found
  | 0, some _, _ => .error .endless
  | fuel + 1, some t, found => do
    let tx ← c.transactions.get .danglingTransaction t
    let found ← (match tx.fromThread with
      | some id => do
        let thread ← c.threads.get .danglingThread id
        .ok (if thread.proc = proc then some id else found)
      | none => .ok found)
    searchTarget c proc fuel tx.fromParent found

end Calls

/-- Where a transaction goes. -/
structure Target where
  proc : Id
  thread : Option Id
  node : Option Id
  inReplyTo : Option Id
  deriving DecidableEq

/-- The queue a transaction goes to. -/
def Target.queue (target : Target) : Queue :=
  match target.thread with
  | some id => .thread id
  | none => .proc target.proc

/-- The outcome of the first part of `binder_transaction`: `return_error` and
`in_reply_to` of a failure, or the target. -/
inductive Resolved where
  | failed (error : ℕ) (inReplyTo : Option Id)
  | target (target : Target)
  deriving DecidableEq

/-- `binder_transaction` up to the target, for `BC_REPLY`. -/
def Calls.resolveReply (c : Calls) (id : Id) : Except Fault (Resolved × Calls) := do
  let thread ← c.threads.get .danglingThread id
  match thread.transactionStack with
  | none => .ok (.failed brFailedReply none, c)
  | some t =>
    let tx ← c.transactions.get .danglingTransaction t
    if tx.toThread ≠ some id then .ok (.failed brFailedReply none, c)
    else
      let c := c.modifyThread id fun thread => { thread with transactionStack := tx.toParent }
      match tx.fromThread with
      | none => .ok (.failed brDeadReply (some t), c)
      | some target =>
        let targetThread ← c.threads.get .danglingThread target
        if targetThread.transactionStack ≠ some t then .ok (.failed brFailedReply none, c)
        else .ok (.target ⟨targetThread.proc, some target, none, some t⟩, c)

/-- `binder_transaction` for `BC_TRANSACTION`, once the target process is known: the target
thread, or none in the place of `err_bad_call_stack`. -/
def Calls.resolveThread (c : Calls) (id targetProc : Id) (oneWay : Bool) :
    Except Fault (Option (Option Id)) := do
  let thread ← c.threads.get .danglingThread id
  match oneWay, thread.transactionStack with
  | false, some t =>
    let tx ← c.transactions.get .danglingTransaction t
    if tx.toThread ≠ some id then .ok none
    else
      let found ← c.searchTarget targetProc c.transactions.next (some t) none
      .ok (some found)
  | _, _ => .ok (some none)

end AndroidKernel.Binder
