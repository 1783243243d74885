import AndroidKernel.Binder.Transaction

/-!
# The commands and the life of processes

What user space can make the driver do: the commands of `binder_thread_write`, the returns
of `binder_thread_read`, the other requests of `binder_ioctl`, and the opening, mapping and
releasing of the device. Everything runs under `binder_lock`, so that a run is a sequence of
such operations by any threads in any order.
-/

namespace AndroidKernel.Binder

open RbTree

/-- A command of `binder_thread_write`, with whether the `kzalloc` it may need succeeds. -/
inductive Command where
  | increfs (target : ℕ) (alloc : Bool)
  | acquire (target : ℕ) (alloc : Bool)
  | release (target : ℕ)
  | decrefs (target : ℕ)
  | increfsDone (ptr cookie : ℕ)
  | acquireDone (ptr cookie : ℕ)
  /-- `BC_FREE_BUFFER`, by the address of the header that belongs to the data pointer. -/
  | freeBuffer (kernPtr : ℕ)
  | transaction (tr : TransactionData) (env : TransactionEnv)
  | reply (tr : TransactionData) (env : TransactionEnv)
  | registerLooper
  | enterLooper
  | exitLooper
  | requestDeathNotification (target cookie : ℕ) (alloc : Bool)
  | clearDeathNotification (target cookie : ℕ)
  | deadBinderDone (cookie : ℕ)
  /-- A command that is not supported. -/
  | unknown

namespace State

variable (rb : Balance ℕ) (s : State) (p id t : Id) (b : BufferId)

/-- The reference `BC_INCREFS` and `BC_ACQUIRE` are about. -/
def incTarget (target : ℕ) (alloc : Bool) : Except Fault (Option Id × Objs) := do
  match target, s.objs.contextMgrNode with
  | 0, some n =>
    let (r, objs) ← s.objs.binderGetRefForNode p n alloc
    match r with
    | some r => .ok (some r, objs)
    | none => .error .nullPointer
  | _, _ => .ok (s.objs.binderGetRef p target, s.objs)

/-- `BC_INCREFS` and `BC_ACQUIRE` -/
def incRefs (target : ℕ) (strong alloc : Bool) : Except Fault State := do
  let (r, objs) ← s.incTarget p target alloc
  match r with
  | none => .ok { s with objs := objs }
  | some r =>
    let (_, objs) ← objs.binderIncRef r strong none
    .ok { s with objs := objs }

/-- `BC_DECREFS` and `BC_RELEASE` -/
def decRefs (target : ℕ) (strong : Bool) : Except Fault State := do
  match s.objs.binderGetRef p target with
  | none => .ok s
  | some r =>
    let objs ← s.objs.binderDecRef r strong
    .ok { s with objs := objs }

/-- `BC_INCREFS_DONE` and `BC_ACQUIRE_DONE` -/
def refsDone (ptr cookie : ℕ) (strong : Bool) : Except Fault State := do
  match s.objs.binderGetNode p ptr with
  | none => .ok s
  | some n =>
    let node ← s.objs.nodes.get .danglingNode n
    if cookie ≠ node.cookie then .ok s
    else if strong then
      if ¬ node.pendingStrongRef then .ok s
      else
        let objs ← (s.objs.setNode n { node with pendingStrongRef := false }).binderDecNode
          n true false
        .ok { s with objs := objs }
    else
      if ¬ node.pendingWeakRef then .ok s
      else
        let objs ← (s.objs.setNode n { node with pendingWeakRef := false }).binderDecNode
          n false false
        .ok { s with objs := objs }

/-- `BC_FREE_BUFFER`: cut the buffer from its transaction. -/
def detach : State :=
  match (s.calls.buffers b).transaction with
  | some t => { s with
      calls := (s.calls.modifyTransaction t fun tx => { tx with buffer := none }).modifyBuffer b
        fun info => { info with transaction := none } }
  | none => s

/-- `BC_FREE_BUFFER`: let the next one-way transaction for the node go. -/
def nextAsync : Except Fault State := do
  match (s.header b).asyncTransaction, (s.calls.buffers b).targetNode with
  | true, some n =>
    let node ← s.objs.nodes.get .danglingNode n
    if ¬ node.hasAsyncTransaction then .error .asyncTransaction
    else
      match s.objs.works.items (.async n) with
      | [] => .ok { s with objs := s.objs.setNode n { node with hasAsyncTransaction := false } }
      | w :: _ => .ok { s with objs := (s.objs.unqueue w).queue w (.thread id) }
  | _, _ => .ok s

/-- `BC_FREE_BUFFER` -/
def freeBuffer (kernPtr : ℕ) : Except Fault State := do
  let proc ← s.procs.get .danglingProc p
  match proc.area with
  | none => .ok s
  | some area =>
    match ← area.1.binderBufferLookup kernPtr with
    | none => .ok s
    | some buffer =>
      let b : BufferId := (p, buffer)
      if ¬ (s.calls.buffers b).allowUserFree then .ok s
      else
        let s ← (s.detach b).nextAsync id b
        let s ← s.binderTransactionBufferRelease b none
        s.binderFreeBuf rb b

/-- The list a death record is queued on by a command. -/
def deathQueue : Queue :=
  if (s.calls.threads.cell id).any fun thread => thread.registered || thread.entered then
    .thread id
  else .proc p

/-- `BC_REQUEST_DEATH_NOTIFICATION` -/
def requestDeathNotification (target cookie : ℕ) (alloc : Bool) : Except Fault State := do
  match s.objs.binderGetRef p target with
  | none => .ok s
  | some r =>
    let ref ← s.objs.refs.get .danglingRef r
    if ref.death.isSome then .ok s
    else if ¬ alloc then
      .ok { s with
        calls := s.calls.modifyThread id fun thread => { thread with returnError := brError } }
    else
      let d := s.objs.deaths.next
      let node ← s.objs.nodes.get .danglingNode ref.node
      let objs := { s.objs.setRef r { ref with death := some d } with
        deathStat := s.objs.deathStat.create }
      let s := s.record (.deathRequested d p)
      match node.proc with
      | some _ => .ok { s with objs := { objs with deaths := objs.deaths.alloc ⟨cookie, .unset⟩ } }
      | none => .ok { s with
          objs := { objs with deaths := objs.deaths.alloc ⟨cookie, .deadBinder⟩ }.queue (.death d)
            (s.deathQueue p id) }

/-- `BC_CLEAR_DEATH_NOTIFICATION` -/
def clearDeathNotification (s : State) (p id : Id) (target cookie : ℕ) : Except Fault State := do
  match s.objs.binderGetRef p target with
  | none => .ok s
  | some r =>
    let ref ← s.objs.refs.get .danglingRef r
    match ref.death with
    | none => .ok s
    | some d =>
      let death ← s.objs.deaths.get .danglingDeath d
      if death.cookie ≠ cookie then .ok s
      else
        let objs := s.objs.setRef r { ref with death := none }
        if (objs.works.home (.death d)).isNone then
          .ok { s with
            objs := (objs.setDeath d { death with type := .clearDeathNotification }).queue
              (.death d) (s.deathQueue p id) }
        else if death.type ≠ .deadBinder then .error .deathType
        else .ok { s with objs := objs.setDeath d { death with type := .deadBinderAndClear } }

/-- `BC_DEAD_BINDER_DONE` -/
def deadBinderDone (cookie : ℕ) : Except Fault State := do
  let found := (s.objs.works.items (.deliveredDeath p)).find? fun
    | .death d => (s.objs.deaths.cell d).any fun death => death.cookie == cookie
    | _ => false
  match found with
  | some (.death d) =>
    let death ← s.objs.deaths.get .danglingDeath d
    let objs := s.objs.unqueue (.death d)
    if death.type = .deadBinderAndClear then
      .ok { s with
        objs := (objs.setDeath d { death with type := .clearDeathNotification }).queue (.death d)
          (s.deathQueue p id) }
    else .ok { s with objs := objs }
  | _ => .ok s

/-- A command of `binder_thread_write`. -/
def command : Command → Except Fault State
  | .increfs target alloc => s.incRefs p target false alloc
  | .acquire target alloc => s.incRefs p target true alloc
  | .release target => s.decRefs p target true
  | .decrefs target => s.decRefs p target false
  | .increfsDone ptr cookie => s.refsDone p ptr cookie false
  | .acquireDone ptr cookie => s.refsDone p ptr cookie true
  | .freeBuffer kernPtr => s.freeBuffer rb p id kernPtr
  | .transaction tr env => s.binderTransaction rb p id tr false env
  | .reply tr env => s.binderTransaction rb p id tr true env
  | .registerLooper => .ok { s with
      calls := s.calls.modifyThread id fun thread => { thread with registered := true } }
  | .enterLooper => .ok { s with
      calls := s.calls.modifyThread id fun thread => { thread with entered := true } }
  | .exitLooper => .ok s
  | .requestDeathNotification target cookie alloc =>
    s.requestDeathNotification p id target cookie alloc
  | .clearDeathNotification target cookie => s.clearDeathNotification p id target cookie
  | .deadBinderDone cookie => s.deadBinderDone p id cookie
  | .unknown => .ok s

/-- One round of the loop of `binder_thread_write`, which stops at an error. -/
def binderThreadWrite (cmd : Command) : Except Fault State := do
  let thread ← s.calls.threads.get .danglingThread id
  if thread.returnError = brOk then s.command rb p id cmd else .ok s

/-- `BINDER_WORK_NODE` in `binder_thread_read`: tell the owner about one change of its
references, or take the work off its list. -/
def readNode (n : Id) : Except Fault State := do
  let node ← s.objs.nodes.get .danglingNode n
  let strong : Bool := node.internalStrongRefs ≠ 0 ∨ node.localStrongRefs ≠ 0
  let weak : Bool := node.refs ≠ [] ∨ node.localWeakRefs ≠ 0 ∨ strong
  let set (node : Node) : State := { s with objs := s.objs.setNode n node }
  if weak ∧ ¬ node.hasWeakRef then
    let refs ← increment node.localWeakRefs
    .ok (set { node with hasWeakRef := true, pendingWeakRef := true, localWeakRefs := refs })
  else if strong ∧ ¬ node.hasStrongRef then
    let refs ← increment node.localStrongRefs
    .ok (set { node with hasStrongRef := true, pendingStrongRef := true, localStrongRefs := refs })
  else if ¬ strong ∧ node.hasStrongRef then .ok (set { node with hasStrongRef := false })
  else if ¬ weak ∧ node.hasWeakRef then .ok (set { node with hasWeakRef := false })
  else if weak then .ok { s with objs := s.objs.unqueue (.node n) }
  else .ok { s with objs := { s.objs with
      works := s.objs.works.del (.node n)
      procNodes := Function.update s.objs.procNodes p ((s.objs.procNodes p).erase n)
      nodes := s.objs.nodes.free n
      nodeStat := s.objs.nodeStat.delete } }

/-- `BINDER_WORK_DEAD_BINDER`, `BINDER_WORK_DEAD_BINDER_AND_CLEAR` and
`BINDER_WORK_CLEAR_DEATH_NOTIFICATION` in `binder_thread_read` -/
def readDeath (d : Id) : Except Fault State := do
  let death ← s.objs.deaths.get .danglingDeath d
  if death.type = .clearDeathNotification then
    let objs ← s.objs.freeDeath d
    .ok { s with objs := objs }
  else .ok ({ s with
      objs := { s.objs with
        works := s.objs.works.addHead (.death d) (.deliveredDeath p) } }.record (.deadBinder d))

/-- The end of `binder_thread_read` for a transaction that expects no reply. -/
def takeFinal : State :=
  { s with
    objs := s.objs.unqueue (.transaction t)
    calls := (s.calls.modifyBuffer b fun info =>
      { info with allowUserFree := true, transaction := none }).freeTransaction t }

/-- The end of `binder_thread_read` for a transaction that expects a reply. -/
def takeCall (stack : Option Id) : State :=
  { s with
    objs := s.objs.unqueue (.transaction t)
    calls := ((s.calls.modifyBuffer b fun info => { info with allowUserFree := true })
      |>.modifyTransaction t fun tx => { tx with toParent := stack, toThread := some id })
      |>.modifyThread id fun thread => { thread with transactionStack := some t } }

/-- `BINDER_WORK_TRANSACTION` in `binder_thread_read` -/
def readTransaction : Except Fault State := do
  let tx ← s.calls.transactions.get .danglingTransaction t
  match tx.buffer with
  | none => .error .noBuffer
  | some b =>
    let thread ← s.calls.threads.get .danglingThread id
    let _ ← (match tx.fromThread with
      | some sender => (s.calls.threads.get .danglingThread sender).map fun _ => ()
      | none => .ok ())
    match (s.calls.buffers b).targetNode with
    | some n =>
      let _ ← s.objs.nodes.get .danglingNode n
      if tx.oneWay then .ok ((s.takeFinal t b).record (.oneWayRead t n))
      else .ok ((s.takeCall id t b thread.transactionStack).record (.callRead t id))
    | none => .ok ((s.takeFinal t b).record (.replyRead t id))

/-- `BINDER_WORK_TRANSACTION_COMPLETE` in `binder_thread_read` and `binder_release_work` -/
def dropComplete (w : Id) : State :=
  { s with
    objs := s.objs.unqueue (.transactionComplete w)
    calls := { s.calls with completes := s.calls.completes.free w }.deletedComplete }

/-- One work item in `binder_thread_read`; `copied` says whether user space could be
written. The flags of a node change in either case. -/
def readItem (copied : Bool) : Work → Except Fault State
  | .node n => s.readNode p n
  | .transaction t => if copied then s.readTransaction id t else .ok s
  | .transactionComplete w => .ok (if copied then s.dropComplete w else s)
  | .death d => if copied then s.readDeath p d else .ok s

/-- One round of the loop of `binder_thread_read` that takes work. -/
def readWork (copied : Bool) : Except Fault State := do
  let thread ← s.calls.threads.get .danglingThread id
  match s.objs.works.items (.thread id), s.objs.works.items (.proc p) with
  | w :: _, _ => s.readItem p id copied w
  | [], w :: _ =>
    if thread.transactionStack = none ∧ thread.returnError = brOk then s.readItem p id copied w
    else .ok s
  | [], [] => .ok s

end State

/-- What becomes of the pending errors of a thread in `binder_thread_read`. -/
inductive ErrorRead where
  /-- User space cannot be written, or there is room for `return_error2` only. -/
  | none
  /-- `return_error2` is written, and `return_error` cannot be. -/
  | first
  | both
  deriving DecidableEq

/-- The errors of a thread after `binder_thread_read` hands them out. -/
def Thread.readError (thread : Thread) (read : ErrorRead) : Thread :=
  if thread.returnError = brOk then thread
  else
    match read with
    | .none => thread
    | .first => { thread with returnError2 := brOk }
    | .both => { thread with returnError2 := brOk, returnError := brOk }

namespace State

/-- One item of the loop of `binder_release_work`. -/
def releaseItem (s : State) (w : Work) : Except Fault State := do
  let s := { s with objs := s.objs.unqueue w }
  match w with
  | .transaction t =>
    let tx ← s.calls.transactions.get .danglingTransaction t
    match tx.buffer with
    | none => .error .nullPointer
    | some b =>
      if (s.calls.buffers b).targetNode.isSome ∧ ¬ tx.oneWay then
        let calls ← s.calls.binderSendFailedReply t brDeadReply
        .ok { s with calls := calls }
      else .ok s
  | .transactionComplete w => .ok (s.dropComplete w)
  | .node _ | .death _ => .ok s

/-- `binder_release_work`. No item of the loop queues work, so it goes over the list as it
is found. -/
def binderReleaseWork (s : State) (q : Queue) : Except Fault State :=
  (s.objs.works.items q).foldlM releaseItem s

/-- `binder_get_thread`; `alloc` says whether `kzalloc` succeeds. -/
def binderGetThread (s : State) (p : Id) (pid : ℕ) (alloc : Bool) :
    Except Fault (Option Id × State) := do
  let proc ← s.procs.get .danglingProc p
  match proc.threads.find? fun id => (s.calls.threads.cell id).any fun th => th.pid == pid with
  | some id => .ok (some id, s)
  | none =>
    if alloc then
      let id := s.calls.threads.next
      let threads := s.calls.threads.alloc ⟨p, pid, none, brOk, brOk, false, false⟩
      let key (i : Id) : ℕ := (threads.cell i).elim 0 Thread.pid
      .ok (some id, { s with
        calls := { s.calls with
          threads := threads, threadStat := s.calls.threadStat.create }
        procs := s.procs.modify p fun proc =>
          { proc with threads := proc.threads.orderedInsert (fun a b => key a ≤ key b) id } })
    else .ok (none, s)

end State

/-- The loop of `binder_free_thread` over the stack and the reply it sends. -/
def Calls.leaveStack (c : Calls) (id : Id) : Except Fault Calls := do
  let thread ← c.threads.get .danglingThread id
  let sendReply ← (match thread.transactionStack with
    | some t => do
      let tx ← c.transactions.get .danglingTransaction t
      .ok (if tx.toThread = some id then some t else none)
    | none => .ok none)
  let c ← c.unlinkStack id c.transactions.next thread.transactionStack
  match sendReply with
  | some t => c.binderSendFailedReply t brDeadReply
  | none => .ok c

namespace State

variable (s : State) (p : Id)

/-- `binder_free_thread` -/
def binderFreeThread (id : Id) : Except Fault State := do
  let s := s.modifyProc p fun proc => { proc with threads := proc.threads.erase id }
  let calls ← s.calls.leaveStack id
  let s ← State.binderReleaseWork { s with calls := calls } (.thread id)
  .ok { s with
    calls := { s.calls with
      threads := s.calls.threads.free id, threadStat := s.calls.threadStat.delete } }

/-- `BINDER_SET_CONTEXT_MGR` -/
def setContextMgr (euid : ℕ) (alloc : Bool) : State :=
  if s.objs.contextMgrNode.isSome ∨ (s.contextMgrUid ≠ none ∧ s.contextMgrUid ≠ some euid) then s
  else
    let s := { s with contextMgrUid := some euid }
    match s.objs.binderNewNode p 0 0 false alloc with
    | (none, _) => s
    | (some n, objs) => { s with
        objs := { objs with
          nodes := objs.nodes.modify n fun node =>
            { node with
              localWeakRefs := node.localWeakRefs + 1
              localStrongRefs := node.localStrongRefs + 1
              hasStrongRef := true
              hasWeakRef := true }
          contextMgrNode := some n } }

/-- One reference to a node whose process goes away. -/
def refDied (r : Id) : Except Fault State := do
  let ref ← s.objs.refs.get .danglingRef r
  match ref.death with
  | none => .ok s
  | some d =>
    let death ← s.objs.deaths.get .danglingDeath d
    if (s.objs.works.home (.death d)).isNone then
      .ok { s with
        objs := (s.objs.setDeath d { death with type := .deadBinder }).queue (.death d)
          (.proc ref.proc) }
    else .error .deathQueued

/-- One node of a process that goes away. -/
def nodeDied (n : Id) : Except Fault State := do
  let node ← s.objs.nodes.get .danglingNode n
  let objs := { s.objs.unqueue (.node n) with
    procNodes := Function.update s.objs.procNodes p ((s.objs.procNodes p).erase n) }
  if node.refs = [] then
    .ok { s with
      objs := { objs with nodes := objs.nodes.free n, nodeStat := objs.nodeStat.delete } }
  else
    let objs := objs.setNode n { node with proc := none, localStrongRefs := 0, localWeakRefs := 0 }
    node.refs.foldlM refDied { s with objs := objs }

/-- One buffer of a process that goes away. -/
def bufferDied (rb : Balance ℕ) (s : State) (b : BufferId) : Except Fault State :=
  (s.detach b).binderFreeBuf rb b

/-- The buffers that a process has received. -/
def allocatedBuffers (s : State) (p : Id) : List ℕ :=
  match (s.procs.cell p).bind Proc.area with
  | some area => area.1.allocatedBuffers.inorder
  | none => []

/-- `binder_context_mgr_node` is cleared when its process goes away. -/
def leaveContextMgr : Except Fault State := do
  match s.objs.contextMgrNode with
  | none => .ok s
  | some n =>
    let node ← s.objs.nodes.get .danglingNode n
    .ok (if node.proc = some p then { s with objs := { s.objs with contextMgrNode := none } }
      else s)

/-- `binder_deferred_release`. Each loop empties a tree that nothing is added to meanwhile,
so it goes over the tree as it is found. -/
def binderDeferredRelease (rb : Balance ℕ) (s : State) (p : Id) : Except Fault State := do
  let proc ← s.procs.get .danglingProc p
  let s ← State.leaveContextMgr { s with binderProcs := s.binderProcs.erase p } p
  let s ← proc.threads.foldlM (fun s id => s.binderFreeThread p id) s
  let s ← (s.objs.procNodes p).foldlM (fun s n => s.nodeDied p n) s
  let objs ← (s.objs.refsByDesc p).foldlM (fun objs r => objs.binderDeleteRef r) s.objs
  let s ← State.binderReleaseWork { s with objs := objs } (.proc p)
  let s ← (s.allocatedBuffers p).foldlM (fun s b => s.bufferDied rb (p, b)) s
  .ok { s with procs := s.procs.free p, procStat := s.procStat.delete }

end State

/-- What a thread asks for in `binder_ioctl`; one round of a loop in the cases of
`BINDER_WRITE_READ`. -/
inductive Request where
  | write (cmd : Command)
  | readError (read : ErrorRead)
  | readWork (copied : Bool)
  | setContextMgr (euid : ℕ) (alloc : Bool)
  | threadExit
  /-- A request that changes nothing here. -/
  | other

/-- What user space can do with the device. -/
inductive Op where
  | openDevice
  | mmap (p : Id) (area : VmArea) (header : ℕ → BufferHeader) (step : ℕ → PageStep)
      (files : Files)
  | vmaClose (p : Id)
  /-- The process changes its file table itself, or `BINDER_DEFERRED_PUT_FILES`. -/
  | setFiles (p : Id) (files : Option Files)
  /-- `binder_ioctl` by the thread with a `pid`; `alloc` is for `binder_get_thread`. -/
  | ioctl (p : Id) (pid : ℕ) (alloc : Bool) (request : Request)
  /-- The last reference to the open file goes, and with it the mapping. -/
  | release (p : Id)

namespace State

/-- `binder_mmap` -/
def mmap (rb : Balance ℕ) (s : State) (p : Id) (area : VmArea) (header : ℕ → BufferHeader)
    (step : ℕ → PageStep) (files : Files) : Except Fault State := do
  let proc ← s.procs.get .danglingProc p
  if proc.area.isSome then .ok s
  else
    match ← Area.mmap rb area header step with
    | none => .ok s
    | some area => .ok (s.modifyProc p fun proc =>
        { proc with area := some area, files := some files })

/-- `binder_vma_close` -/
def vmaClose (s : State) (p : Id) : State :=
  s.modifyProc p fun proc => { proc with area := proc.area.map Area.close }

/-- The body of `binder_ioctl` for a thread. -/
def request (rb : Balance ℕ) (s : State) (p id : Id) : Request → Except Fault State
  | .write cmd => s.binderThreadWrite rb p id cmd
  | .readError read => .ok { s with calls := s.calls.modifyThread id (·.readError read) }
  | .readWork copied => s.readWork p id copied
  | .setContextMgr euid alloc => .ok (s.setContextMgr p euid alloc)
  | .threadExit => s.binderFreeThread p id
  | .other => .ok s

/-- `binder_ioctl` -/
def ioctl (rb : Balance ℕ) (s : State) (p : Id) (pid : ℕ) (alloc : Bool) (r : Request) :
    Except Fault State := do
  let (thread, s) ← s.binderGetThread p pid alloc
  match thread with
  | none => .ok s
  | some id => s.request rb p id r

/-- `binder_open` -/
def openDevice (s : State) : State :=
  { s with
    procs := s.procs.alloc ⟨[], none, none⟩
    binderProcs := s.procs.next :: s.binderProcs
    procStat := s.procStat.create }

/-- `binder_release`, with the end of the mapping before it and the deferred work behind it. -/
def release (rb : Balance ℕ) (s : State) (p : Id) : Except Fault State :=
  ((s.vmaClose p).modifyProc p fun proc => { proc with files := none }).binderDeferredRelease rb p

/-- One operation. A process that is gone has no file to operate on. -/
def step (rb : Balance ℕ) (s : State) : Op → Except Fault State
  | .openDevice => .ok s.openDevice
  | .mmap p area header step files =>
    if p ∈ s.binderProcs then s.mmap rb p area header step files else .ok s
  | .vmaClose p => .ok (s.vmaClose p)
  | .setFiles p files => .ok (s.modifyProc p fun proc => { proc with files := files })
  | .ioctl p pid alloc request =>
    if p ∈ s.binderProcs then s.ioctl rb p pid alloc request else .ok s
  | .release p => if p ∈ s.binderProcs then s.release rb p else .ok s

/-- A run of the driver. -/
def run (rb : Balance ℕ) (s : State) (ops : List Op) : Except Fault State := ops.foldlM (step rb) s

end State

end AndroidKernel.Binder
