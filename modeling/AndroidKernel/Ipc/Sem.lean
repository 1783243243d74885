import Mathlib.Algebra.Order.Ring.Int
import Mathlib.Algebra.Order.Ring.Nat

/-!
# System V semaphores

One semaphore array of `ipc/sem.c`: its values, the undo adjustments of the processes, and the
operations that wait, all of them in `sem_pending` and those on one semaphore also in the list of
that semaphore. Every call runs under the lock of the array, up to the point where it sleeps.
-/

namespace AndroidKernel.Ipc

open Function

/-- `SEMVMX` -/
def semvmx : ℤ := 32767

/-- `SEMAEM` -/
def semaem : ℤ := 32767

/-- `-ERANGE` -/
def erange : ℤ := -34

/-- `-EAGAIN` -/
def eagain : ℤ := -11

/-- `-EINTR` -/
def eintr : ℤ := -4

/-- `-EINVAL` -/
def einval : ℤ := -22

/-- `-E2BIG` -/
def e2big : ℤ := -7

/-- `-EFBIG` -/
def efbig : ℤ := -27

/-- `-EACCES` -/
def eacces : ℤ := -13

/-- `struct sembuf`, with the flags `IPC_NOWAIT` and `SEM_UNDO` -/
structure Sembuf where
  semNum : ℕ
  semOp : ℤ
  nowait : Bool
  undo : Bool
  deriving DecidableEq

/-- `struct sem_queue`: a task that waits for its operations. -/
structure Queue where
  task : ℕ
  sops : List Sembuf
  /-- The undo structure of its process, if an operation has `SEM_UNDO`. -/
  undo : Option ℕ
  pid : ℤ
  deriving DecidableEq

/-- Some operation alters a value. -/
def altering (sops : List Sembuf) : Bool := sops.any fun sop => sop.semOp ≠ 0

/-- What operations read and write. -/
structure Core where
  semval : ℕ → ℤ
  sempid : ℕ → ℤ
  semadj : ℕ → ℕ → ℤ

/-- `struct sem_array` -/
structure SemArray where
  semNsems : ℕ
  core : Core
  /-- The undo structures for this array. -/
  listId : List ℕ
  semPending : List Queue
  /-- `sem_pending` of each semaphore -/
  simplePending : ℕ → List Queue
  complexCount : ℤ

section TryAtomicSemop

/-- The adjustments in an undo structure. -/
def Core.adjustments (c : Core) : Option ℕ → ℕ → ℤ
  | some un => c.semadj un
  | none => fun _ => 0

/-- The loop at `undo:` over the operations that were done, the last one first. -/
def undoLoop (v : ℕ → ℤ) : List Sembuf → ℕ → ℤ
  | [] => v
  | sop :: done => undoLoop (update v sop.semNum (v sop.semNum - sop.semOp)) done

/-- The value at `would_block:` -/
def Sembuf.wouldBlock (sop : Sembuf) : ℤ := if sop.nowait then eagain else 1

/-- The first loop of `try_atomic_semop`, with the operations that were done already. -/
def tryLoop (adj : ℕ → ℤ) (v : ℕ → ℤ) : List Sembuf → List Sembuf → ℤ × (ℕ → ℤ)
  | [], _ => (0, v)
  | sop :: sops, done =>
    let result := v sop.semNum
    if sop.semOp = 0 ∧ result ≠ 0 then (sop.wouldBlock, undoLoop v done)
    else
      let result := result + sop.semOp
      if result < 0 then (sop.wouldBlock, undoLoop v done)
      else if result > semvmx then (erange, undoLoop v done)
      else if sop.undo ∧ (adj sop.semNum - sop.semOp < -semaem - 1 ∨
          adj sop.semNum - sop.semOp > semaem) then (erange, undoLoop v done)
      else tryLoop adj (update v sop.semNum result) sops (sop :: done)

/-- The second loop of `try_atomic_semop` for one operation; `semadj` holds `short` values. -/
def Core.record (un : Option ℕ) (pid : ℤ) (sop : Sembuf) (c : Core) : Core :=
  { c with
    sempid := update c.sempid sop.semNum pid
    semadj := match un with
      | some un =>
        if sop.undo then
          update c.semadj un (update (c.semadj un) sop.semNum
            (Int.bmod (c.semadj un sop.semNum - sop.semOp) (2 ^ 16)))
        else c.semadj
      | none => c.semadj }

/-- `try_atomic_semop` -/
def Core.tryAtomicSemop (c : Core) (sops : List Sembuf) (un : Option ℕ) (pid : ℤ) : ℤ × Core :=
  let (result, v) := tryLoop (c.adjustments un) c.semval sops []
  if result = 0 then (0, sops.foldr (Core.record un pid) { c with semval := v })
  else (result, { c with semval := v })

end TryAtomicSemop

/-- An operation that was woken, with its result. -/
abbrev Woken := List (Queue × ℤ)

namespace SemArray

variable (sma : SemArray)

/-- `unlink_queue` -/
def unlinkQueue (q : Queue) : SemArray :=
  let sma := { sma with semPending := sma.semPending.erase q }
  match q.sops with
  | [sop] => { sma with
      simplePending :=
        update sma.simplePending sop.semNum ((sma.simplePending sop.semNum).erase q) }
  | _ => { sma with complexCount := sma.complexCount - 1 }

/-- `check_restart`; none for a `BUG_ON`. -/
def checkRestart (q : Queue) : Option Bool :=
  if altering q.sops = false then some false
  else if sma.complexCount ≠ 0 then some true
  else
    match q.sops with
    | [sop] =>
      match sma.simplePending sop.semNum with
      | [] => some false
      | h :: _ =>
        if sma.core.semval sop.semNum ≠ 0 then if 0 ≤ sop.semOp then none else some false
        else
          match h.sops with
          | [hsop] => if hsop.semNum ≠ sop.semNum then none else some (hsop.semOp = 0)
          | _ => none
    | _ => some true

/-- One walk of `update_queue` over the rest of the list; also whether it ends at `goto again`. -/
def walk (semnum : Option ℕ) (sma : SemArray) (woken : Woken) :
    List Queue → Option (SemArray × Woken × Bool)
  | [] => some (sma, woken, false)
  | q :: qs =>
    if semnum.any (fun n => sma.core.semval n = 0) ∧ altering q.sops then some (sma, woken, false)
    else
      let (error, core) := sma.core.tryAtomicSemop q.sops q.undo q.pid
      let sma := { sma with core := core }
      if error > 0 then walk semnum sma woken qs
      else
        let sma := sma.unlinkQueue q
        let woken := woken ++ [(q, error)]
        if error ≠ 0 then walk semnum sma woken qs
        else do
          let restart ← sma.checkRestart q
          if restart then return (sma, woken, true) else walk semnum sma woken qs

/-- The list that `update_queue` walks. -/
def pendingList : Option ℕ → List Queue
  | none => sma.semPending
  | some n => sma.simplePending n

/-- The walks of `update_queue`; the number bounds them. -/
def walks (semnum : Option ℕ) : ℕ → SemArray → Woken → Option (SemArray × Woken)
  | 0, _, _ => none
  | fuel + 1, sma, woken => do
    let (sma, woken, again) ← walk semnum sma woken (sma.pendingList semnum)
    if again then walks semnum fuel sma woken else return (sma, woken)

/-- `update_queue` -/
def updateQueue (semnum : Option ℕ) (woken : Woken) : Option (SemArray × Woken) :=
  let semnum := if sma.complexCount ≠ 0 then none else semnum
  walks semnum (sma.semPending.length + 1) sma woken

/-- The loop of `do_smart_update` -/
def smartLoop (sma : SemArray) (woken : Woken) : List Sembuf → Option (SemArray × Woken)
  | [] => some (sma, woken)
  | sop :: sops =>
    if sop.semOp > 0 ∨ (sop.semOp < 0 ∧ sma.core.semval sop.semNum = 0) then do
      let (sma, woken) ← sma.updateQueue (some sop.semNum) woken
      smartLoop sma woken sops
    else smartLoop sma woken sops

/-- `do_smart_update` -/
def doSmartUpdate (sops : Option (List Sembuf)) : Option (SemArray × Woken) :=
  match sops with
  | none => sma.updateQueue none []
  | some sops => if sma.complexCount ≠ 0 then sma.updateQueue none [] else sma.smartLoop [] sops

/-- `find_alloc_undo` -/
def findAllocUndo (undo : Option ℕ) : SemArray :=
  match undo with
  | some un => if un ∈ sma.listId then sma else { sma with listId := un :: sma.listId }
  | none => sma

/-- The part of `semtimedop` where the task is put on the lists. -/
def enqueue (q : Queue) : SemArray :=
  let add (l : List Queue) : List Queue := if altering q.sops then l ++ [q] else q :: l
  let sma := { sma with semPending := add sma.semPending }
  match q.sops with
  | [sop] => { sma with
      simplePending := update sma.simplePending sop.semNum (add (sma.simplePending sop.semNum)) }
  | _ => { sma with complexCount := sma.complexCount + 1 }

/-- `semtimedop` up to the point where it returns or sleeps. The result is none when it sleeps.
`permitted` is what `ipcperms` and the security module say; the process has the undo structure
`un`, and `semopm` is the limit for the number of operations. -/
def semtimedop (semopm : ℕ) (task : ℕ) (un : ℕ) (pid : ℤ) (permitted : Bool) (sops : List Sembuf) :
    Option (SemArray × Option ℤ × Woken) :=
  if sops.length < 1 then some (sma, some einval, [])
  else if sops.length > semopm then some (sma, some e2big, [])
  else
    let undo := if sops.any Sembuf.undo then some un else none
    let sma := sma.findAllocUndo undo
    if sops.any (fun sop => sma.semNsems ≤ sop.semNum) then some (sma, some efbig, [])
    else if !permitted then some (sma, some eacces, [])
    else
      let (error, core) := sma.core.tryAtomicSemop sops undo pid
      let sma := { sma with core := core }
      if error ≤ 0 then
        if altering sops ∧ error = 0 then do
          let (sma, woken) ← sma.doSmartUpdate (some sops)
          return (sma, some error, woken)
        else some (sma, some error, [])
      else some (sma.enqueue ⟨task, sops, undo, pid⟩, none, [])

/-- `SETVAL` -/
def setval (semnum : ℕ) (val pid : ℤ) : Option (SemArray × Option ℤ × Woken) :=
  if sma.semNsems ≤ semnum then some (sma, some einval, [])
  else if val > semvmx ∨ val < 0 then some (sma, some erange, [])
  else do
    let core : Core :=
      ⟨update sma.core.semval semnum val, update sma.core.sempid semnum pid,
        fun un => update (sma.core.semadj un) semnum 0⟩
    let (sma, woken) ← { sma with core := core }.doSmartUpdate none
    return (sma, some 0, woken)

/-- `SETALL`; the values are `ushort`. -/
def setall (semIo : ℕ → ℕ) : Option (SemArray × Option ℤ × Woken) :=
  if (List.range sma.semNsems).any (fun i => semvmx < semIo i) then some (sma, some erange, [])
  else do
    let core := { sma.core with
      semval := fun i => if i < sma.semNsems then semIo i else sma.core.semval i
      semadj := fun un i => if i < sma.semNsems then 0 else sma.core.semadj un i }
    let (sma, woken) ← { sma with core := core }.doSmartUpdate none
    return (sma, some 0, woken)

/-- `exit_sem` for this array, when the last task of the process is gone. -/
def exitSem (un : ℕ) (pid : ℤ) : Option (SemArray × Option ℤ × Woken) :=
  if un ∈ sma.listId then do
    let adjusted (i : ℕ) : Bool := i < sma.semNsems ∧ sma.core.semadj un i ≠ 0
    let core : Core :=
      ⟨fun i => if adjusted i then min semvmx (max 0 (sma.core.semval i + sma.core.semadj un i))
          else sma.core.semval i,
        fun i => if adjusted i then pid else sma.core.sempid i,
        update sma.core.semadj un fun _ => 0⟩
    let (sma, woken) ← { sma with core := core, listId := sma.listId.erase un }.doSmartUpdate none
    return (sma, none, woken)
  else some (sma, none, [])

/-- A signal or the timeout ends the sleep of a task: the end of `semtimedop`. -/
def wakeup (task : ℕ) (timeout : Bool) : Option (SemArray × Option ℤ × Woken) :=
  match sma.semPending.find? (fun q => q.task = task) with
  | none => some (sma, none, [])
  | some q => some (sma.unlinkQueue q, some (if timeout then eagain else eintr), [])

end SemArray

/-- A call on the array. -/
inductive Call where
  | semtimedop (task un : ℕ) (pid : ℤ) (permitted : Bool) (sops : List Sembuf)
  | setval (semnum : ℕ) (val pid : ℤ)
  | setall (semIo : ℕ → ℕ)
  | exitSem (un : ℕ) (pid : ℤ)
  | wakeup (task : ℕ) (timeout : Bool)

/-- One call, with its result (none for a task that sleeps on) and the operations it woke. -/
def SemArray.step (semopm : ℕ) (sma : SemArray) : Call → Option (SemArray × Option ℤ × Woken)
  | .semtimedop task un pid permitted sops => sma.semtimedop semopm task un pid permitted sops
  | .setval semnum val pid => sma.setval semnum val pid
  | .setall semIo => sma.setall semIo
  | .exitSem un pid => sma.exitSem un pid
  | .wakeup task timeout => sma.wakeup task timeout

/-- A call that can be made: a task that sleeps makes none, and a process ends when none of its
tasks sleeps. -/
def SemArray.Possible (sma : SemArray) : Call → Prop
  | .semtimedop task _ _ _ _ => ∀ q ∈ sma.semPending, q.task ≠ task
  | .exitSem un _ => ∀ q ∈ sma.semPending, q.undo ≠ some un
  | _ => True

/-- A new array. -/
def SemArray.init (semNsems : ℕ) : SemArray :=
  ⟨semNsems, ⟨fun _ => 0, fun _ => 0, fun _ _ => 0⟩, [], [], fun _ => [], 0⟩

end AndroidKernel.Ipc
