import AndroidKernel.Binder.BufferRuns
import AndroidKernel.Binder.Calls

/-!
# The state of the driver

Processes with their mapped area and file table, on top of the shared objects and the
threads. The area of a process carries the allocator's invariants with it, so that an
area that breaks them cannot be built.
-/

namespace AndroidKernel.Binder

open RbTree Function

/-- A mapped area that satisfies the allocator's invariants. -/
abbrev Area := { p : BufferArea // p.Sound none }

/-- `binder_alloc_buf` on the area of a process. -/
def Area.alloc (rb : Balance ℕ) (a : Area) (dataSize offsetsSize : ℕ) (isAsync : Bool)
    (faults : PageFaults) : Except Fault (Option ℕ × Area) :=
  match h : a.1.binderAllocBuf rb dataSize offsetsSize isAsync faults with
  | .error f => .error f
  | .ok (r, p) => .ok (r, ⟨p, by
      obtain ⟨r', p', hok, hsound, -⟩ := a.2.binderAllocBuf rb dataSize offsetsSize isAsync faults
      cases h.symm.trans hok
      exact hsound⟩)

/-- `binder_free_buf` on the area of a process. -/
def Area.free (rb : Balance ℕ) (a : Area) (b : ℕ) : Except Fault Area :=
  if hb : b ∈ a.1.allocatedBuffers.inorder then
    match h : a.1.binderFreeBuf rb b with
    | .error f => .error f
    | .ok p => .ok ⟨p, by
        obtain ⟨t, pages, hok, hsound⟩ := a.2.binderFreeBuf rb hb
        cases h.symm.trans hok
        exact hsound⟩
  else .error .danglingBuffer

/-- `binder_mmap` -/
def Area.mmap (rb : Balance ℕ) (area : VmArea) (header : ℕ → BufferHeader)
    (step : ℕ → PageStep) : Except Fault (Option Area) :=
  match h : binderMmap rb area header step with
  | .error f => .error f
  | .ok none => .ok none
  | .ok (some p) => .ok (some ⟨p, by
      obtain ⟨r, hok, hsound⟩ := binderMmap_ok rb area header step
      cases h.symm.trans hok
      exact (hsound p rfl).1⟩)

/-- `binder_vma_close` on the area of a process. -/
def Area.close (a : Area) : Area :=
  ⟨{ a.1 with vma := false },
    a.2.toInv.congr ⟨rfl, rfl, rfl⟩ (fun _ _ => rfl) rfl rfl, ⟨a.2.used_le, a.2.end_le⟩,
    a.2.resident⟩

/-- A file table: the open files by descriptor, and where the search for a free one starts. -/
structure Files where
  fd : ℕ → Option ℕ
  nextFd : ℕ
  /-- All descriptors from here on are free. -/
  limit : ℕ
  fd_of_le : ∀ i, limit ≤ i → fd i = none

/-- `find_next_zero_bit` over `n` descriptors. -/
def Files.nextZero (fd : ℕ → Option ℕ) (start : ℕ) : ℕ → ℕ
  | 0 => start
  | n + 1 => if (fd start).isNone then start else Files.nextZero fd (start + 1) n

/-- The descriptor that `task_get_unused_fd_flags` picks. -/
def Files.unusedFd (f : Files) : ℕ := Files.nextZero f.fd f.nextFd (f.limit - f.nextFd)

/-- `task_get_unused_fd_flags` and `task_fd_install` -/
def Files.install (f : Files) (file : ℕ) : Files where
  fd := update f.fd f.unusedFd (some file)
  nextFd := f.unusedFd + 1
  limit := max f.limit (f.unusedFd + 1)
  fd_of_le i hi := by
    rw [update_of_ne (by omega)]
    exact f.fd_of_le i (by omega)

/-- `task_close_fd` -/
def Files.close (f : Files) (i : ℕ) : Files :=
  if (f.fd i).isSome then
    { fd := update f.fd i none
      nextFd := min i f.nextFd
      limit := f.limit
      fd_of_le := by
        intro j hj
        by_cases hij : j = i
        · rw [hij, update_self]
        · rw [update_of_ne hij]
          exact f.fd_of_le j hj }
  else f

/-- `struct binder_proc`, besides its trees and lists. -/
structure Proc where
  /-- `proc->threads`, by `pid` -/
  threads : List Id
  /-- The mapped area; none before `binder_mmap`. -/
  area : Option Area
  files : Option Files

/-- What was accepted from user space and handed out to it. -/
inductive Event where
  /-- `BC_TRANSACTION` of a thread was accepted as the synchronous transaction `t`. -/
  | call (t thread : Id)
  /-- `BC_TRANSACTION` was accepted as the one-way transaction `t` for a node. -/
  | oneWay (t node : Id)
  /-- `BC_REPLY` to the transaction `call` was accepted as the transaction `t`. -/
  | reply (t call : Id)
  /-- `BR_TRANSACTION` for the one-way transaction `t` for a node. -/
  | oneWayRead (t node : Id)
  /-- `BR_TRANSACTION` for the synchronous transaction `t`. -/
  | callRead (t thread : Id)
  /-- `BR_REPLY` for the transaction `t`. -/
  | replyRead (t thread : Id)
  /-- `BC_REQUEST_DEATH_NOTIFICATION` of a process was accepted with a new death record. -/
  | deathRequested (d p : Id)
  /-- `BR_DEAD_BINDER` for a death record. -/
  | deadBinder (d : Id)
  deriving DecidableEq, Repr

/-- The state of the driver. The events are a record of the run: no function reads them. -/
structure State where
  objs : Objs
  calls : Calls
  procs : Heap Proc
  /-- `binder_procs`, the processes that have the device open. -/
  binderProcs : List Id
  /-- `binder_context_mgr_uid`, none for `-1` -/
  contextMgrUid : Option ℕ
  procStat : Stat
  events : List Event

namespace State

/-- The state after the driver is loaded. -/
def init : State where
  objs := {
    nodes := .empty
    refs := .empty
    deaths := .empty
    works := .empty
    procNodes := fun _ => []
    refsByDesc := fun _ => []
    refsByNode := fun _ => []
    contextMgrNode := none
    nodeStat := ⟨0, 0⟩
    refStat := ⟨0, 0⟩
    deathStat := ⟨0, 0⟩ }
  calls := {
    threads := .empty
    transactions := .empty
    completes := .empty
    buffers := fun _ => ⟨false, none, none, fun _ => 0, []⟩
    threadStat := ⟨0, 0⟩
    transactionStat := ⟨0, 0⟩
    completeStat := ⟨0, 0⟩ }
  procs := .empty
  binderProcs := []
  contextMgrUid := none
  procStat := ⟨0, 0⟩
  events := []

/-- Record an event. -/
def record (s : State) (e : Event) : State := { s with events := s.events ++ [e] }

/-- Change a process. -/
def modifyProc (s : State) (p : Id) (f : Proc → Proc) : State :=
  { s with procs := s.procs.modify p f }

end State

end AndroidKernel.Binder
