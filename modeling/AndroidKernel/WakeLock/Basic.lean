import Mathlib.Data.BitVec

/-!
# Wake locks of `kernel/power/wakelock.c`

The lists of active and inactive locks, the expiry timer, and the work that suspends the device.
Every call runs under `list_lock`, but the jiffies go on while it does: a call is given the amounts
by which they advance before each of its readings. The statistics of `CONFIG_WAKELOCK_STAT` and the
debug output, which nothing else reads, are left out.
-/

namespace AndroidKernel.WakeLock

open Function

/-- The types of wake locks. -/
inductive LockType where
  | suspend
  | idle
  deriving DecidableEq, Repr

/-- `struct wake_lock`, with its flags one by one. -/
structure Lock where
  type : LockType
  initialized : Bool
  active : Bool
  autoExpire : Bool
  expires : BitVec 32
  deriving DecidableEq, Repr

/-- `expires - jiffies` as a signed number, at the given time. -/
def Lock.timeLeft (lock : Lock) (now : ℕ) : ℤ := (lock.expires - BitVec.ofNat 32 now).toInt

/-- A pending `expire_timer`: the time it is set for, and, for an observer, the times at which the
call that set it began to look at the locks and at which it set the timer. -/
structure ExpireTimer where
  expires : ℕ
  setFrom : ℕ
  setAt : ℕ
  deriving DecidableEq, Repr

/-- Where the work function `suspend` stands. -/
inductive Suspend where
  | idle
  /-- No lock was held, and `sys_sync` runs. -/
  | syncing (entryEventNum : ℕ)
  /-- `pm_suspend` has been entered. -/
  | entered (entryEventNum : ℕ)
  deriving DecidableEq, Repr

/-- The state of the wake locks, with the clock. -/
structure State where
  lock : ℕ → Lock
  activeWakeLocks : LockType → List ℕ
  inactiveLocks : List ℕ
  expireTimer : Option ExpireTimer
  currentEventNum : ℕ
  /-- `suspend_work` is queued. -/
  workQueued : Bool
  /-- For an observer: `suspend_work` has been queued since a suspend lock was last taken. -/
  queuedSince : Bool
  suspend : Suspend
  /-- The jiffies, without wrap-around. -/
  now : ℕ
  /-- How far the jiffies advance before each of the next readings. -/
  ticks : List ℕ

/-- `main_wake_lock` -/
def mainWakeLock : ℕ := 0

/-- `unknown_wakeup` -/
def unknownWakeup : ℕ := 1

/-- `HZ` -/
def hz : ℕ := 100

/-- `-EAGAIN` -/
def eagain : ℤ := -11

namespace State

/-- The state after `wakelocks_init`, which takes the main lock. -/
def init (now : ℕ) : State where
  lock a := ⟨.suspend, a = mainWakeLock || a = unknownWakeup, a = mainWakeLock, false, 0x7fffffff⟩
  activeWakeLocks
    | .suspend => [mainWakeLock]
    | .idle => []
  inactiveLocks := [unknownWakeup]
  expireTimer := none
  currentEventNum := 1
  workQueued := false
  queuedSince := false
  suspend := .idle
  now := now
  ticks := []

variable (s : State) (a : ℕ)

/-- The clock goes on to the next reading. -/
def readJiffies : State :=
  match s.ticks with
  | [] => s
  | tick :: ticks => { s with now := s.now + tick, ticks := ticks }

/-- `list_del(&lock->link)` -/
def unlink : State :=
  { s with
    activeWakeLocks := fun t => (s.activeWakeLocks t).erase a
    inactiveLocks := s.inactiveLocks.erase a }

/-- The flags `WAKE_LOCK_ACTIVE` and `WAKE_LOCK_AUTO_EXPIRE` are cleared, and the lock is moved to
the inactive ones. -/
def deactivate : State :=
  let lock := { s.lock a with active := false, autoExpire := false }
  let s := s.unlink a
  { s with lock := update s.lock a lock, inactiveLocks := a :: s.inactiveLocks }

/-- `expire_wake_lock` -/
def expireWakeLock : State := s.deactivate a

/-- The loop of `has_wake_lock_locked` over the rest of the list. -/
def walk (maxTimeout : ℤ) : List ℕ → State → ℤ × State
  | [], s => (maxTimeout, s)
  | a :: rest, s =>
    if (s.lock a).autoExpire then
      let s := s.readJiffies
      let timeout := (s.lock a).timeLeft s.now
      if timeout ≤ 0 then walk maxTimeout rest (s.expireWakeLock a)
      else if maxTimeout < timeout then walk timeout rest s
      else walk maxTimeout rest s
    else (-1, s)

/-- `has_wake_lock_locked` -/
def hasWakeLockLocked (t : LockType) : ℤ × State := walk 0 (s.activeWakeLocks t) s

/-- `queue_work(suspend_work_queue, &suspend_work)` -/
def queueWork : State := { s with workQueued := true, queuedSince := true }

/-- What `wake_lock_internal` and `wake_unlock` do with the result of `has_wake_lock_locked`. -/
def setExpireTimer (setFrom : ℕ) (expireIn : ℤ) : State :=
  if 0 < expireIn then
    let s := s.readJiffies
    { s with expireTimer := some ⟨s.now + expireIn.toNat, setFrom, s.now⟩ }
  else
    let s := { s with expireTimer := none }
    if expireIn = 0 then s.queueWork else s

/-- The part of `wake_lock_internal` that activates a lock with a timeout. -/
def activateTimeout (timeout : BitVec 32) : State :=
  let s := (s.unlink a).readJiffies
  let lock := { s.lock a with
    active := true, autoExpire := true, expires := BitVec.ofNat 32 s.now + timeout }
  let t := lock.type
  { s with
    lock := update s.lock a lock
    activeWakeLocks := update s.activeWakeLocks t (s.activeWakeLocks t ++ [a]) }

/-- The part of `wake_lock_internal` that activates a lock without a timeout. -/
def activate : State :=
  let s := s.unlink a
  let lock := { s.lock a with active := true, autoExpire := false, expires := 0x7fffffff }
  let t := lock.type
  { s with
    lock := update s.lock a lock
    activeWakeLocks := update s.activeWakeLocks t (a :: s.activeWakeLocks t) }

/-- A suspend lock has been taken. -/
def countEvent : State := { s with currentEventNum := s.currentEventNum + 1, queuedSince := false }

/-- `wake_lock_internal`, with the timeout if there is one. -/
def wakeLockInternal (timeout : Option (BitVec 32)) : State :=
  -- BUG_ON(!(lock->flags & WAKE_LOCK_INITIALIZED))
  if (s.lock a).initialized then
    let t := (s.lock a).type
    match timeout with
    | some timeout =>
      let s := s.activateTimeout a timeout
      if t = .suspend then
        let s := s.countEvent
        let (expireIn, s') := s.hasWakeLockLocked t
        s'.setExpireTimer s.now expireIn
      else s
    | none =>
      let s := s.activate a
      if t = .suspend then s.countEvent.setExpireTimer s.now (-1) else s
  else s

/-- `wake_lock` -/
def wakeLock : State := s.wakeLockInternal a none

/-- `wake_lock_timeout` -/
def wakeLockTimeout (timeout : BitVec 32) : State := s.wakeLockInternal a (some timeout)

/-- `wake_unlock` -/
def wakeUnlock : State :=
  if (s.lock a).initialized then
    let t := (s.lock a).type
    let s := s.deactivate a
    if t = .suspend then
      let (hasLock, s') := s.hasWakeLockLocked t
      s'.setExpireTimer s.now hasLock
    else s
  else s

/-- `wake_lock_init` of a lock that is on no list. -/
def wakeLockInit (t : LockType) : State :=
  if (s.lock a).initialized then s
  else
    { s with
      lock := update s.lock a
        { s.lock a with type := t, initialized := true, active := false, autoExpire := false }
      inactiveLocks := a :: s.inactiveLocks }

/-- `wake_lock_destroy` -/
def wakeLockDestroy : State :=
  if (s.lock a).initialized then
    let lock := { s.lock a with initialized := false }
    { s.unlink a with lock := update s.lock a lock }
  else s

/-- The expiry of `expire_timer`, with its handler `expire_wake_locks`. -/
def expireWakeLocks : State :=
  match s.expireTimer with
  | none => s
  | some timer =>
    if timer.expires ≤ s.now then
      let (hasLock, s) := { s with expireTimer := none }.hasWakeLockLocked .suspend
      if hasLock = 0 then s.queueWork else s
    else s

/-- `power_suspend_late` -/
def powerSuspendLate : ℤ × State :=
  let (hasLock, s) := s.hasWakeLockLocked .suspend
  (if hasLock ≠ 0 then eagain else 0, s)

/-- The work function `suspend` up to its check. -/
def suspendCheck : State :=
  if s.workQueued ∧ s.suspend = .idle then
    let (hasLock, s) := { s with workQueued := false }.hasWakeLockLocked .suspend
    if hasLock ≠ 0 then s else { s with suspend := .syncing s.currentEventNum }
  else s

/-- The call of `pm_suspend`, after `sys_sync`. -/
def pmSuspend : State :=
  match s.suspend with
  | .syncing entryEventNum => { s with suspend := .entered entryEventNum }
  | _ => s

/-- The rest of `suspend`, after `pm_suspend` has returned. -/
def suspendReturn : State :=
  match s.suspend with
  | .entered entryEventNum =>
    let s := { s with suspend := .idle }
    if s.currentEventNum = entryEventNum then
      s.wakeLockTimeout unknownWakeup (BitVec.ofNat 32 (hz / 2))
    else s
  | _ => s

end State

/-- One call, or the passage of time. -/
inductive Op where
  | wakeLock (a : ℕ)
  | wakeLockTimeout (a : ℕ) (timeout : BitVec 32)
  | wakeUnlock (a : ℕ)
  | wakeLockInit (a : ℕ) (t : LockType)
  | wakeLockDestroy (a : ℕ)
  | expireWakeLocks
  | suspendCheck
  | pmSuspend
  | powerSuspendLate
  | suspendReturn
  | advance (jiffies : ℕ)
  deriving Repr

/-- What a call does to the state. -/
def State.apply (s : State) : Op → State
  | .wakeLock a => s.wakeLock a
  | .wakeLockTimeout a timeout => s.wakeLockTimeout a timeout
  | .wakeUnlock a => s.wakeUnlock a
  | .wakeLockInit a t => s.wakeLockInit a t
  | .wakeLockDestroy a => s.wakeLockDestroy a
  | .expireWakeLocks => s.expireWakeLocks
  | .suspendCheck => s.suspendCheck
  | .pmSuspend => s.pmSuspend
  | .powerSuspendLate => s.powerSuspendLate.2
  | .suspendReturn => s.suspendReturn
  | .advance jiffies => { s with now := s.now + jiffies }

/-- A call with the ticks of the clock during it. -/
structure Call where
  op : Op
  ticks : List ℕ := []

/-- One call. -/
def State.step (s : State) (call : Call) : State :=
  { State.apply { s with ticks := call.ticks } call.op with ticks := [] }

/-- A sequence of calls after `wakelocks_init`. -/
def State.run (now : ℕ) (calls : List Call) : State := calls.foldl State.step (State.init now)

end AndroidKernel.WakeLock
