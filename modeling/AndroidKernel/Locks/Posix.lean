import Mathlib.Algebra.Order.Ring.Int
import Mathlib.Algebra.Order.Ring.Nat

/-!
# POSIX file locks

`__posix_lock_file` of `fs/locks.c` on the lock list of an inode. Two owners are the same when
`posix_same_owner` says so. The lists of blocked requests are left out: they hold no locks.
-/

namespace AndroidKernel.Locks

/-- `fl_type` -/
inductive LockType where
  | rdlck
  | wrlck
  | unlck
  deriving DecidableEq

/-- `OFFSET_MAX` -/
def offsetMax : ℤ := 2 ^ 63 - 1

/-- `-EAGAIN` -/
def eagain : ℤ := -11

/-- `-EDEADLK` -/
def edeadlk : ℤ := -35

/-- `-ENOLCK` -/
def enolck : ℤ := -37

/-- `-ENOENT` -/
def enoent : ℤ := -2

/-- `FILE_LOCK_DEFERRED` -/
def fileLockDeferred : ℤ := 1

/-- `struct file_lock` -/
structure FileLock (ω : Type) where
  isPosix : Bool
  owner : ω
  type : LockType
  start : ℤ
  stop : ℤ
  deriving DecidableEq

/-- A request as `flock_to_posix_lock` makes it, with the flags `FL_ACCESS`, `FL_SLEEP` and
`FL_EXISTS`. -/
structure Request (ω : Type) where
  owner : ω
  type : LockType
  start : ℤ
  stop : ℤ
  flAccess : Bool
  flSleep : Bool
  flExists : Bool
  start_nonneg : 0 ≤ start
  start_le : start ≤ stop
  stop_le : stop ≤ offsetMax

/-- What the allocator answers for the two new locks, and `posix_locks_deadlock`. -/
structure Answers where
  newFl : Bool
  newFl2 : Bool
  deadlock : Bool

variable {ω : Type} [DecidableEq ω]

/-- The request as a lock. -/
def Request.lock (request : Request ω) : FileLock ω :=
  ⟨true, request.owner, request.type, request.start, request.stop⟩

/-- `locks_overlap` -/
def locksOverlap (fl1 fl2 : FileLock ω) : Bool := fl2.start ≤ fl1.stop ∧ fl1.start ≤ fl2.stop

/-- `locks_conflict` -/
def locksConflict (callerFl sysFl : FileLock ω) : Bool :=
  sysFl.type = .wrlck ∨ callerFl.type = .wrlck

/-- `posix_locks_conflict` -/
def posixLocksConflict (callerFl sysFl : FileLock ω) : Bool :=
  if !sysFl.isPosix || callerFl.owner = sysFl.owner then false
  else if !locksOverlap callerFl sysFl then false
  else locksConflict callerFl sysFl

/-- Where the walk over the locks of the owner is. The lock that `request` points to is kept apart:
when it is in the list, `place` says how many locks stand before it. -/
structure Walk (ω : Type) where
  /-- The locks before `*before`. -/
  passed : List (FileLock ω)
  /-- The locks from `*before` on. -/
  rest : List (FileLock ω)
  request : FileLock ω
  place : Option ℕ
  /-- The position of `left` in the list. -/
  left : Option ℕ
  /-- `right` is the lock at `*before`. -/
  right : Bool
  added : Bool

/-- The loop of `__posix_lock_file` over the locks of the owner, from `rest` on. -/
def walk (passed : List (FileLock ω)) (request : FileLock ω) (place left : Option ℕ)
    (added : Bool) : List (FileLock ω) → Walk ω
  | [] => ⟨passed, [], request, place, left, false, added⟩
  | fl :: rest =>
    if request.owner ≠ fl.owner then ⟨passed, fl :: rest, request, place, left, false, added⟩
    else if request.type = fl.type then
      if fl.stop < request.start - 1 then walk (passed ++ [fl]) request place left added rest
      else if fl.start - 1 > request.stop then
        ⟨passed, fl :: rest, request, place, left, false, added⟩
      else
        let start := min fl.start request.start
        let stop := max fl.stop request.stop
        if added then
          walk passed { request with start := start, stop := stop } place left added rest
        else
          walk passed { fl with start := start, stop := stop } (some passed.length) left true rest
    else if fl.stop < request.start then walk (passed ++ [fl]) request place left added rest
    else if fl.start > request.stop then
      ⟨passed, fl :: rest, request, place, left, false, added⟩
    else
      let added := added || request.type = .unlck
      let left := if fl.start < request.start then some passed.length else left
      if fl.stop > request.stop then ⟨passed, fl :: rest, request, place, left, true, added⟩
      else if fl.start ≥ request.start then
        if added then walk passed request place left added rest
        else
          walk passed
            { fl with start := request.start, stop := request.stop, type := request.type }
            (some passed.length) left true rest
      else walk (passed ++ [fl]) request place left added rest

namespace Walk

variable (w : Walk ω)

/-- The locks before `*before`, with the one that `request` points to. -/
def front : List (FileLock ω) :=
  match w.place with
  | none => w.passed
  | some i => w.passed.take i ++ [w.request] ++ w.passed.drop i

/-- The list as the walk leaves it. -/
def locks : List (FileLock ω) := w.front ++ w.rest

/-- `left` and `right` are the same lock. -/
def split : Bool := w.right ∧ w.left = some w.passed.length

/-- The new end of `left`, when that is a lock before `*before`. -/
def trimLeft : Walk ω :=
  match w.left with
  | none => w
  | some i =>
    { w with passed := w.passed.modify i fun fl => { fl with stop := w.request.start - 1 } }

/-- The second half of `__posix_lock_file`. -/
def finish (flExists newFl newFl2 : Bool) : ℤ × List (FileLock ω) :=
  if w.split ∧ !newFl2 then (enolck, w.locks)
  else if !w.added ∧ w.request.type = .unlck then (if flExists then enoent else 0, w.locks)
  else if !w.added ∧ !newFl then (enolck, w.locks)
  else
    let new := if w.added then [] else [w.request]
    let copy := if w.split then w.rest.head?.toList.map fun fl =>
        { fl with stop := w.request.start - 1 } else []
    let rest := if w.right then w.rest.modify 0 fun fl => { fl with start := w.request.stop + 1 }
      else w.rest
    (0, (if w.split then w else w.trimLeft).front ++ copy ++ new ++ rest)

end Walk

/-- The first loop of `__posix_lock_file` skips a lock. -/
def skipped (owner : ω) (fl : FileLock ω) : Bool := !fl.isPosix || owner ≠ fl.owner

/-- `__posix_lock_file` -/
def posixLockFile (request : Request ω) (answers : Answers) (flock : List (FileLock ω)) :
    ℤ × List (FileLock ω) :=
  let alloc := !request.flAccess &&
    (request.type ≠ .unlck || request.start ≠ 0 || request.stop ≠ offsetMax)
  let conflict := request.type ≠ .unlck ∧
    flock.any fun fl => fl.isPosix && posixLocksConflict request.lock fl
  if conflict then
    (if !request.flSleep then eagain else if answers.deadlock then edeadlk else fileLockDeferred,
      flock)
  else if request.flAccess then (0, flock)
  else
    let skip := skipped request.owner
    let w := walk (flock.takeWhile skip) request.lock none none false (flock.dropWhile skip)
    w.finish request.flExists (alloc && answers.newFl) (alloc && answers.newFl2)

end AndroidKernel.Locks
