import Mathlib.Algebra.Order.Ring.Int
import Mathlib.Algebra.Order.Ring.Nat

/-!
# The timer wheel

One `struct tvec_base` of `kernel/timer.c` with its five vectors of lists, on a machine with 32-bit
jiffies. `__run_timers` drops the lock for every handler, so it is modelled as the steps between two
points where other calls may come: a tick, which moves a list of the first vector to the work list,
and the expiry of the first timer there. The guess `next_timer` for the idle loop is left out.
-/

namespace AndroidKernel.Timer

open Function

/-- Arithmetic on `unsigned long` -/
def u32 (n : ℕ) : ℕ := n % 2 ^ 32

/-- Subtraction on `unsigned long` -/
def u32Sub (a b : ℕ) : ℕ := u32 (a + 2 ^ 32 - b % 2 ^ 32)

/-- `time_after(a, b)` -/
def timeAfter (a b : ℕ) : Bool := 2 ^ 31 ≤ u32Sub b a

/-- `time_after_eq(a, b)` -/
def timeAfterEq (a b : ℕ) : Bool := u32Sub a b < 2 ^ 31

/-- The vectors of a base. -/
inductive Level where
  | tv1
  | tv2
  | tv3
  | tv4
  | tv5
  deriving DecidableEq

/-- The number of bits of the expiry below the index into the vector. -/
def Level.shift : Level → ℕ
  | .tv1 => 0
  | .tv2 => 8
  | .tv3 => 14
  | .tv4 => 20
  | .tv5 => 26

/-- A list that holds timers: an entry of a vector, or the work list of `__run_timers`. -/
inductive Place where
  | vec (level : Level) (index : ℕ)
  | work
  deriving DecidableEq

/-- `struct tvec_base` and the fields of the timers. -/
structure Base (ι : Type) where
  jiffies : ℕ
  timerJiffies : ℕ
  lists : Place → List ι
  expires : ι → ℕ
  /-- `timer_pending` -/
  pending : ι → Bool
  slack : ι → ℤ

variable {ι : Type} [DecidableEq ι]

/-- The list where `internal_add_timer` puts a timer. -/
def vecOf (timerJiffies expires : ℕ) : Place :=
  let idx := u32Sub expires timerJiffies
  if idx < 2 ^ 8 then .vec .tv1 (expires % 2 ^ 8)
  else if idx < 2 ^ 14 then .vec .tv2 ((expires / 2 ^ 8) % 2 ^ 6)
  else if idx < 2 ^ 20 then .vec .tv3 ((expires / 2 ^ 14) % 2 ^ 6)
  else if idx < 2 ^ 26 then .vec .tv4 ((expires / 2 ^ 20) % 2 ^ 6)
  else if 2 ^ 31 ≤ idx then .vec .tv1 (timerJiffies % 2 ^ 8)
  else .vec .tv5 ((expires / 2 ^ 26) % 2 ^ 6)

namespace Base

variable (s : Base ι)

/-- `internal_add_timer` -/
def internalAddTimer (x : ι) : Base ι :=
  let p := vecOf s.timerJiffies (s.expires x)
  { s with lists := update s.lists p (s.lists p ++ [x]) }

/-- `detach_timer`: the entry is taken off the list that it is on. -/
def detachTimer (x : ι) : Base ι := { s with lists := fun p => (s.lists p).erase x }

/-- `apply_slack` -/
def applySlack (x : ι) (expires : ℕ) : ℕ :=
  let limit :=
    if 0 ≤ s.slack x then u32 (expires + (s.slack x).toNat)
    else if timeAfter expires s.jiffies then u32 (expires + u32Sub expires s.jiffies / 256)
    else expires
  let mask := expires ^^^ limit
  if mask = 0 then expires else limit / 2 ^ mask.log2 * 2 ^ mask.log2

/-- `__mod_timer` for a timer of this base -/
def modTimerBase (x : ι) (expires : ℕ) : Base ι :=
  let s := if s.pending x then s.detachTimer x else s
  let s := { s with
    expires := update s.expires x expires
    pending := update s.pending x true }
  s.internalAddTimer x

/-- `del_timer` -/
def delTimer (x : ι) : Base ι :=
  if s.pending x then { s.detachTimer x with pending := update s.pending x false } else s

/-- `cascade`: the timers of one list are added again, where they belong now. -/
def cascade (level : Level) (index : ℕ) : Base ι :=
  (s.lists (.vec level index)).foldl internalAddTimer
    { s with lists := update s.lists (.vec level index) [] }

/-- The list of a vector that a tick looks at, `INDEX(N)`. -/
def index (level : Level) : ℕ := (s.timerJiffies / 2 ^ level.shift) % 2 ^ 6

/-- The cascades at the start of a tick. -/
def cascades : Base ι :=
  if s.timerJiffies % 2 ^ 8 ≠ 0 then s
  else
    let s := s.cascade .tv2 (s.index .tv2)
    if s.index .tv2 ≠ 0 then s
    else
      let s := s.cascade .tv3 (s.index .tv3)
      if s.index .tv3 ≠ 0 then s
      else
        let s := s.cascade .tv4 (s.index .tv4)
        if s.index .tv4 ≠ 0 then s
        else s.cascade .tv5 (s.index .tv5)

/-- One round of the outer loop of `__run_timers`, up to the work list. -/
def tick : Base ι :=
  let p := Place.vec .tv1 (s.timerJiffies % 2 ^ 8)
  let s := s.cascades
  { s with
    timerJiffies := u32 (s.timerJiffies + 1)
    lists := update (update s.lists .work (s.lists p)) p [] }

end Base

/-- What may happen to a base. -/
inductive Action (ι : Type) where
  /-- The clock interrupt adds to `jiffies`. -/
  | clock (ticks : ℕ)
  | modTimer (x : ι) (expires : ℕ)
  | modTimerPending (x : ι) (expires : ℕ)
  /-- `add_timer` of a timer with this `expires` field -/
  | addTimer (x : ι) (expires : ℕ)
  | delTimer (x : ι)
  | tick
  /-- `__run_timers` takes the first timer off the work list and calls its function. -/
  | expire

/-- What is seen of an action. -/
inductive Event (ι : Type) where
  | clock (ticks : ℕ)
  | armed (x : ι) (expires : ℕ)
  | dropped (x : ι)
  | tick
  | ran (x : ι)
  deriving DecidableEq

/-- One action; none when `__run_timers` is not at that point, and for the `BUG_ON` of
`add_timer`. -/
def Base.step (s : Base ι) : Action ι → Option (Base ι × List (Event ι))
  | .clock ticks => some ({ s with jiffies := u32 (s.jiffies + ticks) }, [.clock ticks])
  | .modTimer x expires =>
    let expires := u32 expires
    if s.pending x ∧ s.expires x = expires then some (s, [])
    else
      let expires := s.applySlack x expires
      some (s.modTimerBase x expires, [.armed x expires])
  | .modTimerPending x expires =>
    let expires := u32 expires
    if s.pending x then some (s.modTimerBase x expires, [.armed x expires]) else some (s, [])
  | .addTimer x expires =>
    if s.pending x then none
    else
      let expires := s.applySlack x (u32 expires)
      some (s.modTimerBase x expires, [.armed x expires])
  | .delTimer x => some (s.delTimer x, if s.pending x then [.dropped x] else [])
  | .tick =>
    if s.lists .work = [] ∧ timeAfterEq s.jiffies s.timerJiffies then some (s.tick, [.tick])
    else none
  | .expire =>
    match s.lists .work with
    | [] => none
    | x :: _ => some ({ s.detachTimer x with pending := update s.pending x false }, [.ran x])

/-- A sequence of actions and what is seen of it. -/
def Base.run (s : Base ι) : List (Action ι) → Option (Base ι × List (Event ι))
  | [] => some (s, [])
  | a :: as => do
    let (s, es) ← s.step a
    let (s, rest) ← s.run as
    return (s, es ++ rest)

/-- A base without timers. -/
def Base.init (now : ℕ) (slack : ι → ℤ) : Base ι :=
  ⟨u32 now, u32 now, fun _ => [], fun _ => 0, fun _ => false, slack⟩

end AndroidKernel.Timer
