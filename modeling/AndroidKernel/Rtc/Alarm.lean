import AndroidKernel.Lib.RbTree
import Mathlib.Algebra.Order.Ring.Int

/-!
# The alarm queues of `drivers/rtc/alarm.c`

The five queues, the hrtimer of each, and the calls that change them. What runs under
`alarm_slock` is one step; `alarm_set_rtc`, `alarm_suspend` and the timer callback release the
lock on their way, so each of them is several steps with a place kept in the state. Times are
counted in nanoseconds.
-/

namespace AndroidKernel.Rtc

open RbTree

/-- `enum android_alarm_type` -/
inductive AlarmType where
  | rtcWakeup
  | rtc
  | elapsedRealtimeWakeup
  | elapsedRealtime
  | systemtime
  deriving DecidableEq, Repr

namespace AlarmType

/-- The types in the order of the array `alarms`. -/
def ofIndex : Fin 5 → AlarmType
  | 0 => rtcWakeup
  | 1 => rtc
  | 2 => elapsedRealtimeWakeup
  | 3 => elapsedRealtime
  | 4 => systemtime

/-- `ANDROID_ALARM_ELAPSED_REALTIME_WAKEUP_MASK`, a bit mask that is a valid index. -/
def elapsedRealtimeWakeupMask : Fin 5 := ⟨1 <<< 2, by decide⟩

/-- The two types whose alarms wake the device. -/
def isWakeup : AlarmType → Bool
  | rtcWakeup | elapsedRealtimeWakeup => true
  | _ => false

end AlarmType

/-- `struct alarm`; the type is set by `alarm_init` only. -/
structure Alarm where
  type : AlarmType
  softexpires : ℤ
  expires : ℤ
  deriving DecidableEq, Repr

/-- The part of a `struct hrtimer` that the driver sets, and whether it is enqueued. -/
structure Hrtimer where
  active : Bool
  expires : ℤ
  softexpires : ℤ
  deriving DecidableEq, Repr

/-- `hrtimer_start_expires`: the hard expiry is set again from the soft one, with their distance in
an `unsigned long` of 32 bits. -/
def Hrtimer.startExpires (timer : Hrtimer) : Hrtimer :=
  let delta := (timer.expires - timer.softexpires) % 2 ^ 32
  { timer with active := true, expires := timer.softexpires + delta }

/-- The distance of the two times of an alarm is an `unsigned long`. -/
def Alarm.Short (alarm : Alarm) : Prop :=
  0 ≤ alarm.expires - alarm.softexpires ∧ alarm.expires - alarm.softexpires < 2 ^ 32

/-- Where `alarm_timer_triggered` stands. -/
inductive Callback where
  | idle
  /-- The hrtimer has expired, and the callback waits for `alarm_slock`. -/
  | expired
  /-- The callback runs the function of an alarm, and goes on with its own time. -/
  | running (now : ℤ)
  deriving DecidableEq, Repr

/-- `struct alarm_queue`, with the state of its callback. -/
structure AlarmQueue where
  tree : RbTree.Tree ℕ
  first : Option ℕ
  timer : Hrtimer
  delta : ℤ
  stopped : Bool
  stoppedTime : ℤ
  callback : Callback

/-- What was last asked of `alarm_rtc_wake_lock`. -/
inductive WakeLockRequest where
  | released
  | held
  | timeout (seconds : ℕ)
  deriving DecidableEq, Repr

/-- Where `alarm_set_rtc` stands; `alarm_setrtc_mutex` admits one caller. -/
inductive SetRtc where
  | idle
  /-- The queues are stopped, and `do_settimeofday` is next. -/
  | settime (newTime : ℤ)
  /-- `do_settimeofday` has returned `ret`, and the queues are still stopped. -/
  | restart (ret : ℤ)
  /-- The queues run again, and `rtc_set_time` is next. -/
  | setRtcTime (ret : ℤ)
  deriving DecidableEq, Repr

/-- Where `alarm_suspend` stands. -/
inductive Suspend where
  | idle
  | cancelRtcWakeup
  | cancelMask
  | setRtcAlarm
  deriving DecidableEq, Repr

/-- The state of the driver, with the wall clock. -/
structure State where
  alarm : ℕ → Alarm
  alarms : AlarmType → AlarmQueue
  suspended : Bool
  rtcWakeLock : WakeLockRequest
  setRtc : SetRtc
  suspend : Suspend
  /-- What the last call of `alarm_set_rtc` returned. -/
  setRtcRet : ℤ
  wall : ℤ

/-- `-ENODEV` -/
def enodev : ℤ := -19

namespace State

variable (b : Balance ℕ) (s : State) (t : AlarmType) (base : AlarmQueue) (a : ℕ) (ret : ℤ)

/-- The state with another queue of type `t`. -/
def setQueue : State := { s with alarms := Function.update s.alarms t base }

/-- The state with another hrtimer of type `t`. -/
def setTimer (timer : Hrtimer) : State := s.setQueue t { s.alarms t with timer := timer }

/-- The state after `alarm_driver_init` and `alarm_late_init`, which reads the wall clock and the
time since boot, with alarms of the given types. -/
def init (type : ℕ → AlarmType) (wall system : ℤ) : State where
  alarm a := ⟨type a, 0, 0⟩
  alarms t :=
    { tree := .nil
      first := none
      timer := ⟨false, 0, 0⟩
      delta := if t = .elapsedRealtimeWakeup ∨ t = .elapsedRealtime then wall - system else 0
      stopped := false
      stoppedTime := 0
      callback := .idle }
  suspended := false
  rtcWakeLock := .released
  setRtc := .idle
  suspend := .idle
  setRtcRet := 0
  wall := wall

/-- `update_timer_locked` -/
def updateTimerLocked (headRemoved : Bool) : State :=
  let base := s.alarms t
  if base.stopped then s
  else
    let s := if t.isWakeup && !s.suspended && headRemoved then { s with rtcWakeLock := .released }
      else s
    match base.first with
    | none => s
    | some a =>
      if t.isWakeup && s.suspended then { s with rtcWakeLock := .timeout 1 }
      else
        let timer := { base.timer with
          expires := base.delta + (s.alarm a).expires
          softexpires := base.delta + (s.alarm a).softexpires }
        s.setTimer t timer.startExpires

section

variable (s : State) (t : AlarmType)

@[simp] theorem setQueue_self : s.setQueue t (s.alarms t) = s := by simp [setQueue]

@[simp] theorem setQueue_alarms_self (base : AlarmQueue) : (s.setQueue t base).alarms t = base := by
  simp [setQueue]

theorem setTimer_self : s.setTimer t (s.alarms t).timer = s := setQueue_self s t

/-- `update_timer_locked` changes the hrtimer of its queue and the wake lock only, and starts the
hrtimer for the first alarm unless the queue is stopped or has to wait for a resume. The distance of
the two times of that alarm must be an `unsigned long`. -/
theorem updateTimerLocked_eq (headRemoved : Bool) :
    ∃ timer wakeLock, s.updateTimerLocked t headRemoved =
        { s.setTimer t timer with rtcWakeLock := wakeLock } ∧
      ∀ a, (s.alarms t).first = some a → (s.alarm a).Short → (s.alarms t).stopped = false →
        (t.isWakeup && s.suspended) = false →
          timer.active = true ∧ timer.expires = (s.alarms t).delta + (s.alarm a).expires := by
  unfold updateTimerLocked
  by_cases hstopped : (s.alarms t).stopped = true
  · exact ⟨_, s.rtcWakeLock, by rw [setTimer_self, if_pos hstopped], by simp [hstopped]⟩
  obtain ⟨wakeLock, hlock⟩ : ∃ w, (if t.isWakeup && !s.suspended && headRemoved then
      { s with rtcWakeLock := .released } else s) = { s with rtcWakeLock := w } := by
    split_ifs
    · exact ⟨_, rfl⟩
    · exact ⟨s.rtcWakeLock, rfl⟩
  simp only [hlock]
  rw [if_neg hstopped]
  cases hfirst : (s.alarms t).first with
  | none => exact ⟨_, wakeLock, by rw [setTimer_self], by simp⟩
  | some a =>
    by_cases hwait : (t.isWakeup && s.suspended) = true
    · exact ⟨_, .timeout 1, by rw [setTimer_self]; simp only [hwait, if_true], by simp [hwait]⟩
    · refine ⟨_, wakeLock, by simp only [hwait]; rfl, ?_⟩
      rintro a' ⟨⟩ ⟨hnonneg, hlt⟩ - -
      refine ⟨rfl, ?_⟩
      simp only [Hrtimer.startExpires]
      omega

end

/-- The comparison of the descent in `alarm_enqueue_locked`. -/
def goLeft (entry : ℕ) : Option Bool := some ((s.alarm a).expires < (s.alarm entry).expires)

/-- The queue with an alarm taken out of its tree, if it is there, and `first` moved on. -/
def dequeue : AlarmQueue :=
  { base with
    first := if base.first = some a then base.tree.next a else base.first
    tree := if a ∈ base.tree.inorder then b.erase base.tree a else base.tree }

/-- `alarm_enqueue_locked` -/
def alarmEnqueueLocked : State :=
  let t := (s.alarm a).type
  let wasFirst : Bool := (s.alarms t).first = some a
  let base := dequeue b (s.alarms t) a
  let leftmost := base.tree.leftmost (s.goLeft a)
  let linked := (base.tree.link (s.goLeft a) a).getD base.tree
  let s := s.setQueue t (if leftmost then { base with first := some a } else base)
  let s := if leftmost || wasFirst then s.updateTimerLocked t wasFirst else s
  s.setQueue t { s.alarms t with tree := b.insertColor linked a }

/-- `alarm_start_range` -/
def alarmStartRange (start stop : ℤ) : State :=
  let alarm := { s.alarm a with softexpires := start, expires := stop }
  alarmEnqueueLocked b { s with alarm := Function.update s.alarm a alarm } a

/-- The critical section of `alarm_try_to_cancel`. The caller's loop in `alarm_cancel` repeats the
call while it finds nothing to cancel and the callback is running. -/
def alarmTryToCancel : State :=
  let t := (s.alarm a).type
  let base := s.alarms t
  if a ∈ base.tree.inorder then
    let s := s.setQueue t (dequeue b base a)
    if base.first = some a then s.updateTimerLocked t true else s
  else s

/-- `hrtimer_try_to_cancel`, which leaves a timer alone whose callback is running. -/
def hrtimerTryToCancel : AlarmQueue :=
  if base.callback = .idle then { base with timer := { base.timer with active := false } } else base

/-- The loop body of the first critical section of `alarm_set_rtc`. -/
def stopQueue (wall : ℤ) (base : AlarmQueue) : AlarmQueue :=
  { hrtimerTryToCancel base with stopped := true, stoppedTime := wall }

/-- `timespec_sub` of two times in nanoseconds: the seconds are a `time_t` of 32 bits. -/
def timespecSub (lhs rhs : ℤ) : ℤ :=
  let nsec : ℤ := 1000000000
  ((lhs - rhs) / nsec).bmod (2 ^ 32) * nsec + (lhs - rhs) % nsec

/-- The first critical section of `alarm_set_rtc`. -/
def setRtcStop (newTime : ℤ) : State :=
  let delta := (s.alarms .elapsedRealtime).delta - timespecSub s.wall newTime
  { s with
    rtcWakeLock := .held
    alarms := fun t =>
      match t with
      | .systemtime => s.alarms t
      | .rtcWakeup | .rtc => stopQueue s.wall (s.alarms t)
      | .elapsedRealtimeWakeup | .elapsedRealtime =>
        { stopQueue s.wall (s.alarms t) with delta := delta }
    setRtc := .settime newTime }

/-- `do_settimeofday`, with the value it returns. -/
def doSettimeofday (newTime ret : ℤ) : State :=
  { s with wall := if ret = 0 then newTime else s.wall, setRtc := .restart ret }

/-- The loop body of the second critical section of `alarm_set_rtc`. -/
def restartQueue : State :=
  (s.setQueue t { s.alarms t with stopped := false }).updateTimerLocked t false

/-- The second critical section of `alarm_set_rtc`. -/
def setRtcRestart : State :=
  { [.rtcWakeup, .rtc, .elapsedRealtimeWakeup, .elapsedRealtime].foldl restartQueue s with
    setRtc := .setRtcTime ret }

/-- The end of `alarm_set_rtc`, which returns the error of `do_settimeofday`, or `-ENODEV` without
an RTC, or what `rtc_set_time` returned. -/
def setRtcEnd (rtcSetTime : Option ℤ) : State :=
  { s with
    setRtcRet := if ret < 0 then ret else rtcSetTime.getD enodev
    rtcWakeLock := .released
    setRtc := .idle }

/-- `alarm_get_elapsed_realtime` -/
def alarmGetElapsedRealtime : ℤ :=
  let base := s.alarms .elapsedRealtime
  (if base.stopped then base.stoppedTime else s.wall) - base.delta

/-- The critical section of `alarm_timer_triggered` that starts at `now`: the function of the first
alarm is called without the lock, or the callback ends. -/
def triggerLoop (now : ℤ) : State :=
  let base := s.alarms t
  let done := (s.setQueue t { base with callback := .idle }).updateTimerLocked t true
  match base.first with
  | none => done
  | some a =>
    if now < (s.alarm a).softexpires then done
    else
      s.setQueue t { base with
        first := base.tree.next a
        tree := b.erase base.tree a
        callback := .running now }

/-- One critical section of `alarm_timer_triggered`; the clock is read by the first one. -/
def alarmTimerTriggered (clock : ℤ) : State :=
  let base := s.alarms t
  match base.callback with
  | .idle => s
  | .expired => triggerLoop b s t ((if base.stopped then base.stoppedTime else clock) - base.delta)
  | .running now => triggerLoop b s t now

/-- The expiry of an hrtimer, which starts its callback. -/
def hrtimerExpire : State :=
  let base := s.alarms t
  if base.timer.active ∧ base.callback = .idle then
    s.setQueue t { base with timer := { base.timer with active := false }, callback := .expired }
  else s

/-- `hrtimer_cancel` as `alarm_suspend` calls it: it waits while the callback is running. -/
def hrtimerCancel (next : Suspend) : State :=
  if (s.alarms t).callback = .idle then
    { s.setQueue t (hrtimerTryToCancel (s.alarms t)) with suspend := next }
  else s

/-- The wakeup queue whose timer is the first to expire. -/
def wakeupQueue : Option AlarmType :=
  let rtc := s.alarms .rtcWakeup
  let elapsed := s.alarms .elapsedRealtimeWakeup
  if elapsed.first.isSome ∧ (rtc.first.isNone ∨ elapsed.timer.expires < rtc.timer.expires) then
    some .elapsedRealtimeWakeup
  else if rtc.first.isSome then some .rtcWakeup
  else none

/-- Whether the alarm that `alarm_suspend` programs into the RTC goes off within a second: the RTC
and the wall clock are read before the alarm is set, and the RTC once more after it. The seconds
are compared as 32-bit unsigned numbers. -/
def aboutToGoOff (rtc rtc' : ℕ) : Bool :=
  let nsec : ℤ := 1000000000
  let rtcDelta := s.wall - rtc * nsec
  let rtcAlarmTime := ((s.alarms t).timer.expires - rtcDelta) / nsec
  BitVec.ofInt 32 rtcAlarmTime ≤ BitVec.ofNat 32 rtc' + 1

/-- `suspended = false` and the two timers that are started again, in `alarm_resume` and on the
error path of `alarm_suspend`. -/
def unsuspend : State :=
  (({ s with suspended := false }).updateTimerLocked .rtcWakeup false).updateTimerLocked
    .elapsedRealtimeWakeup false

/-- One step of `alarm_suspend`. -/
def alarmSuspend (rtc rtc' : ℕ) : State :=
  match s.suspend with
  | .idle => if s.suspended then s else { s with suspended := true, suspend := .cancelRtcWakeup }
  | .cancelRtcWakeup => s.hrtimerCancel .rtcWakeup .cancelMask
  | .cancelMask => s.hrtimerCancel (.ofIndex AlarmType.elapsedRealtimeWakeupMask) .setRtcAlarm
  | .setRtcAlarm =>
    let s := { s with suspend := .idle }
    match s.wakeupQueue with
    | none => s
    | some t =>
      if s.aboutToGoOff t rtc rtc' then { s with rtcWakeLock := .timeout 2 }.unsuspend else s

/-- `alarm_resume` -/
def alarmResume : State :=
  if s.suspend = .idle then s.unsuspend else s

end State

/-- One step of the driver, of a clock or of a timer. -/
inductive Op where
  | startRange (a : ℕ) (start stop : ℤ)
  | cancel (a : ℕ)
  /-- The first critical section of `alarm_set_rtc`. -/
  | setRtc (newTime : ℤ)
  /-- `do_settimeofday` returns. -/
  | settimeofday (ret : ℤ)
  /-- The second critical section of `alarm_set_rtc`. -/
  | restart
  /-- `rtc_set_time` returns, if there is an RTC, and `alarm_set_rtc` ends. -/
  | rtcSetTime (ret : Option ℤ)
  | expire (t : AlarmType)
  | callback (t : AlarmType) (clock : ℤ)
  | suspend (rtc rtc' : ℕ)
  | resume
  /-- The wall clock advances. -/
  | tick (elapsed : ℕ)

/-- One step; a step whose place in its function has not been reached does nothing. -/
def State.step (b : Balance ℕ) (s : State) : Op → State
  | .startRange a start stop => s.alarmStartRange b a start stop
  | .cancel a => s.alarmTryToCancel b a
  | .setRtc newTime => if s.setRtc = .idle then s.setRtcStop newTime else s
  | .settimeofday ret =>
    match s.setRtc with
    | .settime newTime => s.doSettimeofday newTime ret
    | _ => s
  | .restart =>
    match s.setRtc with
    | .restart ret => s.setRtcRestart ret
    | _ => s
  | .rtcSetTime rtcSetTime =>
    match s.setRtc with
    | .setRtcTime ret => s.setRtcEnd ret rtcSetTime
    | _ => s
  | .expire t => s.hrtimerExpire t
  | .callback t clock => s.alarmTimerTriggered b t clock
  | .suspend rtc rtc' => s.alarmSuspend rtc rtc'
  | .resume => s.alarmResume
  | .tick elapsed => { s with wall := s.wall + elapsed }

end AndroidKernel.Rtc
