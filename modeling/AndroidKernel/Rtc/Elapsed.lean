import AndroidKernel.Rtc.Alarm
import Mathlib.Data.List.Chain
import Mathlib.Tactic.Linarith

/-!
# Elapsed realtime

Elapsed realtime is the wall clock less the delta of its queue. A run of the driver is paired with
the time that really passed and with the last value that a caller was given; the value that the
next caller would be given then lies between the last one and the last one plus the time that
passed since, as long as `do_settimeofday` succeeds, the clock is set by less than `2 ^ 31` seconds
and nobody asks while `alarm_set_rtc` has the queues stopped.
-/

namespace AndroidKernel.Rtc

open RbTree State SetRtc

/-- A step of the driver, or a call of `alarm_get_elapsed_realtime`. -/
inductive ClockOp where
  | op (op : Op)
  | get

/-- A value that `alarm_get_elapsed_realtime` returned, and when. -/
structure Reading where
  value : ℤ
  time : ℤ

/-- A run with the time that really passed and the values that callers were given, last first. -/
structure Clock where
  state : State
  time : ℤ
  readings : List Reading

namespace Clock

/-- The real time that a step takes. -/
def passes : Op → ℤ
  | .tick elapsed => elapsed
  | _ => 0

/-- One step. -/
def step (b : Balance ℕ) (c : Clock) : ClockOp → Clock
  | .op op => { c with state := c.state.step b op, time := c.time + passes op }
  | .get => { c with readings := ⟨c.state.alarmGetElapsedRealtime, c.time⟩ :: c.readings }

/-- The clock of the driver after its initialisation. -/
def init (type : ℕ → AlarmType) (wall system : ℤ) : Clock := ⟨.init type wall system, 0, []⟩

end Clock

/-- The seconds by which a call of `alarm_set_rtc` moves the clock are a `time_t`. -/
def State.Near (s : State) (newTime : ℤ) : Prop :=
  -2 ^ 31 ≤ (s.wall - newTime) / 1000000000 ∧ (s.wall - newTime) / 1000000000 < 2 ^ 31

theorem State.Near.timespecSub_eq {s : State} {newTime : ℤ} (h : s.Near newTime) :
    timespecSub s.wall newTime = s.wall - newTime := by
  obtain ⟨hlo, hhi⟩ := h
  simp only [timespecSub]
  rw [Int.bmod_eq_of_le (by norm_num at hlo ⊢; exact hlo) (by norm_num at hhi ⊢; exact hhi)]
  omega

/-- The clock is moved by less than `2 ^ 31` seconds, `do_settimeofday` succeeds, and nobody reads
the clock while it is stopped. -/
def ClockOp.Smooth (c : Clock) : ClockOp → Prop
  | .op (.setRtc newTime) => c.state.setRtc = .idle → c.state.Near newTime
  | .op (.settimeofday ret) => ret = 0
  | .op _ => True
  | .get => (c.state.alarms .elapsedRealtime).stopped = false

/-- Every step of a run is smooth, in the state it is made in. -/
def AllSmooth (b : Balance ℕ) : Clock → List ClockOp → Prop
  | _, [] => True
  | c, op :: ops => op.Smooth c ∧ AllSmooth b (c.step b op) ops

/-- The values returned by successive calls never decrease, and never differ by more than the time
that passed between the calls. -/
def Continuous (readings : List Reading) : Prop :=
  readings.IsChain fun later earlier =>
    earlier.value ≤ later.value ∧ later.value - earlier.value ≤ later.time - earlier.time

/-- The clock is set back by 400 while somebody reads it: the reading jumps ahead by 400. Then it is
set ahead by 500, in vain; the next reading is 500 ahead of the clock. -/
theorem clock_jumps_while_set :
    let c := Clock.init (fun _ => .rtc) 1000 1000
    ¬ Continuous ([.get, .op (.setRtc 600), .get].foldl (Clock.step (.spine ℕ)) c).readings ∧
    ¬ Continuous ([.get, .op (.setRtc 500), .op (.settimeofday (-22)), .op .restart, .get].foldl
      (Clock.step (.spine ℕ)) c).readings := by
  simp [Continuous, Clock.init, Clock.step, Clock.passes, step, init,
    alarmGetElapsedRealtime, setRtcStop, timespecSub, stopQueue, hrtimerTryToCancel,
    doSettimeofday, setRtcRestart, restartQueue, updateTimerLocked,
    setQueue, Function.update]

/-- The wall clock, the place in `alarm_set_rtc` and the deltas and stops of the queues are kept. -/
structure State.SameTime (s s' : State) : Prop where
  wall_eq : s'.wall = s.wall
  setRtc_eq : s'.setRtc = s.setRtc
  delta_eq : ∀ t, (s'.alarms t).delta = (s.alarms t).delta
  stopped_eq : ∀ t, (s'.alarms t).stopped = (s.alarms t).stopped

namespace State.SameTime

variable {s s₀ : State}

theorem refl (s : State) : s.SameTime s := ⟨rfl, rfl, fun _ => rfl, fun _ => rfl⟩

theorem trans {s' s'' : State} (h : s.SameTime s') (h' : s'.SameTime s'') : s.SameTime s'' where
  wall_eq := h'.wall_eq.trans h.wall_eq
  setRtc_eq := h'.setRtc_eq.trans h.setRtc_eq
  delta_eq t := (h'.delta_eq t).trans (h.delta_eq t)
  stopped_eq t := (h'.stopped_eq t).trans (h.stopped_eq t)

theorem setQueue (h : s₀.SameTime s) {t : AlarmType} {base : AlarmQueue}
    (hdelta : base.delta = (s.alarms t).delta) (hstopped : base.stopped = (s.alarms t).stopped) :
    s₀.SameTime (s.setQueue t base) := by
  refine h.trans ⟨rfl, rfl, fun t' => ?_, fun t' => ?_⟩
  · by_cases ht : t' = t
    · rw [ht, setQueue_alarms_self, hdelta]
    · simp [State.setQueue, ht]
  · by_cases ht : t' = t
    · rw [ht, setQueue_alarms_self, hstopped]
    · simp [State.setQueue, ht]

theorem updateTimerLocked (h : s₀.SameTime s) (t : AlarmType) (headRemoved : Bool) :
    s₀.SameTime (s.updateTimerLocked t headRemoved) := by
  obtain ⟨timer, wakeLock, heq, -⟩ := s.updateTimerLocked_eq t headRemoved
  rw [heq]
  have hset : s₀.SameTime (s.setTimer t timer) := h.setQueue rfl rfl
  exact ⟨hset.wall_eq, hset.setRtc_eq, hset.delta_eq, hset.stopped_eq⟩

theorem alarmEnqueueLocked (h : s₀.SameTime s) (b : Balance ℕ) (a : ℕ) :
    s₀.SameTime (s.alarmEnqueueLocked b a) := by
  have hqueue : s₀.SameTime (s.setQueue (s.alarm a).type
      (if (dequeue b (s.alarms (s.alarm a).type) a).tree.leftmost (s.goLeft a)
        then { dequeue b (s.alarms (s.alarm a).type) a with first := some a }
        else dequeue b (s.alarms (s.alarm a).type) a)) :=
    h.setQueue (by split_ifs <;> rfl) (by split_ifs <;> rfl)
  refine setQueue ?_ rfl rfl
  split
  · exact hqueue.updateTimerLocked _ _
  · exact hqueue

theorem alarmTryToCancel (b : Balance ℕ) (s : State) (a : ℕ) :
    s.SameTime (s.alarmTryToCancel b a) := by
  unfold State.alarmTryToCancel
  dsimp only
  split_ifs
  · refine updateTimerLocked ?_ _ _
    exact (refl s).setQueue rfl rfl
  · exact (refl s).setQueue rfl rfl
  · exact refl s

theorem triggerLoop (b : Balance ℕ) (s : State) (t : AlarmType) (now : ℤ) :
    s.SameTime (s.triggerLoop b t now) := by
  have hdone : s.SameTime ((s.setQueue t { s.alarms t with callback := .idle }).updateTimerLocked
      t true) := by
    refine updateTimerLocked ?_ _ _
    exact (refl s).setQueue rfl rfl
  unfold State.triggerLoop
  dsimp only
  split
  · exact hdone
  · split_ifs
    · exact hdone
    · exact (refl s).setQueue rfl rfl

theorem unsuspend (h : s₀.SameTime s) : s₀.SameTime s.unsuspend := by
  have hresumed : s₀.SameTime { s with suspended := false } :=
    ⟨h.wall_eq, h.setRtc_eq, h.delta_eq, h.stopped_eq⟩
  exact (hresumed.updateTimerLocked _ _).updateTimerLocked _ _

theorem hrtimerCancel (s : State) (t : AlarmType) (next : Suspend) :
    s.SameTime (s.hrtimerCancel t next) := by
  unfold State.hrtimerCancel
  split_ifs with hidle
  · have hset : s.SameTime (s.setQueue t (hrtimerTryToCancel (s.alarms t))) := by
      simp only [hrtimerTryToCancel, hidle, if_true]
      exact (refl s).setQueue rfl rfl
    exact ⟨hset.wall_eq, hset.setRtc_eq, hset.delta_eq, hset.stopped_eq⟩
  · exact refl s

theorem alarmSuspend (s : State) (rtc rtc' : ℕ) : s.SameTime (s.alarmSuspend rtc rtc') := by
  unfold State.alarmSuspend
  cases s.suspend with
  | idle =>
    dsimp only
    split_ifs
    · exact refl s
    · exact ⟨rfl, rfl, fun _ => rfl, fun _ => rfl⟩
  | cancelRtcWakeup | cancelMask => exact hrtimerCancel _ _ _
  | setRtcAlarm =>
    have hlock (w : WakeLockRequest) : s.SameTime { s with suspend := .idle, rtcWakeLock := w } :=
      ⟨rfl, rfl, fun _ => rfl, fun _ => rfl⟩
    dsimp only
    split
    · exact hlock _
    · split_ifs
      · exact (hlock _).unsuspend
      · exact hlock _

end State.SameTime

/-- Restarting a queue keeps the wall clock and the deltas, and stops no queue. -/
theorem State.restartQueue_sameTime (s : State) (t t' : AlarmType) :
    (s.restartQueue t).wall = s.wall ∧ ((s.restartQueue t).alarms t').delta = (s.alarms t').delta ∧
      ((s.restartQueue t).alarms t').stopped =
        if t' = t then false else (s.alarms t').stopped := by
  have hsame := SameTime.updateTimerLocked
    (.refl (s.setQueue t { s.alarms t with stopped := false })) t false
  refine ⟨hsame.wall_eq, (hsame.delta_eq t').trans ?_, (hsame.stopped_eq t').trans ?_⟩
  · by_cases ht : t' = t
    · rw [ht, setQueue_alarms_self]
    · simp [setQueue, ht]
  · by_cases ht : t' = t
    · rw [if_pos ht, ht, setQueue_alarms_self]
    · simp [setQueue, ht]

/-- The steps that are not part of `alarm_set_rtc` or of the clock. -/
def Op.IsQueueOp : Op → Prop
  | .setRtc _ | .settimeofday _ | .restart | .rtcSetTime _ | .tick _ => False
  | _ => True

theorem Op.sameTime_of_isQueueOp {op : Op} {b : Balance ℕ} {s : State} (hop : op.IsQueueOp) :
    s.SameTime (s.step b op) := by
  cases op with
  | startRange a start stop =>
    have hset (alarm : ℕ → Alarm) : s.SameTime { s with alarm := alarm } :=
      ⟨rfl, rfl, fun _ => rfl, fun _ => rfl⟩
    exact (hset _).alarmEnqueueLocked b a
  | cancel a => exact .alarmTryToCancel _ _ _
  | expire t =>
    simp only [step, hrtimerExpire]
    split_ifs
    · exact (SameTime.refl s).setQueue rfl rfl
    · exact .refl s
  | callback t clock =>
    simp only [step, alarmTimerTriggered]
    split
    · exact .refl s
    all_goals exact .triggerLoop _ _ _ _
  | suspend rtc rtc' => exact .alarmSuspend _ _ _
  | resume =>
    simp only [step, alarmResume]
    split_ifs
    · exact (SameTime.refl s).unsuspend
    · exact .refl s
  | _ => exact hop.elim

/-- `alarm_set_rtc` has the queues stopped. -/
def SetRtc.Stops : SetRtc → Prop
  | .settime _ | .restart _ => True
  | _ => False

/-- The value of elapsed realtime, which stands still until `do_settimeofday` has set the clock. -/
def State.elapsed (s : State) : ℤ :=
  match s.setRtc with
  | .settime newTime => newTime - (s.alarms .elapsedRealtime).delta
  | _ => s.wall - (s.alarms .elapsedRealtime).delta

/-- The invariant: the value of elapsed realtime continues the readings. -/
structure Clock.Inv (c : Clock) : Prop where
  stopped_iff : (c.state.alarms .elapsedRealtime).stopped = true ↔ c.state.setRtc.Stops
  continues : ∀ r ∈ c.readings.head?,
    r.value ≤ c.state.elapsed ∧ c.state.elapsed - r.value ≤ c.time - r.time
  continuous : Continuous c.readings

namespace Clock.Inv

variable {c : Clock} {s : State} {b : Balance ℕ}

theorem init (type : ℕ → AlarmType) (wall system : ℤ) : (Clock.init type wall system).Inv where
  stopped_iff := by simp [Clock.init, State.init, SetRtc.Stops]
  continues := by simp [Clock.init]
  continuous := .nil

section

variable (h : c.Inv)
include h

/-- A step that keeps the value of elapsed realtime, or lets it advance with the time. -/
theorem of_elapsed {elapsed passed : ℤ}
    (hstopped : (s.alarms .elapsedRealtime).stopped = true ↔ s.setRtc.Stops)
    (helapsed : s.elapsed = c.state.elapsed + elapsed) (hpos : 0 ≤ elapsed)
    (hle : elapsed ≤ passed) : Clock.Inv { c with state := s, time := c.time + passed } where
  stopped_iff := hstopped
  continues r hr := by
    obtain ⟨hvalue, htime⟩ := h.continues r hr
    change r.value ≤ s.elapsed ∧ s.elapsed - r.value ≤ c.time + passed - r.time
    constructor <;> linarith
  continuous := h.continuous

theorem sameTime (hsame : c.state.SameTime s) :
    Clock.Inv { c with state := s, time := c.time + 0 } := by
  refine h.of_elapsed ?_ (show s.elapsed = c.state.elapsed + 0 from ?_) le_rfl le_rfl
  · rw [hsame.stopped_eq, hsame.setRtc_eq, h.stopped_iff]
  · rw [elapsed, elapsed, hsame.setRtc_eq, hsame.delta_eq, hsame.wall_eq, add_zero]

theorem get (hrun : (c.state.alarms .elapsedRealtime).stopped = false) :
    Clock.Inv { c with readings := ⟨c.state.alarmGetElapsedRealtime, c.time⟩ :: c.readings } := by
  have hvalue : c.state.alarmGetElapsedRealtime = c.state.elapsed := by
    have hstops := h.stopped_iff.not.mp (by simp [hrun])
    simp only [alarmGetElapsedRealtime, hrun, elapsed]
    cases hset : c.state.setRtc with
    | settime newTime => simp [hset, Stops] at hstops
    | _ => rfl
  refine ⟨h.stopped_iff, ?_, ?_⟩
  · rintro r ⟨⟩
    change c.state.alarmGetElapsedRealtime ≤ c.state.elapsed ∧
      c.state.elapsed - c.state.alarmGetElapsedRealtime ≤ c.time - c.time
    rw [hvalue]
    exact ⟨le_rfl, by linarith⟩
  · refine List.isChain_cons.mpr ⟨fun r hr => ?_, h.continuous⟩
    rw [hvalue]
    exact h.continues r hr

theorem setRtcStop {newTime : ℤ} (hnear : c.state.Near newTime) (hidle : c.state.setRtc = .idle) :
    Clock.Inv { c with state := c.state.setRtcStop newTime, time := c.time + 0 } := by
  refine h.of_elapsed (by simp [State.setRtcStop, State.stopQueue, SetRtc.Stops])
    (show _ = c.state.elapsed + 0 from ?_) le_rfl le_rfl
  simp only [State.elapsed, hidle, State.setRtcStop, hnear.timespecSub_eq]
  linarith

theorem doSettimeofday {newTime : ℤ} (hset : c.state.setRtc = .settime newTime) :
    Clock.Inv { c with state := c.state.doSettimeofday newTime 0, time := c.time + 0 } := by
  refine h.of_elapsed ?_ (show _ = c.state.elapsed + 0 from ?_) le_rfl le_rfl
  · have hstopped := h.stopped_iff.mpr (hset ▸ trivial)
    simpa [State.doSettimeofday, SetRtc.Stops] using hstopped
  · simp [State.elapsed, hset, State.doSettimeofday]

theorem setRtcRestart {ret : ℤ} (hset : c.state.setRtc = .restart ret) :
    Clock.Inv { c with state := c.state.setRtcRestart ret, time := c.time + 0 } := by
  refine h.of_elapsed ?_ (show _ = c.state.elapsed + 0 from ?_) le_rfl le_rfl
  · simp [State.setRtcRestart, SetRtc.Stops, (State.restartQueue_sameTime _ _ _).2.2]
  · simp [State.elapsed, State.setRtcRestart, hset, List.foldl, (restartQueue_sameTime _ _ .rtc).1,
      (restartQueue_sameTime _ _ _).2.1]

theorem step {op : ClockOp} (hsmooth : op.Smooth c) : (c.step b op).Inv := by
  have hsame : Clock.Inv { c with state := c.state, time := c.time + 0 } := h.sameTime (.refl _)
  cases op with
  | get => exact h.get hsmooth
  | op op =>
    simp only [Clock.step]
    cases op with
    | setRtc newTime =>
      simp only [State.step]
      split_ifs with hidle
      · exact h.setRtcStop (hsmooth hidle) hidle
      · exact hsame
    | settimeofday ret =>
      obtain rfl : ret = 0 := hsmooth
      simp only [State.step]
      split
      · exact h.doSettimeofday ‹_›
      · exact hsame
    | restart =>
      simp only [State.step]
      split
      · exact h.setRtcRestart ‹_›
      · exact hsame
    | rtcSetTime rtcSetTime =>
      simp only [State.step]
      split
      next hset =>
        refine h.of_elapsed ?_ (show _ = c.state.elapsed + 0 from ?_) le_rfl le_rfl
        · simpa [setRtcEnd, Stops, hset] using h.stopped_iff
        · simp [elapsed, setRtcEnd, hset]
      · exact hsame
    | tick elapsed =>
      cases hset : c.state.setRtc with
      | settime newTime =>
        refine h.of_elapsed ?_ (show _ = c.state.elapsed + 0 from ?_) le_rfl
          (Int.natCast_nonneg elapsed)
        · exact h.stopped_iff
        · simp [State.elapsed, State.step, hset]
      | _ =>
        refine h.of_elapsed ?_ (show _ = c.state.elapsed + elapsed from ?_)
          (Int.natCast_nonneg elapsed) le_rfl
        · exact h.stopped_iff
        · simp only [State.elapsed, State.step, hset]
          linarith
    | _ => exact h.sameTime (Op.sameTime_of_isQueueOp trivial)

theorem run {ops : List ClockOp} (hops : AllSmooth b c ops) : (ops.foldl (Clock.step b) c).Inv := by
  induction ops generalizing c with
  | nil => exact h
  | cons op ops ih => exact ih (h.step hops.1) hops.2

end

end Clock.Inv

/-- Elapsed realtime is continuous in every run in which the clock is set by less than `2 ^ 31`
seconds, `do_settimeofday` succeeds and nobody reads the clock while it is stopped. -/
theorem elapsed_realtime_continuous (b : Balance ℕ) (type : ℕ → AlarmType) (wall system : ℤ)
    {ops : List ClockOp} (hops : AllSmooth b (Clock.init type wall system) ops) :
    Continuous (ops.foldl (Clock.step b) (Clock.init type wall system)).readings :=
  (Clock.Inv.run (.init type wall system) hops).continuous

/-- The same for a clock that is set back between two readings, with the time going on meanwhile. -/
theorem elapsed_realtime_continuous_set_back :
    let ops := [.get, .op (.tick 5), .op (.setRtc 600), .op (.tick 7), .op (.settimeofday 0),
      .op .restart, .op (.rtcSetTime (some (-5))), .op (.tick 3), .get]
    Continuous (ops.foldl (Clock.step (.spine ℕ))
      (Clock.init (fun _ => .rtc) 1000 10)).readings := by
  apply elapsed_realtime_continuous (.spine ℕ) (fun _ => .rtc) 1000 10
  simp [AllSmooth, ClockOp.Smooth, Near, Clock.init, Clock.step, step, init,
    setRtcStop, stopQueue, hrtimerTryToCancel, doSettimeofday,
    setRtcRestart, restartQueue, updateTimerLocked, setQueue,
    setRtcEnd, Function.update]

end AndroidKernel.Rtc
