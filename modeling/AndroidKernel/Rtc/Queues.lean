import AndroidKernel.Rtc.Elapsed

/-!
# Armed alarm queues

The cached first alarm of each queue is the leftmost one of its tree, and the hrtimer of a queue
with alarms is started for it. Every function of the driver breaks the second part for some types
and repairs it with `update_timer_locked`, so the invariant carries the set of types that are still
to be repaired. `alarm_suspend` cancels the timer of `ANDROID_ALARM_SYSTEMTIME`, which nothing
repairs.
-/

namespace AndroidKernel.Rtc

open RbTree Function List State

/-- The timer of a queue that is not held up is started for its first alarm. -/
def State.Armed (s : State) (t : AlarmType) : Prop :=
  ∀ a, (s.alarms t).first = some a → (s.alarms t).stopped = false →
    (s.alarms t).callback = .idle → (t.isWakeup && s.suspended) = false →
      (s.alarms t).timer.active = true ∧
        (s.alarms t).timer.expires = (s.alarms t).delta + (s.alarm a).expires

/-- What holds of the tree of one queue. -/
structure State.QueueInv (alarm : ℕ → Alarm) (t : AlarmType) (base : AlarmQueue) : Prop where
  first_eq : base.first = base.tree.inorder.head?
  nodup : base.tree.inorder.Nodup
  type_eq : ∀ a ∈ base.tree.inorder, (alarm a).type = t

/-- The invariant, with the types whose timer is still to be started. -/
structure State.Inv (late : AlarmType → Prop) (s : State) : Prop where
  queues : ∀ t, QueueInv s.alarm t (s.alarms t)
  suspending : s.suspend ≠ .idle → s.suspended = true
  short : ∀ a, (s.alarm a).Short
  armed : ∀ t, ¬ late t → s.Armed t

/-- `alarm_suspend` finds no alarm in the queue that it takes for a wakeup queue, and the two times
of an alarm are less than `2 ^ 32` nanoseconds apart. -/
def Op.Undisturbed (s : State) : Op → Prop
  | .startRange _ start stop => 0 ≤ stop - start ∧ stop - start < 2 ^ 32
  | .suspend _ _ => s.suspend = .cancelMask → (s.alarms .systemtime).callback = .idle →
      (s.alarms .systemtime).first = none
  | _ => True

/-- Every step of a run is undisturbed, in the state it is made in. -/
def AllUndisturbed (b : Balance ℕ) : State → List Op → Prop
  | _, [] => True
  | s, op :: ops => op.Undisturbed s ∧ AllUndisturbed b (s.step b op) ops

namespace State.QueueInv

variable {alarm : ℕ → Alarm} {t : AlarmType} {base : AlarmQueue} {base' : AlarmQueue}

theorem inorder_dequeue (b : Balance ℕ) (base : AlarmQueue) (a : ℕ) :
    (dequeue b base a).tree.inorder = base.tree.inorder.erase a := by
  unfold dequeue
  dsimp only
  split_ifs with hmem
  · exact b.inorder_erase _ _
  · exact (erase_of_not_mem hmem).symm

section

variable (h : QueueInv alarm t base)
include h

theorem dequeue (b : Balance ℕ) (a : ℕ) : QueueInv alarm t (dequeue b base a) where
  first_eq := by
    rw [inorder_dequeue]
    change (if base.first = some a then base.tree.next a else base.first) = _
    split_ifs with hfirst
    · exact base.tree.next_eq_head_erase (h.first_eq ▸ hfirst)
    · rw [h.first_eq] at hfirst ⊢
      cases hlist : base.tree.inorder with
      | nil => rfl
      | cons a' rest =>
        rw [hlist] at hfirst
        have hne : a' ≠ a := fun heq => hfirst (by simp [heq])
        rw [erase_cons_tail (by simpa using hne)]
        rfl
  nodup := by
    rw [inorder_dequeue]
    exact h.nodup.erase a
  type_eq a' ha' := by
    rw [inorder_dequeue] at ha'
    exact h.type_eq a' (mem_of_mem_erase ha')

theorem link (b : Balance ℕ) {goLeft : ℕ → Option Bool} (hgo : ∀ e, (goLeft e).isSome) {a : ℕ}
    (ha : a ∉ base.tree.inorder) (htype : (alarm a).type = t)
    (htree : base'.tree = b.insertColor ((base.tree.link goLeft a).getD base.tree) a)
    (hfirst : base'.first = if base.tree.leftmost goLeft then some a else base.first) :
    QueueInv alarm t base' := by
  obtain ⟨linked, before, after, hlink, hsplit, hinorder, hleft⟩ := base.tree.link_split hgo a
  have hinorder' : base'.tree.inorder = before ++ a :: after := by
    rw [htree, b.inorder_insertColor, hlink, Option.getD_some, hinorder]
  have hperm : (before ++ a :: after).Perm (a :: base.tree.inorder) := by
    rw [hsplit]
    exact perm_middle
  refine ⟨?_, ?_, ?_⟩
  · rw [hfirst, hinorder', h.first_eq, hsplit]
    cases before with
    | nil => simp [hleft.mpr rfl]
    | cons a' before => simp [mt hleft.mp (cons_ne_nil a' before)]
  · rw [hinorder', hperm.nodup_iff]
    exact List.nodup_cons.mpr ⟨ha, h.nodup⟩
  · intro a' ha'
    rw [hinorder', hperm.mem_iff] at ha'
    rcases List.mem_cons.mp ha' with rfl | ha'
    · exact htype
    · exact h.type_eq a' ha'

theorem congr (hfirst : base'.first = base.first) (htree : base'.tree = base.tree) :
    QueueInv alarm t base' where
  first_eq := by rw [hfirst, htree, h.first_eq]
  nodup := htree ▸ h.nodup
  type_eq := htree ▸ h.type_eq

end

end State.QueueInv

namespace State.Inv

variable {late late' : AlarmType → Prop} {s : State} {t : AlarmType} {base : AlarmQueue}

/-- Another queue of type `t` is late, unless nothing is asked of its timer. -/
theorem setQueue (h : s.Inv late) (hqueue : QueueInv s.alarm t base)
    (hle : ∀ t', late t' → t' = t ∨ late' t') (harmed : late' t ∨ (s.setQueue t base).Armed t) :
    (s.setQueue t base).Inv late' where
  queues t' := by
    by_cases ht : t' = t
    · subst ht
      rw [setQueue_alarms_self]
      exact hqueue
    · simpa [State.setQueue, ht] using h.queues t'
  suspending := h.suspending
  short := h.short
  armed t' ht' := by
    by_cases ht : t' = t
    · subst ht
      exact harmed.resolve_left ht'
    · have hother := h.armed t' (fun hlate => (hle t' hlate).elim ht ht')
      simpa [State.Armed, State.setQueue, ht] using hother

theorem setQueue_late (h : s.Inv fun _ => False) (hqueue : QueueInv s.alarm t base) :
    (s.setQueue t base).Inv fun t' => t' = t :=
  h.setQueue hqueue (by simp) (.inl rfl)

/-- `update_timer_locked` repairs the queue it is called for. -/
theorem updateTimerLocked (h : s.Inv late) (headRemoved : Bool)
    (hle : ∀ t', late t' → t' = t ∨ late' t') : (s.updateTimerLocked t headRemoved).Inv late' := by
  obtain ⟨timer, wakeLock, heq, harmed⟩ := s.updateTimerLocked_eq t headRemoved
  rw [heq]
  have hset : (s.setTimer t timer).Inv late' := by
    refine h.setQueue ((h.queues t).congr rfl rfl) hle (.inr ?_)
    rintro a hfirst hstopped - hwait
    rw [setQueue_alarms_self] at hfirst hstopped ⊢
    exact harmed a hfirst (h.short a) hstopped hwait
  exact ⟨hset.queues, hset.suspending, hset.short, hset.armed⟩

theorem init (type : ℕ → AlarmType) (wall system : ℤ) :
    (init type wall system).Inv fun _ => False where
  queues t := ⟨rfl, nodup_nil, by simp [State.init, Tree.inorder]⟩
  suspending := by simp [State.init]
  short a := by simp [Alarm.Short, State.init]
  armed t _ := by simp [State.Armed, State.init]

/-- `alarm_enqueue_locked` repairs the queue of its alarm, which may be the first one already. -/
theorem alarmEnqueueLocked {a : ℕ} (b : Balance ℕ)
    (h : s.Inv fun t => t = (s.alarm a).type ∧ (s.alarms t).first = some a) :
    (s.alarmEnqueueLocked b a).Inv fun _ => False := by
  unfold State.alarmEnqueueLocked
  generalize ht : (s.alarm a).type = t at h ⊢
  have hbase := (h.queues t).dequeue b a
  have hnot : a ∉ (State.dequeue b (s.alarms t) a).tree.inorder := by
    rw [QueueInv.inorder_dequeue]
    exact (h.queues t).nodup.not_mem_erase
  generalize hq : (if (State.dequeue b (s.alarms t) a).tree.leftmost (s.goLeft a) then
    { State.dequeue b (s.alarms t) a with first := some a } else
      State.dequeue b (s.alarms t) a) = q
  have hqfirst : q.first = if (State.dequeue b (s.alarms t) a).tree.leftmost (s.goLeft a) then
      some a else (State.dequeue b (s.alarms t) a).first := by
    rw [← hq]
    split_ifs <;> rfl
  have hlinked : ∀ base' : AlarmQueue, base'.first = q.first → base'.tree = b.insertColor
      (((State.dequeue b (s.alarms t) a).tree.link (s.goLeft a) a).getD
        (State.dequeue b (s.alarms t) a).tree) a → QueueInv s.alarm t base' :=
    fun base' hfirst htree => hbase.link b (fun _ => rfl) hnot ht htree (hfirst.trans hqfirst)
  have hle : ∀ t', (t' = t ∧ (s.alarms t').first = some a) → t' = t ∨ False :=
    fun t' ht' => .inl ht'.1
  dsimp only
  simp only [hq]
  split_ifs with hupdate
  · obtain ⟨timer, wakeLock, heq, harmed⟩ := (s.setQueue t q).updateTimerLocked_eq t
      (decide ((s.alarms t).first = some a))
    rw [heq]
    have hset (tree : RbTree.Tree ℕ)
        (htree : QueueInv s.alarm t { q with timer := timer, tree := tree }) :
        (s.setQueue t { q with timer := timer, tree := tree }).Inv fun _ => False := by
      refine h.setQueue htree hle (.inr ?_)
      rintro e hfirst hstopped - hwait
      rw [setQueue_alarms_self] at hfirst hstopped harmed ⊢
      exact harmed e hfirst (h.short e) hstopped hwait
    have hinv := hset _ (hlinked _ rfl rfl)
    simp only [State.setTimer, State.setQueue, update_self, update_idem] at hinv ⊢
    exact ⟨hinv.queues, hinv.suspending, hinv.short, hinv.armed⟩
  · simp only [Bool.or_eq_true, decide_eq_true_eq, not_or, Bool.not_eq_true] at hupdate
    obtain ⟨hleft, hfirst⟩ := hupdate
    have hqueue : q = State.dequeue b (s.alarms t) a := by simp [← hq, hleft]
    simp only [State.setQueue, update_self, update_idem]
    refine h.setQueue (hlinked _ rfl rfl) hle (.inr ?_)
    intro e he
    rw [setQueue_alarms_self] at he ⊢
    subst hqueue
    have hsame : (State.dequeue b (s.alarms t) a).first = (s.alarms t).first := if_neg hfirst
    exact h.armed t (fun hlate => hfirst hlate.2) e (hsame ▸ he)

theorem alarmStartRange (h : s.Inv fun _ => False) (b : Balance ℕ) (a : ℕ) {start stop : ℤ}
    (hshort : 0 ≤ stop - start ∧ stop - start < 2 ^ 32) :
    (s.alarmStartRange b a start stop).Inv fun _ => False := by
  refine alarmEnqueueLocked b ⟨?_, h.suspending, ?_, ?_⟩
  · intro t
    refine ⟨(h.queues t).first_eq, (h.queues t).nodup, fun e he => ?_⟩
    rw [← (h.queues t).type_eq e he]
    by_cases hea : e = a
    · subst hea
      simp
    · simp [hea]
  · intro e
    by_cases hea : e = a
    · subst hea
      simpa [Alarm.Short] using hshort
    · simpa [hea] using h.short e
  · intro t ht e he
    have hea : e ≠ a := by
      rintro rfl
      refine ht ⟨?_, he⟩
      have hmem : e ∈ (s.alarms t).tree.inorder :=
        List.mem_of_mem_head? ((h.queues t).first_eq ▸ he)
      simpa using ((h.queues t).type_eq e hmem).symm
    simpa [hea] using h.armed t (fun hf => hf) e he

theorem alarmTryToCancel (h : s.Inv fun _ => False) (b : Balance ℕ) (a : ℕ) :
    (s.alarmTryToCancel b a).Inv fun _ => False := by
  unfold State.alarmTryToCancel
  generalize (s.alarm a).type = t
  dsimp only
  split_ifs with hmem hfirst
  · exact (h.setQueue_late ((h.queues t).dequeue b a)).updateTimerLocked true fun _ => .inl
  · refine h.setQueue ((h.queues t).dequeue b a) (by simp) (.inr ?_)
    intro e he
    rw [setQueue_alarms_self] at he ⊢
    have hsame : (dequeue b (s.alarms t) a).first = (s.alarms t).first := if_neg hfirst
    exact h.armed t (fun hf => hf) e (hsame ▸ he)
  · exact h

theorem armed_of_callback (hcallback : base.callback ≠ .idle) : (s.setQueue t base).Armed t := by
  rintro a - - hidle
  rw [setQueue_alarms_self] at hidle
  exact absurd hidle hcallback

section

variable (h : s.Inv fun _ => False) {b : Balance ℕ}
include h

theorem triggerLoop (b : Balance ℕ) (now : ℤ) : (s.triggerLoop b t now).Inv fun _ => False := by
  have hdone : ((s.setQueue t { s.alarms t with callback := .idle }).updateTimerLocked t true).Inv
      fun _ => False := by
    refine updateTimerLocked (setQueue_late h ?_) true fun _ => .inl
    exact (h.queues t).congr rfl rfl
  unfold State.triggerLoop
  dsimp only
  split
  next => exact hdone
  next a hfirst =>
    split_ifs
    · exact hdone
    · have hhead : (s.alarms t).tree.inorder.head? = some a := (h.queues t).first_eq ▸ hfirst
      refine h.setQueue ?_ (by simp) (.inr (armed_of_callback (by simp)))
      have hdeq := (h.queues t).dequeue b a
      refine hdeq.congr ?_ ?_
      · simp [dequeue, hfirst]
      · simp [dequeue, List.mem_of_mem_head? hhead]

theorem hrtimerExpire (t : AlarmType) : (s.hrtimerExpire t).Inv fun _ => False := by
  unfold State.hrtimerExpire
  dsimp only
  split_ifs
  · exact h.setQueue ((h.queues t).congr rfl rfl) (by simp) (.inr (armed_of_callback (by simp)))
  · exact h

/-- The two calls of `update_timer_locked` repair the wakeup queues. -/
theorem unsuspend (hidle : s.suspend = .idle) : s.unsuspend.Inv fun _ => False := by
  have hresumed : ({ s with suspended := false } : State).Inv fun t => t.isWakeup = true := by
    refine ⟨h.queues, fun hne => absurd hidle hne, h.short,
      fun t ht a hfirst hstopped hcallback _ => ?_⟩
    exact h.armed t (fun hf => hf) a hfirst hstopped hcallback (by simp [ht])
  have hrtc : (({ s with suspended := false } : State).updateTimerLocked .rtcWakeup false).Inv
      fun t => t = .elapsedRealtimeWakeup := by
    refine hresumed.updateTimerLocked false fun t ht => ?_
    cases t with
    | rtcWakeup => exact .inl rfl
    | elapsedRealtimeWakeup => exact .inr rfl
    | _ => cases ht
  exact hrtc.updateTimerLocked false fun _ => .inl

theorem hrtimerCancel (next : Suspend) (hsuspended : s.suspended = true)
    (hnone : t.isWakeup = true ∨ ((s.alarms t).callback = .idle → (s.alarms t).first = none)) :
    (s.hrtimerCancel t next).Inv fun _ => False := by
  unfold State.hrtimerCancel
  split_ifs with hidle
  · have hset : (s.setQueue t (hrtimerTryToCancel (s.alarms t))).Inv fun _ => False := by
      simp only [hrtimerTryToCancel, hidle, if_true]
      refine h.setQueue ((h.queues t).congr rfl rfl) (by simp) (.inr ?_)
      rintro a hfirst - - hwait
      rw [setQueue_alarms_self] at hfirst
      rcases hnone with hwake | hnone
      · simp [hwake, State.setQueue, hsuspended] at hwait
      · simp [hnone hidle] at hfirst
    exact ⟨hset.queues, fun _ => hsuspended, hset.short, hset.armed⟩
  · exact h

theorem alarmSuspend {rtc rtc' : ℕ} (hundisturbed : (Op.suspend rtc rtc').Undisturbed s) :
    (s.alarmSuspend rtc rtc').Inv fun _ => False := by
  unfold State.alarmSuspend
  cases hpc : s.suspend with
  | idle =>
    dsimp only
    split_ifs
    · exact h
    · refine ⟨h.queues, fun _ => rfl, h.short, fun t ht a hfirst hstopped hcallback hwait => ?_⟩
      exact h.armed t ht a hfirst hstopped hcallback (by simp at hwait; simp [hwait])
  | cancelRtcWakeup => exact h.hrtimerCancel _ (h.suspending (by simp [hpc])) (.inl rfl)
  | cancelMask => exact h.hrtimerCancel _ (h.suspending (by simp [hpc])) (.inr (hundisturbed hpc))
  | setRtcAlarm =>
    have hidle (w : WakeLockRequest) :
        ({ s with suspend := .idle, rtcWakeLock := w } : State).Inv fun _ => False :=
      ⟨h.queues, by simp, h.short, h.armed⟩
    dsimp only
    split
    · exact hidle _
    · split_ifs
      · exact (hidle _).unsuspend rfl
      · exact hidle _

theorem setRtcStop (newTime : ℤ) : (s.setRtcStop newTime).Inv fun _ => False := by
  refine ⟨fun t => ?_, h.suspending, h.short, fun t ht a hfirst hstopped => ?_⟩
  · have hstop : QueueInv s.alarm t (stopQueue s.wall (s.alarms t)) := by
      refine (h.queues t).congr ?_ ?_ <;>
        (simp only [stopQueue, hrtimerTryToCancel]; split_ifs <;> rfl)
    cases t with
    | systemtime => exact h.queues _
    | rtcWakeup | rtc => exact hstop
    | elapsedRealtimeWakeup | elapsedRealtime => exact hstop.congr rfl rfl
  · cases t with
    | systemtime => exact h.armed _ ht a hfirst hstopped
    | _ => cases hstopped

theorem restartQueue (t : AlarmType) : (s.restartQueue t).Inv fun _ => False := by
  refine updateTimerLocked (setQueue_late h ?_) false fun _ => .inl
  exact (h.queues t).congr rfl rfl

theorem setRtcRestart (ret : ℤ) : (s.setRtcRestart ret).Inv fun _ => False := by
  have hall := (((h.restartQueue .rtcWakeup).restartQueue .rtc).restartQueue
    .elapsedRealtimeWakeup).restartQueue .elapsedRealtime
  exact ⟨hall.queues, hall.suspending, hall.short, hall.armed⟩

theorem step {op : Op} (hop : op.Undisturbed s) : (s.step b op).Inv fun _ => False := by
  cases op with
  | startRange a start stop => exact h.alarmStartRange b a hop
  | cancel a => exact h.alarmTryToCancel b a
  | setRtc newTime =>
    simp only [State.step]
    split_ifs
    · exact h.setRtcStop newTime
    · exact h
  | settimeofday ret | rtcSetTime rtcSetTime =>
    simp only [State.step]
    split
    · exact ⟨h.queues, h.suspending, h.short, h.armed⟩
    · exact h
  | restart =>
    simp only [State.step]
    split
    · exact h.setRtcRestart _
    · exact h
  | expire t => exact h.hrtimerExpire t
  | callback t clock =>
    simp only [State.step, State.alarmTimerTriggered]
    split
    · exact h
    all_goals exact h.triggerLoop b _
  | suspend rtc rtc' => exact h.alarmSuspend hop
  | resume =>
    simp only [State.step, State.alarmResume]
    split_ifs with hidle
    · exact h.unsuspend hidle
    · exact h
  | tick elapsed => exact ⟨h.queues, h.suspending, h.short, h.armed⟩

theorem run {ops : List Op} (hops : AllUndisturbed b s ops) :
    (ops.foldl (State.step b) s).Inv fun _ => False := by
  induction ops generalizing s with
  | nil => exact h
  | cons op ops ih => exact ih (h.step hops.1) hops.2

end

end State.Inv

variable {b : Balance ℕ} {s : State}

/-- A queue is stopped by `alarm_set_rtc` only, and that of `ANDROID_ALARM_SYSTEMTIME` never. -/
structure State.StopsQueues (s : State) : Prop where
  systemtime : (s.alarms .systemtime).stopped = false
  stops : ∀ t, (s.alarms t).stopped = true → s.setRtc.Stops

theorem State.StopsQueues.step {op : Op} (h : s.StopsQueues) : (s.step b op).StopsQueues := by
  have hqueue (hop : op.IsQueueOp) : (s.step b op).StopsQueues := by
    have hsame : s.SameTime (s.step b op) := Op.sameTime_of_isQueueOp hop
    refine ⟨(hsame.stopped_eq _).trans h.systemtime, fun t ht => ?_⟩
    rw [hsame.setRtc_eq]
    exact h.stops t ((hsame.stopped_eq t).symm.trans ht)
  cases op with
  | setRtc newTime =>
    simp only [State.step]
    split_ifs
    · exact ⟨h.systemtime, fun _ _ => trivial⟩
    · exact h
  | settimeofday ret =>
    simp only [State.step]
    split
    · exact ⟨h.systemtime, fun _ _ => trivial⟩
    · exact h
  | restart =>
    simp only [State.step]
    split
    · have hstopped := fun s t t' => (restartQueue_sameTime s t t').2.2
      refine ⟨by simp [setRtcRestart, hstopped, h.systemtime], fun t ht => ?_⟩
      cases t <;> simp [setRtcRestart, hstopped, h.systemtime] at ht
    · exact h
  | rtcSetTime rtcSetTime =>
    simp only [State.step]
    split
    next hset =>
      refine ⟨h.systemtime, fun t ht => ?_⟩
      have hstops := h.stops t ht
      simp [hset, SetRtc.Stops] at hstops
    · exact h
  | tick elapsed => exact ⟨h.systemtime, h.stops⟩
  | _ => exact hqueue trivial

theorem State.StopsQueues.run (h : s.StopsQueues) (ops : List Op) :
    (ops.foldl (State.step b) s).StopsQueues := by
  induction ops generalizing s with
  | nil => exact h
  | cons op ops ih => exact ih h.step

end AndroidKernel.Rtc
