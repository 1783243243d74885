import AndroidKernel.WakeLock.Lists

/-!
# No suspend is lost

Whenever no suspend lock without a timeout is active, either locks with a timeout are, and the
expiry timer is set behind the last of them, or no lock is, and the work that suspends the device
has been queued. Every path that takes a suspend lock off its list looks at the rest of the list
again, except for `wake_lock_destroy`.
-/

namespace AndroidKernel.WakeLock

open List State

variable {s : State} {expired : List ℕ}

/-- The timer is set for a time at which every suspend lock has expired, and which is not later than
the expiry of one of them by more than the time that passed in the call that set it. Every lock was
unexpired when that call looked at it. -/
def ExpireTimer.Covers (timer : ExpireTimer) (s : State) : Prop :=
  (∀ a ∈ s.activeWakeLocks .suspend, ∃ now, timer.setFrom ≤ now ∧ now ≤ timer.setAt ∧
    0 < (s.lock a).timeLeft now ∧ now + (s.lock a).timeLeft now ≤ timer.expires) ∧
  ∃ a ∈ s.activeWakeLocks .suspend, ∃ now, timer.setFrom ≤ now ∧ now ≤ timer.setAt ∧
    0 < (s.lock a).timeLeft now ∧
    (timer.expires : ℤ) ≤ now + (s.lock a).timeLeft now + (timer.setAt - timer.setFrom)

/-- Unless a lock without a timeout is active, the suspend is on its way. -/
def State.Awaits (s : State) : Prop :=
  (∀ a ∈ s.activeWakeLocks .suspend, (s.lock a).autoExpire = true) →
    (∃ timer, s.expireTimer = some timer ∧ timer.Covers s) ∨
    (s.activeWakeLocks .suspend = [] ∧ s.queuedSince = true)

/-- The calls of a run: no active suspend lock is destroyed, and the handler of the expiry timer is
through within `2 ^ 31` jiffies from the call that set the timer. The checks of a suspend, which
also expire locks, are not among these calls. -/
def Call.Orderly (s : State) (call : Call) : Prop :=
  match call.op with
  | .wakeLockDestroy a => a ∉ s.activeWakeLocks .suspend
  | .expireWakeLocks => ∀ timer ∈ s.expireTimer,
      s.now + call.ticks.sum < timer.setFrom + 2 ^ 31
  | .suspendCheck | .powerSuspendLate => False
  | _ => True

/-- Every call of a run is orderly, in the state it is made in. -/
def AllOrderly : State → List Call → Prop
  | _, [] => True
  | s, call :: calls => call.Orderly s ∧ AllOrderly (s.step call) calls

/-- Destroying the only active lock leaves the system awake with no lock, no timer and no work. -/
theorem destroy_loses_suspend :
    let s := run 0 [⟨.wakeLockDestroy 0, []⟩]
    s.activeWakeLocks .suspend = [] ∧ s.expireTimer = none ∧ s.workQueued = false ∧
      s.queuedSince = false := by
  decide +kernel

theorem State.lock_expireAll {a : ℕ} (ha : a ∉ expired) :
    (s.expireAll expired).lock a = s.lock a := by
  induction expired generalizing s with
  | nil => rfl
  | cons b expired ih =>
    rw [mem_cons, not_or] at ha
    exact (ih ha.2).trans (State.lock_expireWakeLock ha.1)

theorem State.mem_active_expireAll {t : LockType} (hnodup : (s.activeWakeLocks t).Nodup) (a : ℕ) :
    a ∈ (s.expireAll expired).activeWakeLocks t ↔ a ∈ s.activeWakeLocks t ∧ a ∉ expired := by
  induction expired generalizing s with
  | nil => simp [expireAll]
  | cons b expired ih =>
    have herase : ((s.expireWakeLock b).activeWakeLocks t).Nodup := hnodup.erase b
    refine (ih herase).trans ?_
    change a ∈ (s.activeWakeLocks t).erase b ∧ a ∉ expired ↔ _
    rw [hnodup.mem_erase_iff, mem_cons]
    tauto

theorem Walked.kept_mem {maxTimeout ret : ℤ} {s' : State} {t : LockType} {kept : List ℕ}
    (h : Walked maxTimeout (s.activeWakeLocks t) s ret s' expired kept)
    (hnodup : (s.activeWakeLocks t).Nodup) :
    (∀ a, a ∈ s'.activeWakeLocks t ↔ a ∈ kept) ∧ ∀ a ∈ kept, s'.lock a = s.lock a := by
  have hdisjoint : (expired ++ kept).Nodup := h.perm.nodup_iff.mp hnodup
  have hnot (a : ℕ) (ha : a ∈ kept) : a ∉ expired := fun ha' =>
    disjoint_of_nodup_append hdisjoint ha' ha
  rw [h.state_eq]
  refine ⟨fun a => ?_, fun a ha => lock_expireAll (hnot a ha)⟩
  refine (mem_active_expireAll hnodup a).trans ?_
  rw [h.perm.mem_iff, mem_append]
  constructor
  · rintro ⟨ha | ha, hne⟩
    · exact absurd ha hne
    · exact ha
  · exact fun ha => ⟨.inr ha, hnot a ha⟩

theorem Lock.timeLeft_le_zero {lock : Lock} {m n : ℕ} (hpos : 0 < lock.timeLeft m)
    (hdue : m + lock.timeLeft m ≤ n) (hbound : n < m + 2 ^ 31) : lock.timeLeft n ≤ 0 := by
  obtain ⟨d, rfl⟩ : ∃ d, n = m + d := ⟨n - m, by omega⟩
  have hsub : lock.expires - BitVec.ofNat 32 (m + d) =
      lock.expires - BitVec.ofNat 32 m - BitVec.ofNat 32 d := by
    rw [BitVec.ofNat_add, sub_sub]
  have hd : (BitVec.ofNat 32 d).toInt = d := by
    rw [BitVec.toInt_eq_toNat_of_lt] <;> rw [BitVec.toNat_ofNat, Nat.mod_eq_of_lt] <;> omega
  unfold Lock.timeLeft at hpos hdue ⊢
  rw [hsub, BitVec.toInt_sub, hd, Int.bmod]
  omega

namespace State.Awaits

variable {s s' : State} {a : ℕ}

theorem of_walk (h : s.Listed) :
    ((s.hasWakeLockLocked .suspend).2.setExpireTimer s.now
      (s.hasWakeLockLocked .suspend).1).Awaits := by
  obtain ⟨expired, kept, hwalked, -⟩ := h.hasWakeLockLocked .suspend
  obtain ⟨hmem, hlock⟩ := hwalked.kept_mem (h.active_nodup _)
  obtain ⟨ret, s', hresult⟩ : ∃ ret s', s.hasWakeLockLocked .suspend = (ret, s') := ⟨_, _, rfl⟩
  rw [hresult] at hwalked hmem hlock ⊢
  dsimp only at hwalked hmem hlock ⊢
  unfold setExpireTimer
  rcases hwalked.result with ⟨rfl, a, ha, hauto⟩ | ⟨hret, hkept, hattained⟩
  · intro hall
    have hfalse := hall a ((hmem a).mpr ha)
    change (s'.lock a).autoExpire = true at hfalse
    rw [hlock a ha, hauto] at hfalse
    cases hfalse
  · by_cases hpos : 0 < ret
    · obtain ⟨now, ticks, hread, hle, -⟩ := s'.readJiffies_eq
      rw [if_pos hpos, hread]
      refine fun _ => .inl ⟨_, rfl, fun a ha => ?_, ?_⟩
      · have hak := (hmem a).mp ha
        obtain ⟨-, n, hn, hn', hleft, hmax⟩ := hkept a hak
        rw [← hlock a hak] at hleft hmax
        refine ⟨n, hn, hn'.trans hle, hleft, ?_⟩
        change (n : ℤ) + (s'.lock a).timeLeft n ≤ ((now + ret.toNat : ℕ) : ℤ)
        omega
      · obtain hzero | ⟨a, ha, n, hn, hn', hleft⟩ := hattained
        · omega
        · rw [← hlock a ha] at hleft
          refine ⟨a, (hmem a).mpr ha, n, hn, hn'.trans hle, ?_, ?_⟩
          · change 0 < (s'.lock a).timeLeft n
            omega
          · change ((now + ret.toNat : ℕ) : ℤ) ≤ n + (s'.lock a).timeLeft n + (now - s.now)
            omega
    · obtain rfl : ret = 0 := by omega
      refine fun _ => .inr ⟨List.eq_nil_iff_forall_not_mem.mpr fun a ha => ?_, rfl⟩
      obtain ⟨-, n, -, -, hleft, hmax⟩ := hkept a ((hmem a).mp ha)
      omega

theorem congr (h : s.Awaits) (hactive : s'.activeWakeLocks .suspend = s.activeWakeLocks .suspend)
    (hlock : ∀ a ∈ s.activeWakeLocks .suspend, s'.lock a = s.lock a)
    (htimer : s'.expireTimer = s.expireTimer) (hqueued : s'.queuedSince = s.queuedSince) :
    s'.Awaits := by
  intro hall
  rw [hactive] at hall
  rcases h fun a ha => hlock a ha ▸ hall a ha with ⟨timer, htimer', hcovers, hlast⟩ | hempty
  · refine .inl ⟨timer, htimer.trans htimer', fun a ha => ?_, ?_⟩
    · rw [hactive] at ha
      rw [hlock a ha]
      exact hcovers a ha
    · obtain ⟨a, ha, hlast⟩ := hlast
      rw [hactive]
      exact ⟨a, ha, by rwa [hlock a ha]⟩
  · rw [hactive, hqueued]
    exact .inr hempty

theorem not_mem_of_type (hlisted : s.Listed) (ht : (s.lock a).type ≠ .suspend) :
    a ∉ s.activeWakeLocks .suspend := fun ha => ht ((hlisted.mem_active _ _).mp ha).2.2

theorem relink (h : s.Awaits) (ha : a ∉ s.activeWakeLocks .suspend)
    (hactive : s'.activeWakeLocks .suspend = (s.activeWakeLocks .suspend).erase a)
    (hlock : ∀ b ≠ a, s'.lock b = s.lock b) (htimer : s'.expireTimer = s.expireTimer)
    (hqueued : s'.queuedSince = s.queuedSince) : s'.Awaits := by
  refine h.congr (hactive.trans (erase_of_not_mem ha)) (fun b hb => hlock b ?_) htimer hqueued
  rintro rfl
  exact ha hb

section

variable (h : s.Awaits) (hlisted : s.Listed) (a : ℕ)
include h hlisted

theorem wakeLockInternal (timeout : Option (BitVec 32)) :
    (s.wakeLockInternal a timeout).Awaits := by
  unfold State.wakeLockInternal
  split_ifs with hinit
  · cases timeout with
    | none =>
      dsimp only
      split_ifs with ht
      · -- the lock itself has no timeout
        intro hall
        have hmem : a ∈ (s.activate a).activeWakeLocks .suspend := by simp [activate, unlink, ht]
        have hfalse := hall a hmem
        change ((s.activate a).lock a).autoExpire = true at hfalse
        simp [activate, unlink] at hfalse
      · refine h.relink (not_mem_of_type hlisted ht) ?_ (fun b hb => ?_) rfl rfl
        · simp [activate, unlink, Ne.symm ht]
        · simp [activate, unlink, hb]
    | some timeout =>
      dsimp only
      split_ifs with ht
      · rw [ht]
        exact of_walk (hlisted.activateTimeout hinit timeout).countEvent
      · obtain ⟨now, ticks, hread, -⟩ := (s.unlink a).readJiffies_eq
        unfold activateTimeout
        rw [hread]
        refine h.relink (not_mem_of_type hlisted ht) ?_ (fun b hb => ?_) rfl rfl
        · simp [atTime, unlink, Ne.symm ht]
        · simp [atTime, unlink, hb]
  · exact h

theorem wakeUnlock : (s.wakeUnlock a).Awaits := by
  unfold State.wakeUnlock
  split_ifs with hinit
  · dsimp only
    split_ifs with ht
    · rw [ht]
      exact of_walk (hlisted.deactivate hinit)
    · refine h.relink (not_mem_of_type hlisted ht) rfl ?_ rfl rfl
      exact fun b hb => lock_expireWakeLock hb
  · exact h

theorem wakeLockInit (t : LockType) : (s.wakeLockInit a t).Awaits := by
  unfold State.wakeLockInit
  split_ifs with hinit
  · exact h
  · refine h.congr rfl (fun b hb => ?_) rfl rfl
    have hne : b ≠ a := by
      rintro rfl
      exact hinit ((hlisted.mem_active _ _).mp hb).1
    simp [hne]

end

theorem wakeLockDestroy (h : s.Awaits) (ha : a ∉ s.activeWakeLocks .suspend) :
    (s.wakeLockDestroy a).Awaits := by
  unfold State.wakeLockDestroy
  split_ifs
  · exact h.relink ha rfl (fun b hb => by simp [hb]) rfl rfl
  · exact h

/-- Once the timer is due, and before the jiffies wrap around, every lock that it covers has
expired. -/
theorem timeLeft_le_zero {timer : ExpireTimer} {n : ℕ} (hcovers : timer.Covers s)
    (ha : a ∈ s.activeWakeLocks .suspend) (hdue : timer.expires ≤ n)
    (hbound : n < timer.setFrom + 2 ^ 31) : (s.lock a).timeLeft n ≤ 0 := by
  obtain ⟨m, hm, -, hpos, hle⟩ := hcovers.1 a ha
  exact Lock.timeLeft_le_zero hpos (by omega) (by omega)

section

variable (h : s.Awaits) (hlisted : s.Listed)
include h hlisted

theorem expireWakeLocks
    (hbound : ∀ timer ∈ s.expireTimer, s.now + s.ticks.sum < timer.setFrom + 2 ^ 31) :
    s.expireWakeLocks.Awaits := by
  unfold State.expireWakeLocks
  cases htimer : s.expireTimer with
  | none => exact h
  | some timer =>
    dsimp only
    by_cases hdue : timer.expires ≤ s.now
    · have hfired : ({ s with expireTimer := none } : State).Listed := hlisted.congr rfl rfl rfl
      obtain ⟨expired, kept, hwalked, -⟩ := hfired.hasWakeLockLocked .suspend
      obtain ⟨hmem, hlock⟩ := hwalked.kept_mem (hfired.active_nodup _)
      obtain ⟨ret, s', hresult⟩ : ∃ ret s',
          ({ s with expireTimer := none } : State).hasWakeLockLocked .suspend = (ret, s') :=
        ⟨_, _, rfl⟩
      rw [if_pos hdue]
      rw [hresult] at hwalked hmem hlock ⊢
      dsimp only at hwalked hmem hlock ⊢
      rcases hwalked.result with ⟨rfl, a, ha, hauto⟩ | ⟨-, hkept, hattained⟩
      · intro hall
        have hfalse := hall a ((hmem a).mpr ha)
        change (s'.lock a).autoExpire = true at hfalse
        rw [hlock a ha, hauto] at hfalse
        cases hfalse
      · have hlast : s'.now ≤ s.now + s.ticks.sum := by
          have hsum : s'.now + s'.ticks.sum = s.now + s.ticks.sum := hwalked.sum_eq
          omega
        have hempty : kept = [] := by
          refine List.eq_nil_iff_forall_not_mem.mpr fun a ha => ?_
          have hactive (b : ℕ) (hb : b ∈ expired ++ kept) : b ∈ s.activeWakeLocks .suspend :=
            hwalked.perm.mem_iff.mpr hb
          have hauto (b : ℕ) (hb : b ∈ s.activeWakeLocks .suspend) :
              (s.lock b).autoExpire = true := by
            rcases List.mem_append.mp (hwalked.perm.mem_iff.mp hb) with hb | hb
            · exact hwalked.expired_auto b hb
            · exact (hkept b hb).1
          have hmem := hactive a (mem_append_right expired ha)
          rcases h hauto with ⟨timer', htimer', hcovers⟩ | ⟨hnil, -⟩
          · obtain rfl : timer = timer' := by simpa [htimer] using htimer'
            obtain ⟨-, n, hn, hn', hpos, -⟩ := hkept a ha
            have hn : s.now ≤ n := hn
            have hlimit := hbound timer htimer
            have hleft := timeLeft_le_zero hcovers hmem (hdue.trans hn) (by omega)
            change 0 < (s.lock a).timeLeft n at hpos
            omega
          · simp [hnil] at hmem
        have hzero : ret = 0 := by
          rcases hattained with hzero | ⟨a, ha, -⟩
          · exact hzero
          · simp [hempty] at ha
        rw [if_pos hzero]
        refine fun _ => .inr ⟨List.eq_nil_iff_forall_not_mem.mpr fun a ha => ?_, rfl⟩
        have hnone := (hmem a).mp ha
        simp [hempty] at hnone
    · rw [if_neg hdue]
      exact h

theorem suspendReturn : s.suspendReturn.Awaits := by
  have hidle : ({ s with suspend := .idle } : State).Awaits := h.congr rfl (fun _ _ => rfl) rfl rfl
  unfold State.suspendReturn
  split
  · dsimp only
    split_ifs
    · refine wakeLockInternal hidle ?_ _ _
      exact hlisted.congr rfl rfl rfl
    · exact hidle
  · exact h

theorem step {call : Call} (hcall : call.Orderly s) : (s.step call).Awaits := by
  have h' : (s.atTime s.now call.ticks).Awaits := h.congr rfl (fun _ _ => rfl) rfl rfl
  have hlisted' := hlisted.atTime s.now call.ticks
  suffices hop : ((s.atTime s.now call.ticks).apply call.op).Awaits from
    hop.congr rfl (fun _ _ => rfl) rfl rfl
  unfold Call.Orderly at hcall
  cases hop : call.op with
  | wakeLock a => exact h'.wakeLockInternal hlisted' a none
  | wakeLockTimeout a timeout => exact h'.wakeLockInternal hlisted' a (some timeout)
  | wakeUnlock a => exact h'.wakeUnlock hlisted' a
  | wakeLockInit a t => exact h'.wakeLockInit hlisted' a t
  | wakeLockDestroy a =>
    rw [hop] at hcall
    exact h'.wakeLockDestroy hcall
  | expireWakeLocks =>
    rw [hop] at hcall
    exact h'.expireWakeLocks hlisted' hcall
  | suspendCheck | powerSuspendLate => simp [hop] at hcall
  | pmSuspend =>
    simp only [apply, pmSuspend]
    split
    · exact h'.congr rfl (fun _ _ => rfl) rfl rfl
    · exact h'
  | suspendReturn => exact h'.suspendReturn hlisted'
  | advance jiffies => exact h'.congr rfl (fun _ _ => rfl) rfl rfl

end

theorem init (now : ℕ) : (init now).Awaits := by
  intro hall
  simpa [State.init] using hall mainWakeLock mem_cons_self

theorem run {calls : List Call} (h : s.Awaits) (hlisted : s.Listed) (hcalls : AllOrderly s calls) :
    (calls.foldl State.step s).Awaits := by
  induction calls generalizing s with
  | nil => exact h
  | cons call calls ih => exact ih (h.step hlisted hcalls.1) (hlisted.step call) hcalls.2

end State.Awaits

/-- No suspend is lost in a run in which no active suspend lock is destroyed and the timer's handler
runs in time: whenever no suspend lock without a timeout is active, either the others are covered by
the pending timer, or none is active and the work has been queued since one was. -/
theorem no_suspend_lost (now : ℕ) {calls : List Call} (hcalls : AllOrderly (init now) calls) :
    let s := run now calls
    (∀ a ∈ s.activeWakeLocks .suspend, (s.lock a).autoExpire = true) →
      (∃ timer, s.expireTimer = some timer ∧ timer.Covers s) ∨
      (s.activeWakeLocks .suspend = [] ∧ s.queuedSince = true) :=
  (State.Awaits.init now).run (.init now) hcalls

/-- The same for a lock that is taken for ten jiffies while the main lock is released, with the
clock going on during the calls. -/
theorem no_suspend_lost_timeout :
    let s := run 0 [⟨.wakeLockTimeout 1 10, [1, 2]⟩, ⟨.wakeUnlock 0, [3, 1]⟩, ⟨.advance 20, []⟩,
      ⟨.expireWakeLocks, [5]⟩]
    (∀ a ∈ s.activeWakeLocks .suspend, (s.lock a).autoExpire = true) →
      (∃ timer, s.expireTimer = some timer ∧ timer.Covers s) ∨
      (s.activeWakeLocks .suspend = [] ∧ s.queuedSince = true) := by
  refine no_suspend_lost 0 ⟨trivial, trivial, trivial, ?_, trivial⟩
  change ∀ timer ∈ (run 0 [⟨.wakeLockTimeout 1 10, [1, 2]⟩, ⟨.wakeUnlock 0, [3, 1]⟩,
    ⟨.advance 20, []⟩]).expireTimer, _
  decide +kernel

end AndroidKernel.WakeLock
