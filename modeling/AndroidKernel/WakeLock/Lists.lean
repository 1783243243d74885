import AndroidKernel.WakeLock.Basic

/-!
# The lists of wake locks

Flags and lists say the same in every state, and `has_wake_lock_locked`, which expires locks while
it walks a list, returns the largest time left of the locks that it leaves there.
-/

namespace AndroidKernel.WakeLock

open List State

/-- Flags and lists agree on the initialised locks. -/
structure State.Listed (s : State) : Prop where
  active_nodup : ∀ t, (s.activeWakeLocks t).Nodup
  inactive_nodup : s.inactiveLocks.Nodup
  mem_active : ∀ t a, a ∈ s.activeWakeLocks t ↔
    (s.lock a).initialized = true ∧ (s.lock a).active = true ∧ (s.lock a).type = t
  mem_inactive : ∀ a, a ∈ s.inactiveLocks ↔
    (s.lock a).initialized = true ∧ (s.lock a).active = false

/-- The state at another time. -/
def State.atTime (s : State) (now : ℕ) (ticks : List ℕ) : State :=
  { s with now := now, ticks := ticks }

theorem State.readJiffies_eq (s : State) :
    ∃ now ticks, s.readJiffies = s.atTime now ticks ∧ s.now ≤ now ∧
      now + ticks.sum = s.now + s.ticks.sum := by
  unfold State.readJiffies
  cases hticks : s.ticks with
  | nil => exact ⟨s.now, [], by simp [State.atTime, ← hticks], le_rfl, rfl⟩
  | cons tick ticks => exact ⟨_, _, rfl, Nat.le_add_right _ _, by simp [Nat.add_assoc]⟩

/-- The state after a list of locks has expired. -/
def State.expireAll (s : State) (expired : List ℕ) : State := expired.foldl expireWakeLock s

theorem State.expireAll_atTime (s : State) (expired : List ℕ) (now : ℕ) (ticks : List ℕ) :
    (s.atTime now ticks).expireAll expired = (s.expireAll expired).atTime now ticks := by
  induction expired generalizing s with
  | nil => rfl
  | cons a expired ih => exact ih (s.expireWakeLock a)

theorem State.lock_expireWakeLock {s : State} {a b : ℕ} (hne : b ≠ a) :
    (s.expireWakeLock a).lock b = s.lock b := by
  simp [expireWakeLock, State.deactivate, State.unlink, hne]

/-- What a walk over the list `rest` does: it expires some of the locks, and leaves the others. -/
structure Walked (maxTimeout : ℤ) (rest : List ℕ) (s : State) (ret : ℤ) (s' : State)
    (expired kept : List ℕ) : Prop where
  state_eq : s' = (s.expireAll expired).atTime s'.now s'.ticks
  now_le : s.now ≤ s'.now
  sum_eq : s'.now + s'.ticks.sum = s.now + s.ticks.sum
  perm : rest.Perm (expired ++ kept)
  expired_auto : ∀ a ∈ expired, (s.lock a).autoExpire = true
  result : (ret = -1 ∧ ∃ a ∈ kept, (s.lock a).autoExpire = false) ∨ (maxTimeout ≤ ret ∧
      (∀ a ∈ kept, (s.lock a).autoExpire = true ∧
        ∃ now, s.now ≤ now ∧ now ≤ s'.now ∧ 0 < (s.lock a).timeLeft now ∧
          (s.lock a).timeLeft now ≤ ret) ∧
      (ret = maxTimeout ∨ ∃ a ∈ kept, ∃ now, s.now ≤ now ∧ now ≤ s'.now ∧
        (s.lock a).timeLeft now = ret))

namespace Walked

variable {maxTimeout maxTimeout' ret : ℤ} {rest expired kept ticks : List ℕ} {s s' : State}
  {a now : ℕ}

theorem keep (h : Walked maxTimeout' rest (s.atTime now ticks) ret s' expired kept)
    (hle : s.now ≤ now) (hsum : now + ticks.sum = s.now + s.ticks.sum)
    (hauto : (s.lock a).autoExpire = true) (hpos : 0 < (s.lock a).timeLeft now)
    (hmax : maxTimeout ≤ maxTimeout') (hleft : (s.lock a).timeLeft now ≤ maxTimeout')
    (hwhich : maxTimeout' = maxTimeout ∨ (s.lock a).timeLeft now = maxTimeout') :
    Walked maxTimeout (a :: rest) s ret s' expired (a :: kept) where
  state_eq := by
    have heq := h.state_eq
    rw [expireAll_atTime] at heq
    exact heq
  now_le := hle.trans h.now_le
  sum_eq := h.sum_eq.trans hsum
  perm := (h.perm.cons a).trans List.perm_middle.symm
  expired_auto := h.expired_auto
  result := by
    rcases h.result with ⟨hret, b, hb, hbauto⟩ | ⟨hret, hkept, hattained⟩
    · exact .inl ⟨hret, b, mem_cons_of_mem a hb, hbauto⟩
    · refine .inr ⟨hmax.trans hret, fun b hb => ?_, ?_⟩
      · rcases List.mem_cons.mp hb with rfl | hb
        · exact ⟨hauto, now, hle, h.now_le, hpos, hleft.trans hret⟩
        · obtain ⟨hbauto, n, hn, hn', hbpos, hbleft⟩ := hkept b hb
          exact ⟨hbauto, n, hle.trans hn, hn', hbpos, hbleft⟩
      · rcases hattained with rfl | ⟨b, hb, n, hn, hn', hbleft⟩
        · rcases hwhich with heq | heq
          · exact .inl heq
          · exact .inr ⟨a, mem_cons_self, now, hle, h.now_le, heq⟩
        · exact .inr ⟨b, mem_cons_of_mem a hb, n, hle.trans hn, hn', hbleft⟩

theorem expire
    (h : Walked maxTimeout rest ((s.atTime now ticks).expireWakeLock a) ret s' expired kept)
    (hnotmem : a ∉ rest) (hle : s.now ≤ now) (hsum : now + ticks.sum = s.now + s.ticks.sum)
    (hauto : (s.lock a).autoExpire = true) :
    Walked maxTimeout (a :: rest) s ret s' (a :: expired) kept := by
  -- the locks behind it are not touched by the expiry
  have hsame (b : ℕ) (hb : b ∈ expired ++ kept) :
      ((s.atTime now ticks).expireWakeLock a).lock b = s.lock b := by
    refine lock_expireWakeLock ?_
    rintro rfl
    exact hnotmem (h.perm.mem_iff.mpr hb)
  have hkept (b : ℕ) (hb : b ∈ kept) := hsame b (mem_append_right expired hb)
  have hnow : now ≤ s'.now := h.now_le
  refine ⟨?_, hle.trans hnow, h.sum_eq.trans hsum, h.perm.cons a, fun b hb => ?_, ?_⟩
  · have heq := h.state_eq
    change s' = (((s.expireWakeLock a).atTime now ticks).expireAll expired).atTime _ _ at heq
    rw [expireAll_atTime] at heq
    exact heq
  · rcases List.mem_cons.mp hb with rfl | hb
    · exact hauto
    · exact hsame b (mem_append_left kept hb) ▸ h.expired_auto b hb
  · rcases h.result with ⟨hret, b, hb, hbauto⟩ | ⟨hret, hall, hattained⟩
    · exact .inl ⟨hret, b, hb, by rwa [hkept b hb] at hbauto⟩
    · refine .inr ⟨hret, fun b hb => ?_, hattained.imp_right ?_⟩
      · obtain ⟨hbauto, n, hn, hn', hbpos, hbleft⟩ := hall b hb
        rw [hkept b hb] at hbauto hbpos hbleft
        exact ⟨hbauto, n, hle.trans hn, hn', hbpos, hbleft⟩
      · rintro ⟨b, hb, n, hn, hn', hbleft⟩
        rw [hkept b hb] at hbleft
        exact ⟨b, hb, n, hle.trans hn, hn', hbleft⟩

end Walked

/-- A walk does what `Walked` says. -/
theorem State.walk_spec {rest : List ℕ} (hnodup : rest.Nodup) (maxTimeout : ℤ) (s : State) :
    ∃ expired kept, Walked maxTimeout rest s (State.walk maxTimeout rest s).1
      (State.walk maxTimeout rest s).2 expired kept := by
  induction rest generalizing maxTimeout s with
  | nil => exact ⟨[], [], rfl, le_rfl, rfl, .refl _, by simp, .inr ⟨le_rfl, by simp, .inl rfl⟩⟩
  | cons a rest ih =>
    obtain ⟨hnotmem, hrest⟩ := List.nodup_cons.mp hnodup
    obtain ⟨now, ticks, hread, hle, hsum⟩ := s.readJiffies_eq
    rw [State.walk]
    by_cases hauto : (s.lock a).autoExpire = true
    · rw [if_pos hauto, hread]
      change ∃ expired kept, Walked maxTimeout (a :: rest) s
        (if (s.lock a).timeLeft now ≤ 0 then _ else _ : ℤ × State).1
        (if (s.lock a).timeLeft now ≤ 0 then _ else _ : ℤ × State).2 expired kept
      split_ifs with hleft hmax
      · obtain ⟨expired, kept, h⟩ := ih hrest maxTimeout ((s.atTime now ticks).expireWakeLock a)
        exact ⟨_, _, h.expire hnotmem hle hsum hauto⟩
      · obtain ⟨expired, kept, h⟩ := ih hrest ((s.lock a).timeLeft now) (s.atTime now ticks)
        exact ⟨_, _, h.keep hle hsum hauto (not_le.mp hleft) hmax.le le_rfl (.inr rfl)⟩
      · obtain ⟨expired, kept, h⟩ := ih hrest maxTimeout (s.atTime now ticks)
        exact ⟨_, _, h.keep hle hsum hauto (not_le.mp hleft) le_rfl (not_lt.mp hmax) (.inl rfl)⟩
    · rw [if_neg hauto]
      refine ⟨[], a :: rest, rfl, le_rfl, rfl, .refl _, by simp, .inl ⟨rfl, a, ?_, ?_⟩⟩
      · exact mem_cons_self
      · simpa using hauto

namespace State.Listed

variable {s s' : State}

section

variable (h : s.Listed)
include h

theorem relink (a : ℕ) (hlock : ∀ b ≠ a, s'.lock b = s.lock b)
    (hactive : ∀ t, (s'.activeWakeLocks t).Perm
      (if (s'.lock a).initialized = true ∧ (s'.lock a).active = true ∧ (s'.lock a).type = t then
        a :: (s.activeWakeLocks t).erase a else (s.activeWakeLocks t).erase a))
    (hinactive : s'.inactiveLocks.Perm
      (if (s'.lock a).initialized = true ∧ (s'.lock a).active = false then
        a :: s.inactiveLocks.erase a else s.inactiveLocks.erase a)) : s'.Listed := by
  have hnot (l : List ℕ) (hl : l.Nodup) : a ∉ l.erase a := hl.not_mem_erase
  have hnodup (l : List ℕ) (hl : l.Nodup) (p : Prop) [Decidable p] :
      (if p then a :: l.erase a else l.erase a).Nodup := by
    split_ifs
    · exact List.nodup_cons.mpr ⟨hnot l hl, hl.erase a⟩
    · exact hl.erase a
  have hmem (l : List ℕ) (hl : l.Nodup) (p : Prop) [Decidable p] (b : ℕ) :
      b ∈ (if p then a :: l.erase a else l.erase a) ↔ (b = a ∧ p) ∨ (b ≠ a ∧ b ∈ l) := by
    by_cases hba : b = a
    · subst hba
      split_ifs with hp <;> simp [hp, hnot l hl]
    · split_ifs with hp <;> simp [hba, hp, mem_erase_of_ne hba]
  refine ⟨fun t => ?_, ?_, fun t b => ?_, fun b => ?_⟩
  · exact (hactive t).nodup_iff.mpr (hnodup _ (h.active_nodup t) _)
  · exact hinactive.nodup_iff.mpr (hnodup _ h.inactive_nodup _)
  · rw [(hactive t).mem_iff, hmem _ (h.active_nodup t)]
    by_cases hba : b = a
    · simp [hba]
    · simp [hba, hlock b hba, h.mem_active]
  · rw [hinactive.mem_iff, hmem _ h.inactive_nodup]
    by_cases hba : b = a
    · simp [hba]
    · simp [hba, hlock b hba, h.mem_inactive]

theorem congr (hlock : s'.lock = s.lock) (hactive : s'.activeWakeLocks = s.activeWakeLocks)
    (hinactive : s'.inactiveLocks = s.inactiveLocks) : s'.Listed := by
  refine ⟨?_, ?_, ?_, ?_⟩
  · rw [hactive]; exact h.active_nodup
  · rw [hinactive]; exact h.inactive_nodup
  · rw [hactive, hlock]; exact h.mem_active
  · rw [hinactive, hlock]; exact h.mem_inactive

theorem atTime (now : ℕ) (ticks : List ℕ) : (s.atTime now ticks).Listed := h.congr rfl rfl rfl

theorem readJiffies : s.readJiffies.Listed := by
  obtain ⟨now, ticks, heq, -⟩ := s.readJiffies_eq
  rw [heq]
  exact h.atTime now ticks

theorem deactivate {a : ℕ} (ha : (s.lock a).initialized = true) : (s.deactivate a).Listed := by
  refine h.relink a (fun b hb => lock_expireWakeLock hb) (fun t => ?_) ?_
  · simp [State.deactivate, State.unlink]
  · simp [State.deactivate, State.unlink, ha]

theorem activate {a : ℕ} (ha : (s.lock a).initialized = true) : (s.activate a).Listed := by
  refine h.relink a (fun b hb => ?_) (fun t => ?_) ?_
  · simp [State.activate, State.unlink, hb]
  · by_cases ht : t = (s.lock a).type
    · subst ht
      simp [State.activate, State.unlink, ha]
    · simp [State.activate, State.unlink, ha, ht, Ne.symm ht]
  · simp [State.activate, State.unlink]

theorem activateTimeout {a : ℕ} (ha : (s.lock a).initialized = true) (timeout : BitVec 32) :
    (s.activateTimeout a timeout).Listed := by
  obtain ⟨now, ticks, heq, -⟩ := (s.unlink a).readJiffies_eq
  unfold State.activateTimeout
  rw [heq]
  refine h.relink a (fun b hb => ?_) (fun t => ?_) ?_
  · simp [State.atTime, State.unlink, hb]
  · by_cases ht : t = (s.lock a).type
    · subst ht
      simp [State.atTime, State.unlink, ha]
    · simp [State.atTime, State.unlink, ha, ht, Ne.symm ht]
  · simp [State.atTime, State.unlink]

theorem wakeLockDestroy (a : ℕ) : (s.wakeLockDestroy a).Listed := by
  unfold State.wakeLockDestroy
  split_ifs
  · refine h.relink a (fun b hb => ?_) (fun t => ?_) ?_
    · simp [hb]
    · simp [State.unlink]
    · simp [State.unlink]
  · exact h

theorem wakeLockInit (a : ℕ) (t : LockType) : (s.wakeLockInit a t).Listed := by
  unfold State.wakeLockInit
  split_ifs with hinit
  · exact h
  · have hactive (t : LockType) : a ∉ s.activeWakeLocks t := by simp [h.mem_active, hinit]
    have hinactive : a ∉ s.inactiveLocks := by simp [h.mem_inactive, hinit]
    refine h.relink a (fun b hb => ?_) (fun t => ?_) ?_
    · simp [hb]
    · simp [erase_of_not_mem (hactive t)]
    · simp [erase_of_not_mem hinactive]

theorem expireAll {expired : List ℕ} (hexpired : ∀ a ∈ expired, (s.lock a).initialized = true) :
    (s.expireAll expired).Listed := by
  induction expired generalizing s with
  | nil => exact h
  | cons a expired ih =>
    refine ih (h.deactivate (hexpired a mem_cons_self)) fun b hb => ?_
    by_cases hba : b = a
    · subst hba
      simpa [expireWakeLock, State.deactivate, State.unlink] using hexpired b mem_cons_self
    · rw [lock_expireWakeLock hba]
      exact hexpired b (mem_cons_of_mem a hb)

end

end State.Listed

/-- What `has_wake_lock_locked` returns and does, in a state whose flags and lists agree. -/
theorem State.Listed.hasWakeLockLocked {s : State} (h : s.Listed) (t : LockType) :
    ∃ expired kept, Walked 0 (s.activeWakeLocks t) s (s.hasWakeLockLocked t).1
      (s.hasWakeLockLocked t).2 expired kept ∧ (s.hasWakeLockLocked t).2.Listed := by
  obtain ⟨expired, kept, hwalked⟩ := walk_spec (h.active_nodup t) 0 s
  refine ⟨expired, kept, hwalked, ?_⟩
  have hlisted : (s.expireAll expired).Listed := by
    refine h.expireAll fun a ha => ?_
    have hmem := hwalked.perm.mem_iff.mpr (mem_append_left kept ha)
    exact ((h.mem_active t a).mp hmem).1
  change (State.walk 0 (s.activeWakeLocks t) s).2.Listed
  rw [hwalked.state_eq]
  exact hlisted.atTime _ _

namespace State.Listed

variable {s : State}

section

variable (h : s.Listed)
include h

theorem setExpireTimer (setFrom : ℕ) (expireIn : ℤ) :
    (s.setExpireTimer setFrom expireIn).Listed := by
  have hread := h.readJiffies
  unfold State.setExpireTimer
  dsimp only
  split_ifs
  · exact hread.congr rfl rfl rfl
  · exact h.congr rfl rfl rfl
  · exact h.congr rfl rfl rfl

theorem walked (t : LockType) : (s.hasWakeLockLocked t).2.Listed := by
  obtain ⟨expired, kept, -, hlisted⟩ := h.hasWakeLockLocked t
  exact hlisted

theorem countEvent : s.countEvent.Listed := h.congr rfl rfl rfl

theorem wakeLockInternal (a : ℕ) (timeout : Option (BitVec 32)) :
    (s.wakeLockInternal a timeout).Listed := by
  unfold State.wakeLockInternal
  split_ifs with hinit
  · cases timeout with
    | none =>
      dsimp only
      split_ifs
      · exact (h.activate hinit).countEvent.setExpireTimer _ _
      · exact h.activate hinit
    | some timeout =>
      dsimp only
      split_ifs
      · exact ((h.activateTimeout hinit timeout).countEvent.walked _).setExpireTimer _ _
      · exact h.activateTimeout hinit timeout
  · exact h

theorem wakeUnlock (a : ℕ) : (s.wakeUnlock a).Listed := by
  unfold State.wakeUnlock
  split_ifs with hinit
  · dsimp only
    split_ifs
    · exact ((h.deactivate hinit).walked _).setExpireTimer _ _
    · exact h.deactivate hinit
  · exact h

theorem expireWakeLocks : s.expireWakeLocks.Listed := by
  unfold State.expireWakeLocks
  have hwalked : ({ s with expireTimer := none }.hasWakeLockLocked .suspend).2.Listed := by
    refine walked ?_ _
    exact h.congr rfl rfl rfl
  split
  · exact h
  · dsimp only
    split_ifs
    · exact hwalked.congr rfl rfl rfl
    · exact hwalked
    · exact h

theorem suspendCheck : s.suspendCheck.Listed := by
  unfold State.suspendCheck
  have hwalked : ({ s with workQueued := false }.hasWakeLockLocked .suspend).2.Listed := by
    refine walked ?_ _
    exact h.congr rfl rfl rfl
  dsimp only
  split_ifs
  · exact hwalked
  · exact hwalked.congr rfl rfl rfl
  · exact h

theorem suspendReturn : s.suspendReturn.Listed := by
  have hidle : ({ s with suspend := .idle } : State).Listed := h.congr rfl rfl rfl
  unfold State.suspendReturn
  split
  · dsimp only
    split_ifs
    · exact hidle.wakeLockInternal _ _
    · exact hidle
  · exact h

theorem apply (op : Op) : (s.apply op).Listed := by
  cases op with
  | wakeLock a => exact h.wakeLockInternal a none
  | wakeLockTimeout a timeout => exact h.wakeLockInternal a (some timeout)
  | wakeUnlock a => exact h.wakeUnlock a
  | wakeLockInit a t => exact h.wakeLockInit a t
  | wakeLockDestroy a => exact h.wakeLockDestroy a
  | expireWakeLocks => exact h.expireWakeLocks
  | suspendCheck => exact h.suspendCheck
  | pmSuspend =>
    simp only [State.apply, State.pmSuspend]
    split
    · exact h.congr rfl rfl rfl
    · exact h
  | powerSuspendLate => exact h.walked _
  | suspendReturn => exact h.suspendReturn
  | advance jiffies => exact h.atTime _ _

theorem step (call : Call) : (s.step call).Listed :=
  ((h.atTime s.now call.ticks).apply call.op).atTime _ []

end

theorem init (now : ℕ) : (State.init now).Listed where
  active_nodup t := by cases t <;> simp [State.init]
  inactive_nodup := by simp [State.init]
  mem_active t a := by
    cases t with
    | suspend => simpa [State.init] using fun h : a = mainWakeLock => Or.inl h
    | idle => simp [State.init]
  mem_inactive a := by
    have hne : unknownWakeup ≠ mainWakeLock := by decide
    by_cases ha : a = mainWakeLock
    · simp [State.init, ha, hne.symm]
    · simp [State.init, ha]

end State.Listed

end AndroidKernel.WakeLock
