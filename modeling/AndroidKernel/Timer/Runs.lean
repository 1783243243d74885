import AndroidKernel.Timer.Wheel

/-!
# Runs of the timer wheel

Each action on the base does to the table of due ticks what is seen of it, and so does every
sequence of actions.
-/

namespace AndroidKernel.Timer

open Base Table Function

variable {ι : Type}

/-- Between two actions: the base holds all timers of the table and reads its clock, and the tick
that was started last is not ahead of the clock. -/
structure Matches (s : Base ι) (t : Table ι) : Prop where
  holds : Holds s t (fun _ => t.now) []
  jiffies : s.jiffies = t.jiffies % 2 ^ 32
  reached : t.now ≤ t.jiffies + 1

theorem u32_lt (n : ℕ) : u32 n < 2 ^ 32 := Nat.mod_lt _ (by decide)

theorem applySlack_lt (s : Base ι) (x : ι) {expires : ℕ} (h : expires < 2 ^ 32) :
    s.applySlack x expires < 2 ^ 32 := by
  unfold applySlack
  simp only
  generalize hlimit : (if 0 ≤ s.slack x then u32 (expires + (s.slack x).toNat)
    else if timeAfter expires s.jiffies then u32 (expires + u32Sub expires s.jiffies / 256)
    else expires) = limit
  have hlt : limit < 2 ^ 32 := by
    rw [← hlimit]
    split_ifs
    · exact u32_lt _
    · exact u32_lt _
    · exact h
  split_ifs
  · exact h
  · exact Nat.lt_of_le_of_lt (Nat.div_mul_le_self ..) hlt

/-- The table without timers. -/
def Table.init (now : ℕ) : Table ι := ⟨now, now, fun _ => none⟩

theorem jiffies_cascade (s : Base ι) (level : Level) (index : ℕ) :
    (s.cascade level index).jiffies = s.jiffies := by
  have hfold : ∀ (l : List ι) (s : Base ι), (l.foldl internalAddTimer s).jiffies = s.jiffies := by
    intro l
    induction l with
    | nil => exact fun s => rfl
    | cons x l ih => exact fun s => ih _
  exact hfold _ _

theorem jiffies_tick (s : Base ι) : s.tick.jiffies = s.jiffies := by
  unfold tick cascades
  simp only
  split_ifs <;> simp only [jiffies_cascade]

/-- A tick is started only when the clock has reached it. -/
theorem Matches.now_le_jiffies {s : Base ι} {t : Table ι} (h : Matches s t)
    (hready : timeAfterEq s.jiffies s.timerJiffies) : t.now ≤ t.jiffies := by
  have hreached := h.reached
  by_contra hlt
  rw [h.jiffies, h.holds.timerJiffies, show t.now = t.jiffies + 1 by omega] at hready
  have hlow := of_decide_eq_true hready
  unfold u32Sub u32 at hlow
  omega

section Runs

variable [DecidableEq ι] {s s' : Base ι} {t : Table ι} {es : List (Event ι)}

theorem jiffies_modTimerBase (s : Base ι) (x : ι) (expires : ℕ) :
    (s.modTimerBase x expires).jiffies = s.jiffies := by
  unfold modTimerBase
  simp only
  split_ifs <;> rfl

theorem Matches.armed (h : Matches s t) (x : ι) {expires : ℕ} (hlt : expires < 2 ^ 32) :
    Matches (s.modTimerBase x expires)
      { t with due := update t.due x (some (dueTick t.now expires)) } := by
  refine ⟨h.holds.modTimerBase x hlt, ?_, h.reached⟩
  rw [jiffies_modTimerBase]
  exact h.jiffies

theorem Matches.step (h : Matches s t) {a : Action ι} (hstep : s.step a = some (s', es)) :
    ∃ t', Run t es t' ∧ Matches s' t' := by
  have hone : ∀ {e : Event ι} {t' : Table ι}, t.Step e t' → Run t [e] t' := fun hs =>
    .cons hs (.nil _)
  cases a with
  | clock ticks =>
    cases hstep
    have hreached := h.reached
    refine ⟨_, hone (.clock ticks), { h.holds with }, ?_, by simp only; omega⟩
    simp only [u32, h.jiffies, Nat.mod_add_mod]
  | modTimer x expires =>
    simp only [Base.step] at hstep
    split_ifs at hstep
    · cases hstep
      exact ⟨t, .nil t, h⟩
    · cases hstep
      exact ⟨_, hone (.armed x _), h.armed x (applySlack_lt s x (u32_lt expires))⟩
  | modTimerPending x expires =>
    simp only [Base.step] at hstep
    split_ifs at hstep
    · cases hstep
      exact ⟨_, hone (.armed x _), h.armed x (u32_lt expires)⟩
    · cases hstep
      exact ⟨t, .nil t, h⟩
  | addTimer x expires =>
    simp only [Base.step] at hstep
    split_ifs at hstep
    cases hstep
    exact ⟨_, hone (.armed x _), h.armed x (applySlack_lt s x (u32_lt expires))⟩
  | delTimer x =>
    simp only [Base.step, Base.delTimer] at hstep
    split_ifs at hstep
    · cases hstep
      exact ⟨_, hone (.dropped x), h.holds.detach x, h.jiffies, h.reached⟩
    · cases hstep
      exact ⟨t, .nil t, h⟩
  | tick =>
    simp only [Base.step] at hstep
    split_ifs at hstep with hready
    cases hstep
    have hclock := h.now_le_jiffies hready.2
    refine ⟨_, hone (.tick hclock fun _ _ hdue => h.holds.now_le hready.1 hdue),
      h.holds.tick hready.1, ?_, Nat.succ_le_succ hclock⟩
    rw [jiffies_tick]
    exact h.jiffies
  | expire =>
    simp only [Base.step] at hstep
    cases hwork : s.lists .work with
    | nil => simp [hwork] at hstep
    | cons x rest =>
      simp only [hwork] at hstep
      cases hstep
      obtain ⟨d, hdue, hnow⟩ := h.holds.fits .work x (by rw [hwork]; exact List.mem_cons_self ..)
      have hclock : d ≤ t.jiffies := by
        have hreached := hnow ▸ h.reached
        omega
      exact ⟨_, hone (.ran x d hdue hnow hclock), h.holds.detach x, h.jiffies, h.reached⟩

theorem Table.Run.append {t' t'' : Table ι} {es' : List (Event ι)} (h : Run t es t')
    (h' : Run t' es' t'') : Run t (es ++ es') t'' := by
  induction h with
  | nil t => exact h'
  | cons hstep _ ih => exact .cons hstep (ih h')

theorem Matches.run (h : Matches s t) {as : List (Action ι)} (hrun : s.run as = some (s', es)) :
    ∃ t', Run t es t' ∧ Matches s' t' := by
  induction as generalizing s t es with
  | nil =>
    cases hrun
    exact ⟨t, .nil t, h⟩
  | cons a as ih =>
    simp only [run, Option.bind_eq_bind, Option.bind_eq_some_iff, Option.pure_def,
      Option.some.injEq, Prod.mk.injEq] at hrun
    obtain ⟨⟨s₁, es₁⟩, hstep, ⟨s₂, es₂⟩, hrest, rfl, rfl⟩ := hrun
    obtain ⟨t₁, hrun₁, h₁⟩ := h.step hstep
    obtain ⟨t₂, hrun₂, h₂⟩ := ih h₁ hrest
    exact ⟨t₂, hrun₁.append hrun₂, h₂⟩

end Runs

end AndroidKernel.Timer
