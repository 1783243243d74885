import AndroidKernel.Ashmem.PinSets

/-!
# Purged pages are reported

Whether a page was purged is kept with its range, through merging, cutting and splitting. A
trace remembers the pages that `ashmem_shrink` handed to `vmtruncate_range` since they were last
unpinned, and the list answers for every one of them as long as no `range_alloc` fails.
-/

namespace AndroidKernel.Ashmem

/-- The areas with the pages truncated since their last `ASHMEM_UNPIN` and not pinned since. -/
structure Trace where
  state : State
  gone : ℕ → ℕ → Bool

namespace Trace

/-- Nothing has happened. -/
def init : Trace := ⟨.init, fun _ _ => false⟩

/-- The pages of an area outside an interval. -/
def forget (t : Trace) (asma pgstart pgend : ℕ) (a page : ℕ) : Bool :=
  t.gone a page && !(a == asma && pgstart ≤ page && page ≤ pgend)

/-- One more operation. -/
def step (t : Trace) : Op → Trace
  | .pin asma alloc pgstart pgend =>
    ⟨(t.state.pin asma alloc pgstart pgend).2, t.forget asma pgstart pgend⟩
  | .unpin asma alloc pgstart pgend =>
    let (done, s) := t.state.unpin asma alloc pgstart pgend
    ⟨s, if done then t.forget asma pgstart pgend else t.gone⟩
  | .shrink nrToScan fs =>
    let (ranges, s) := t.state.shrink nrToScan fs
    ⟨s, fun a page => t.gone a page || ranges.any fun entry => entry.1 == a && entry.2.pageIn page⟩

/-- The trace of a run. -/
def run (ops : List Op) : Trace := ops.foldl step init

end Trace

/-- `ASHMEM_PIN` of a range with a truncated page in it tells so. -/
def Trace.Reports (t : Trace) : Prop :=
  ∀ asma pgstart pgend page, pgstart ≤ page → page ≤ pgend → t.gone asma page = true →
    (t.state.pin asma true pgstart pgend).1 = true

/-- A page is lost sight of when `range_alloc` fails for the second half of a range that is
split: pages 0 to 2 are unpinned and purged, page 1 is pinned, and then page 2 is pinned as if it
had kept its contents. -/
theorem purge_hidden_by_failed_split :
    let t := Trace.run [.unpin 0 true 0 2, .shrink 3 true, .pin 0 false 1 1]
    t.gone 0 2 = true ∧ (t.state.pin 0 true 2 2).1 = false := by
  decide +kernel

/-- Every truncated page is in a purged range of the list. -/
structure Trace.Inv (t : Trace) : Prop where
  ordered : t.state.Ordered
  covers : ∀ asma page, t.gone asma page = true → Covers (· = true) (t.state.unpinned asma) page

namespace State

variable {s : State} {nrToScan : ℤ}

/-- What is handed to `vmtruncate_range` is in a purged range afterwards. -/
theorem covers_of_shrinkLoop {l : List (ℕ × ℕ)} {entry : ℕ × Range} {page : ℕ}
    (hentry : entry ∈ (shrinkLoop l nrToScan s).1) (hpage : entry.2.pageIn page = true) :
    Covers (· = true) ((shrinkLoop l nrToScan s).2.unpinned entry.1) page := by
  have hpurge : ∀ (s : State) (e : ℕ × ℕ) (r : Range), s.range e = some r → r.pageIn page = true →
      Covers (· = true) ((s.purge e r).unpinned e.1) page := by
    intro s e r hr hhas
    obtain ⟨hlo, hhi⟩ : r.pgstart ≤ page ∧ page ≤ r.pgend := by
      simpa [Range.pageIn] using hhas
    have hid : (r.id == e.2) = true := List.find?_some (p := fun r : Range => r.id == e.2) hr
    refine ⟨{ r with purged := true }, ?_, rfl, hlo, hhi⟩
    simp only [purge, Function.update_self, List.mem_map]
    exact ⟨r, List.mem_of_find?_eq_some hr, by simp [hid]⟩
  have hmono : ∀ b b' : Bool, (b = true → b' = true) → b = true → b' = true := fun _ _ h => h
  induction l generalizing s nrToScan with
  | nil => simp [shrinkLoop] at hentry
  | cons e l ih =>
    unfold shrinkLoop at hentry ⊢
    split at hentry
    next hnone => exact ih hentry
    next r hr =>
      dsimp only at hentry ⊢
      split_ifs at hentry ⊢ with hstop
      · rw [List.mem_singleton.mp hentry] at hpage ⊢
        exact hpurge s e r hr hpage
      · rcases List.mem_cons.mp hentry with rfl | hentry
        · exact covers_of_aged (aged_shrinkLoop l _ _) hmono (hpurge s e r hr hpage)
        · exact ih hentry

end State

namespace Trace

variable {t : Trace} {hi lo asma : ℕ}

theorem forget_eq_true {pgstart pgend a page : ℕ} (h : t.forget asma pgstart pgend a page = true) :
    t.gone a page = true ∧ (a = asma → ¬ (pgstart ≤ page ∧ page ≤ pgend)) := by
  simp only [forget, Bool.and_eq_true, Bool.not_eq_true', Bool.and_eq_false_iff,
    decide_eq_false_iff_not, beq_eq_false_iff_ne] at h
  refine ⟨h.1, fun ha => ?_⟩
  rcases h.2 with (h | h) | h <;> first | exact absurd ha h | omega

theorem Inv.init : Trace.init.Inv := ⟨fun _ => .nil, by simp [Trace.init]⟩

theorem Inv.pin (h : t.Inv) (hle : lo ≤ hi) : (t.step (.pin asma true lo hi)).Inv := by
  refine ⟨h.ordered.step (.pin asma true lo hi) ⟨hle, rfl⟩, fun a page hgone => ?_⟩
  obtain ⟨hold, hout⟩ := forget_eq_true hgone
  have hcover := h.covers a page hold
  by_cases ha : a = asma
  · subst ha
    exact ((h.ordered.pinned a hle).covers _ page).mpr ⟨hcover, hout rfl⟩
  · simpa [step, State.pin, ha] using hcover

theorem Inv.unpin (h : t.Inv) (hle : lo ≤ hi) : (t.step (.unpin asma true lo hi)).Inv := by
  refine ⟨h.ordered.step (.unpin asma true lo hi) ⟨hle, rfl⟩, fun a page hgone => ?_⟩
  have hold : t.gone a page = true := by
    simp only [step] at hgone
    split_ifs at hgone
    · exact (forget_eq_true hgone).1
    · exact hgone
  have hcover := h.covers a page hold
  by_cases ha : a = asma
  · subst ha
    exact (h.ordered.unpinned a hle).purged page (.inl hcover)
  · simpa [step, State.unpin, ha] using hcover

theorem Inv.shrink {fs : Bool} (h : t.Inv) : (t.step (.shrink nrToScan fs)).Inv := by
  refine ⟨h.ordered.step (.shrink nrToScan fs) trivial, fun a page hgone => ?_⟩
  simp only [step, Bool.or_eq_true, List.any_eq_true, Bool.and_eq_true, beq_iff_eq] at hgone
  rcases hgone with hold | ⟨entry, hentry, rfl, hpage⟩
  · exact covers_of_aged (State.aged_shrink nrToScan fs a) (fun _ _ h => h) (h.covers a page hold)
  · simp only [step, State.shrink] at hentry ⊢
    split_ifs at hentry ⊢ with hnone
    · simp at hentry
    · exact State.covers_of_shrinkLoop hentry hpage

theorem Inv.step {op : Op} (h : t.Inv) (hop : op.Fits) : (t.step op).Inv := by
  cases op with
  | pin asma alloc lo hi =>
    obtain ⟨hle, rfl⟩ := hop
    exact h.pin hle
  | unpin asma alloc lo hi =>
    obtain ⟨hle, rfl⟩ := hop
    exact h.unpin hle
  | shrink nrToScan fs => exact h.shrink

theorem Inv.run {ops : List Op} (h : t.Inv) (hops : ∀ op ∈ ops, op.Fits) :
    (ops.foldl Trace.step t).Inv := by
  induction ops generalizing t with
  | nil => exact h
  | cons op ops ih =>
    exact ih (h.step (hops op (by simp))) fun op' hop' => hops op' (by simp [hop'])

end Trace

/-- In every run whose requests name pages and whose allocations succeed, a page that was
truncated since it was last unpinned is reported by the next `ASHMEM_PIN` that covers it. -/
theorem purge_reported {ops : List Op} (hops : ∀ op ∈ ops, op.Fits) : (Trace.run ops).Reports := by
  have hinv : (Trace.run ops).Inv := Trace.Inv.run .init hops
  intro asma pgstart pgend page hlo hhi hgone
  exact (hinv.ordered.pinned asma (by omega)).purged page hlo hhi (hinv.covers asma page hgone)

/-- The same for a page that is purged, merged into a larger range and split off again. -/
theorem purge_reported_split :
    (Trace.run [.unpin 0 true 1 1, .shrink 1 true, .unpin 0 true 1 3, .pin 0 true 2 2]).Reports :=
  purge_reported (by simp [Op.Fits])

end AndroidKernel.Ashmem
