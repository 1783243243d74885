import AndroidKernel.Binder.DeathCommands

/-!
# References and death notifications over whole runs

In every state the driver can reach, the views of the references agree, and they are counted as long
as each that is made is accepted. Each request for a death notification is answered at most once.
As long as no thread exits with news of a death on its list, a request for a node whose owner is
gone is answered or waits on a list of its process.
-/

namespace AndroidKernel.Binder

open RbTree Except Heap List State Nat Objs
open DeathView (Steps)

theorem DeathView.Steps.sound {strict : Prop} {closed : Id → Prop} {reads : Id → Queue → Prop}
    {v v' : DeathView} (hreaders : DeathView.Readers reads)
    (h : v.Inv reads) (hk : strict → v.Kept closed) (hsteps : Steps strict closed reads v v') :
    v'.Inv reads ∧ (strict → v'.Kept closed) ∧ (v.Single → v'.Single) ∧
      (strict → ∀ r d p, v.Pending closed r d p → v'.Pending closed r d p) := by
  induction hsteps with
  | refl => exact ⟨h, hk, id, fun _ _ _ _ => id⟩
  | tail _ hstep ih =>
    obtain ⟨h, hk, hsingle, hpending⟩ := ih
    exact ⟨h.step hreaders hstep, fun hstrict => (hk hstrict).step h hreaders hstrict hstep,
      fun h₀ => (hsingle h₀).step hstep,
      fun hstrict r d p hp => (hpending hstrict r d p hp).step h hreaders hstrict hstep⟩

/-- Work that tells of a death: a record that does not only confirm that a request was cleared. -/
def Objs.isNotice (s : Objs) : Work → Bool
  | .death d => decide ((s.deaths.cell d).map Death.type ≠ some .clearDeathNotification)
  | _ => false

namespace State

/-- The request of a process by a reference is answered or waits to be. -/
def Pending (s : State) (r d p : Id) : Prop := s.deathView.Pending s.Closed r d p

/-- Processes are listed once, and later ones have other names. -/
structure Listed (s : State) : Prop where
  nodup : s.binderProcs.Nodup
  lt_next : ∀ p ∈ s.binderProcs, p < s.procs.next

/-- Death records are where they belong. -/
structure Watched (strict : Prop) (s : State) : Prop where
  wired : s.Wired False
  listed : s.Listed
  inv : s.deathView.Inv s.Reads
  single : s.deathView.Single
  kept : strict → s.deathView.Kept s.Closed

/-- Death records stay where they belong, and requests that wait go on waiting. -/
structure Goes (strict : Prop) (s s' : State) : Prop where
  watched : s'.Watched strict
  pending : strict → ∀ r d p, s.Pending r d p → s'.Pending r d p

/-- References are counted, too. -/
structure Tracked (counted strict : Prop) (s : State) : Prop extends s.Watched strict where
  tracked : s.Wired counted

/-- References stay counted, too. -/
structure Runs (counted strict : Prop) (s s' : State) : Prop extends Goes strict s s' where
  tracked : s'.Wired counted

variable {counted strict : Prop} {s s' t : State} {rb : Balance ℕ} {p id : Id}

theorem Watched.init : init.Watched strict where
  wired := .init
  listed := ⟨nodup_nil, by simp [State.init]⟩
  inv d :=
    { live := by rintro r w ⟨⟩
      inj := by rintro r r' w w' ⟨⟩
      idle := by rintro r w ⟨⟩
      kind := by rintro r w q ⟨⟩
      asked := by rintro r w ⟨⟩
      fresh := fun _ => ⟨rfl, rfl, rfl, by rintro p ⟨⟩⟩
      queued := by rintro q ⟨⟩
      once := zero_le 1
      untold := by rintro q ⟨⟩
      delivered := by rintro p ⟨⟩
      placed := by rintro q ⟨⟩
      unique := by rintro p p' ⟨⟩ }
  single _ _ := ⟨zero_le 1, fun _ => rfl⟩
  kept _ := by rintro r w ⟨⟩

theorem Tracked.init : init.Tracked counted strict := ⟨.init, .init⟩

theorem Watched.tracked (h : s.Watched strict) : s.Tracked False strict := ⟨h, h.wired⟩

namespace Runs

theorem now (h : Runs counted strict s s') : s'.Tracked counted strict := ⟨h.watched, h.tracked⟩

theorem refl (h : s.Tracked counted strict) : Runs counted strict s s :=
  ⟨⟨h.toWatched, fun _ _ _ _ => id⟩, h.tracked⟩

theorem trans (h : Runs counted strict s t) (h' : Runs counted strict t s') :
    Runs counted strict s s' :=
  ⟨⟨h'.watched, fun hstrict r d p hp => h'.pending hstrict r d p (h.pending hstrict r d p hp)⟩,
    h'.tracked⟩

theorem of_tracks (h : s.Tracked counted strict) (ht : Tracks counted strict s s') :
    Runs counted strict s s' := by
  obtain ⟨hinv, hkept, hsingle, hpending⟩ := ht.steps.sound s.readers h.inv h.kept
  have hreads := ht.roster.reads_eq
  have hclosed := ht.roster.closed_eq
  refine ⟨⟨⟨ht.wired, ⟨?_, ?_⟩, hreads ▸ hinv, hsingle h.single, hclosed ▸ hkept⟩, ?_⟩, ht.tracked⟩
  · rw [ht.roster.binderProcs]
    exact h.listed.nodup
  · rw [ht.roster.binderProcs, ht.roster.next]
    exact h.listed.lt_next
  · unfold Pending
    rw [hclosed]
    exact hpending

theorem of_view (h : s.Tracked counted strict) (hwired : s'.Wired counted) (hlisted : s'.Listed)
    (hview : s'.deathView = s.deathView)
    (hreads : ∀ d p q, s.deathView.home d = some q → s.Reads p q → s'.Reads p q)
    (hclosed : ∀ p, s.Closed p → s'.Closed p) : Runs counted strict s s' where
  watched := ⟨hwired.weaken, hlisted, hview ▸ h.inv.mono hreads, hview ▸ h.single,
    fun hstrict => hview ▸ (h.kept hstrict).mono hclosed⟩
  pending _ r d p hp := by
    unfold Pending
    rw [hview]
    exact hp.mono hclosed
  tracked := hwired

end Runs

namespace Tracks

section

variable (h : s.Wired counted)
include h

/-- `binder_release_work` takes records off its list. -/
theorem binderReleaseWork {q : Queue}
    (hq : strict → (∀ w ∈ s.objs.works.items q, s.objs.isNotice w = false) ∨
      ∀ p, s.Reads p q → s.Closed p) (hok : s.binderReleaseWork q = .ok s') :
    Tracks counted strict s s' := by
  have hquiet := quiet_of_binderReleaseWork hok
  have hhome (d : Id) := home_binderReleaseWork hok (.death d)
  have hevents : s'.events = s.events := by
    refine foldlM_ok (R := fun _ t => t.events = s.events) ?_ rfl hok
    intro w _ t t' hR hstep
    cases Release.of_ok hstep <;> exact hR
  have hroster := SameRoster.of_binderReleaseWork hok
  refine of_steps (h.quiet hroster hquiet) hroster (.single (.drops ?_ ?_))
  · constructor
    · funext r
      simp only [deathView, Objs.deathView, Objs.watch, hquiet.same.refs, hquiet.owner_eq]
    · funext d
      simp only [deathView, Objs.deathView, hquiet.same.deaths]
    · intro d
      simp only [deathView, Objs.deathView, hhome d]
      split_ifs
      · exact .inr rfl
      · exact .inl rfl
    iterate 3
      · simp only [deathView, Objs.deathView, hevents]
    · simp only [deathView, Objs.deathView, hquiet.same.refs]
    · simp only [deathView, Objs.deathView, hquiet.same.deaths]
  · intro hstrict d q' p hd htype hnone hreads
    have hd : s.objs.works.home (.death d) = some q' := hd
    have hnone : s'.objs.works.home (.death d) = none := hnone
    rw [hhome, hd] at hnone
    split_ifs at hnone with hq'
    cases hq'
    rcases hq hstrict with hnot | hclosed
    · have := hnot (.death d) ((s.objs.works.mem_items _ _).mpr hd)
      exact absurd (of_decide_eq_false this) (not_not.mpr htype)
    · exact hclosed p hreads

theorem deleteRefs {l : List Id} {objs : Objs}
    (hok : l.foldlM (fun objs r => objs.binderDeleteRef r) s.objs = .ok objs) :
    Tracks counted strict s { s with objs := objs } := by
  refine of_objs h (foldlM_ok (f := fun (objs : Objs) r => objs.binderDeleteRef r)
    (R := fun _ objs => s.objs.Moves counted strict s.Closed s.Reads s.events objs) ?_
    (.refl h.refs) hok)
  intro r _ o o' hmoves hstep
  have hdelete := DeleteRef.of_ok hstep
  exact hmoves.trans ⟨hmoves.refs.deleteRef s.ownLists hdelete,
    .single (hdelete.steps hmoves.refs.consistent)⟩

theorem buffersDied {l : List ℕ} (hok : l.foldlM (fun s b => s.bufferDied rb (p, b)) s = .ok s') :
    Tracks counted strict s s' := by
  refine foldlM_ok (R := fun _ t => Tracks counted strict s t) ?_ (refl h) hok
  intro b _ t t' ht hstep
  have hdetach : Tracks counted strict s (t.detach (p, b)) := ht.trans (detach ht.tracked (p, b))
  exact hdetach.trans (binderFreeBuf hdetach.tracked hstep)

theorem leaveContextMgr (hok : s.leaveContextMgr p = .ok s') : Tracks counted strict s s' := by
  unfold State.leaveContextMgr at hok
  split at hok
  · cases hok
    exact refl h
  · obtain ⟨node, -, hok⟩ := of_bind hok
    cases hok
    split_ifs
    · exact of_objs h (.of_frame (h.refs.contextMgr none) (.contextMgr _ none))
    · exact refl h

theorem setContextMgr {euid : ℕ} {alloc : Bool} :
    Tracks counted strict s (s.setContextMgr p euid alloc) := by
  obtain ⟨uid, objs, heq, hobjs⟩ := setContextMgr_cases s p euid alloc
  rw [heq]
  rcases hobjs with rfl | ⟨-, hget, rfl⟩
  · exact of_same h (.of_eq rfl rfl rfl) rfl rfl
  · exact of_moves h (.of_eq rfl rfl rfl) (.of_frame (h.refs.addContextMgr s.ownLists hget)
      (.addContextMgr h.refs.consistent)) rfl

end

end Tracks

namespace Runs

section

variable (h : s.Tracked counted strict)
include h

theorem binderFreeThread (hid : s.HasThread p id)
    (hq : strict → (∀ w ∈ s.objs.works.items (.thread id), s.objs.isNotice w = false) ∨
      s.Closed p) (hok : s.binderFreeThread p id = .ok s') :
    Runs counted strict s s' ∧ s'.procs.next = s.procs.next ∧ s'.binderProcs = s.binderProcs ∧
      ∀ q i, i ≠ id → s.HasThread q i → s'.HasThread q i := by
  obtain ⟨calls, t, hleave, hrelease, rfl⟩ := binderFreeThread_ok hok
  set s₁ := s.modifyProc p fun proc => { proc with threads := proc.threads.erase id } with hs₁
  have h₁ : Runs counted strict s s₁ := of_view h (h.tracked.eraseThread p id) ⟨h.listed.nodup,
    h.listed.lt_next⟩ rfl (fun _ _ _ _ hreads => hreads) fun _ hclosed => hclosed
  have hunwinds := Calls.Unwinds.of_leaveStack hleave
  have h₂ : Runs counted strict s { s₁ with calls := calls } :=
    h₁.trans (of_tracks h₁.now (.of_same h₁.tracked (.of_unwinds rfl hunwinds rfl) rfl rfl))
  have hroster : s.SameRoster { s with calls := calls } := .of_unwinds rfl hunwinds rfl
  have hreads : Reads { s₁ with calls := calls } = s.Reads := hroster.reads_eq
  have ht : Tracks counted strict { s₁ with calls := calls } t := by
    refine .binderReleaseWork h₂.tracked (fun hstrict => ?_) hrelease
    refine (hq hstrict).imp_right fun hclosed p' hp' => ?_
    rw [hreads] at hp'
    obtain rfl := hp'.unique hid (.inl rfl)
    exact hclosed
  have h₃ := h₂.trans (of_tracks h₂.now ht)
  have hhome (w : Work) : t.objs.works.home w ≠ some (.thread id) := by
    rw [home_binderReleaseWork hrelease]
    split_ifs with hw
    · simp
    · exact hw
  have hgone (q : Id) (proc : Proc) (hproc : t.procs.cell q = some proc) : id ∉ proc.threads := by
    have hthreads := ht.roster.procs q
    rw [hproc] at hthreads
    obtain ⟨proc', hproc', heq⟩ := Option.map_eq_some_iff.mp hthreads.symm
    rw [← heq]
    exact h.tracked.not_mem_threads hid hproc'
  refine ⟨h₃.trans (of_view h₃.now (h₃.tracked.freeThread hgone hhome) ⟨h₃.watched.listed.nodup,
    h₃.watched.listed.lt_next⟩ rfl ?_ fun _ hclosed => hclosed), ht.roster.next,
    ht.roster.binderProcs, fun q i hne hi => ?_⟩
  · rintro d p' q' hd (rfl | ⟨i, rfl, hi⟩)
    · exact .inl rfl
    · refine .inr ⟨i, rfl, hi.freeThread ?_⟩
      rintro rfl
      exact hhome _ hd
  · have hi₁ := (hroster.hasThread_iff q i).mpr hi
    exact ((ht.roster.hasThread_iff q i).mpr hi₁).freeThread hne

theorem binderFreeThreads {l : List Id} (hclosed : s.Closed p) (hnodup : l.Nodup)
    (hl : ∀ id ∈ l, s.HasThread p id)
    (hok : l.foldlM (fun s id => s.binderFreeThread p id) s = .ok s') :
    Runs counted strict s s' ∧ s'.Closed p := by
  have hfold := foldlM_ok (f := fun s id => s.binderFreeThread p id)
    (R := fun l t => Runs counted strict s t ∧ t.Closed p ∧ l.Nodup ∧ ∀ id ∈ l, t.HasThread p id)
    ?_ ⟨refl h, hclosed, hnodup, hl⟩ hok
  · exact ⟨hfold.1, hfold.2.1⟩
  rintro id l t t' ⟨hruns, hclosed, hnodup, hl⟩ hstep
  obtain ⟨hruns', hnext, hlist, hkeep⟩ := binderFreeThread hruns.now
    (hl id mem_cons_self) (fun _ => .inr hclosed) hstep
  obtain ⟨hid, hnodup⟩ := List.nodup_cons.mp hnodup
  refine ⟨hruns.trans hruns', ?_, hnodup, fun i hi => hkeep p i ?_ (hl i (mem_cons_of_mem _ hi))⟩
  · unfold Closed
    rw [hnext, hlist]
    exact hclosed
  · rintro rfl
    exact hid hi

theorem nodeDied {n : Id} (howner : s.objs.owner n = some p) (hok : s.nodeDied p n = .ok s') :
    Runs counted strict s s' ∧ s.SameRoster s' ∧ ∀ m, m ≠ n → s'.objs.owner m = s.objs.owner m := by
  obtain ⟨objs, hdied, rfl⟩ := nodeDied_ok hok
  have hmoves : s.objs.Moves counted strict s.Closed s.Reads s.events objs :=
    ⟨h.tracked.refs.nodeDied s.ownLists howner hdied,
      hdied.steps h.tracked.refs.consistent h.inv howner⟩
  exact ⟨of_tracks h (.of_objs h.tracked hmoves), .of_eq rfl rfl rfl,
    fun m hm => hdied.owner_of_ne hm⟩

theorem nodesDied {l : List Id} (hnodup : l.Nodup) (hl : ∀ n ∈ l, s.objs.owner n = some p)
    (hok : l.foldlM (fun s n => s.nodeDied p n) s = .ok s') :
    Runs counted strict s s' ∧ s.SameRoster s' := by
  have hfold := foldlM_ok (f := fun s n => s.nodeDied p n)
    (R := fun l t => Runs counted strict s t ∧ s.SameRoster t ∧ l.Nodup ∧
      ∀ n ∈ l, t.objs.owner n = some p) ?_ ⟨refl h, .refl s, hnodup, hl⟩ hok
  · exact ⟨hfold.1, hfold.2.1⟩
  rintro n l t t' ⟨hruns, hroster, hnodup, hl⟩ hstep
  obtain ⟨hruns', hroster', howner⟩ := nodeDied hruns.now (hl n mem_cons_self) hstep
  obtain ⟨hn, hnodup⟩ := List.nodup_cons.mp hnodup
  refine ⟨hruns.trans hruns', hroster.trans hroster', hnodup, fun m hm => ?_⟩
  rw [howner m (by rintro rfl; exact hn hm)]
  exact hl m (mem_cons_of_mem _ hm)

theorem leave {proc : Proc} {s₁ s₂ : State} (hp : p ∈ s.binderProcs)
    (hproc : s.procs.cell p = some proc)
    (hleave : leaveContextMgr { s with binderProcs := s.binderProcs.erase p } p = .ok s₁)
    (hthreads : proc.threads.foldlM (fun s id => s.binderFreeThread p id) s₁ = .ok s₂) :
    Runs counted strict s s₂ ∧ s₂.Closed p := by
  have hclosed₀ : Closed { s with binderProcs := s.binderProcs.erase p } p :=
    ⟨h.listed.lt_next p hp, h.listed.nodup.not_mem_erase⟩
  have h₀ : Runs counted strict s { s with binderProcs := s.binderProcs.erase p } :=
    of_view h ⟨h.tracked.refs, h.tracked.rostered⟩ ⟨h.listed.nodup.erase p,
      fun q hq => h.listed.lt_next q (mem_of_mem_erase hq)⟩ rfl (fun _ _ _ _ => id)
      fun q hq => ⟨hq.1, fun hmem => hq.2 (mem_of_mem_erase hmem)⟩
  have hmgr : Tracks counted strict { s with binderProcs := s.binderProcs.erase p } s₁ :=
    .leaveContextMgr h₀.tracked hleave
  have h₁ := h₀.trans (of_tracks h₀.now hmgr)
  obtain ⟨hnodup, hown⟩ := h.tracked.rostered p proc hproc
  obtain ⟨hg₂, hclosed₂⟩ := binderFreeThreads h₁.now (hmgr.roster.closed_eq ▸ hclosed₀) hnodup
    (fun id hid => (hmgr.roster.hasThread_iff p id).mpr (hown id hid)) hthreads
  exact ⟨h₁.trans hg₂, hclosed₂⟩

theorem binderDeferredRelease (hp : p ∈ s.binderProcs)
    (hok : s.binderDeferredRelease rb p = .ok s') : Runs counted strict s s' := by
  obtain ⟨proc, hget, hok⟩ := of_get hok
  obtain ⟨s₁, hleave, hok⟩ := of_bind hok
  obtain ⟨s₂, hthreads, hok⟩ := of_bind hok
  obtain ⟨s₃, hnodes, hok⟩ := of_bind hok
  obtain ⟨objs, hrefs, hok⟩ := of_bind hok
  obtain ⟨s₄, hwork, hok⟩ := of_bind hok
  obtain ⟨s₅, hbuffers, hok⟩ := of_bind hok
  cases hok
  obtain ⟨h₂, hclosed₂⟩ := leave h hp hget hleave hthreads
  have hc₂ := h₂.tracked.refs.consistent
  obtain ⟨hg₃, hroster₃⟩ := nodesDied h₂.now (hc₂.nodup_procNodes p)
    (fun n hn => Transfer.owner_of_mem hc₂ hn) hnodes
  have h₃ := h₂.trans hg₃
  have hdelete : Tracks counted strict s₃ { s₃ with objs := objs } := .deleteRefs h₃.tracked hrefs
  have hclosed₃ : Closed { s₃ with objs := objs } p := by
    rw [hdelete.roster.closed_eq, hroster₃.closed_eq]
    exact hclosed₂
  have hwork' : Tracks counted strict s₃ s₄ := hdelete.trans <| .binderReleaseWork hdelete.tracked
    (fun _ => .inr fun p' hp' => by
      rcases hp' with hp' | ⟨id, hid, -⟩
      · cases hp'
        exact hclosed₃
      · cases hid) hwork
  have hall : Tracks counted strict s₃ s₅ := hwork'.trans (.buffersDied hwork'.tracked hbuffers)
  have h₅ := h₃.trans (of_tracks h₃.now hall)
  exact h₅.trans (of_view h₅.now ⟨h₅.tracked.refs, h₅.tracked.rostered.freeProc⟩
    ⟨h₅.watched.listed.nodup, h₅.watched.listed.lt_next⟩ rfl (fun _ _ _ _ => id) fun _ => id)

theorem newThread (p : Id) (pid : ℕ) : Runs counted strict s (s.newThread p pid) := by
  have hreads (p' : Id) (q : Queue) (hq : s.Reads p' q) : (s.newThread p pid).Reads p' q := by
    rcases hq with rfl | ⟨i, rfl, thread, hthread, hproc⟩
    · exact .inl rfl
    · exact .inr ⟨i, rfl, thread, cell_alloc_of_cell _ hthread, hproc⟩
  exact of_view h ⟨h.tracked.refs.mono hreads, h.tracked.rostered.newThread p pid⟩
    ⟨h.listed.nodup, h.listed.lt_next⟩ rfl (fun _ p' q _ => hreads p' q) fun _ => id

/-- `binder_get_thread` gives a thread of the process. -/
theorem binderGetThread {pid : ℕ} {alloc : Bool} {thread : Option Id}
    (hok : s.binderGetThread p pid alloc = .ok (thread, s')) :
    Runs counted strict s s' ∧ ∀ id ∈ thread, s'.HasThread p id := by
  obtain ⟨proc, hproc, hok⟩ := of_get hok
  split at hok
  next id hfind =>
    cases hok
    refine ⟨refl h, ?_⟩
    rintro _ ⟨⟩
    exact (h.tracked.rostered p proc hproc).2 id (List.mem_of_find?_eq_some hfind)
  next =>
    split at hok
    · cases hok
      refine ⟨newThread h p pid, ?_⟩
      rintro _ ⟨⟩
      exact ⟨_, cell_alloc_self _ _, rfl⟩
    · cases hok
      exact ⟨refl h, by rintro _ ⟨⟩⟩

end

end Runs

/-- No thread exits with news of a death on its list. -/
def KeepsNotices (s : State) : Op → Prop
  | .ioctl p pid alloc .threadExit => (s.binderGetThread p pid alloc).Ensures fun r =>
      ∀ id ∈ r.1, ∀ w ∈ r.2.objs.works.items (.thread id), r.2.objs.isNotice w = false
  | _ => True

instance (s : State) (op : Op) : Decidable (s.KeepsNotices op) := by
  unfold KeepsNotices
  split <;> infer_instance

/-- The same for each operation of a run when its turn comes. -/
def AllKeepNotices (rb : Balance ℕ) : State → List Op → Prop
  | _, [] => True
  | s, op :: ops => s.KeepsNotices op ∧ (s.step rb op).Ensures fun s' => AllKeepNotices rb s' ops

instance decidableAllKeepNotices (rb : Balance ℕ) : ∀ s ops, Decidable (AllKeepNotices rb s ops)
  | _, [] => isTrue trivial
  | s, op :: ops =>
    have := fun s' => decidableAllKeepNotices rb s' ops
    inferInstanceAs (Decidable (s.KeepsNotices op ∧ Except.Ensures _ _))

variable {counted strict : Prop} {s s' t : State} {rb : Balance ℕ} {p id : Id}

namespace Runs

section

variable (h : s.Tracked counted strict)
include h

theorem request {r : Request} (hid : s.HasThread p id)
    (haccept : counted → s.AcceptsRequest rb p id r)
    (hkeep : strict → r = .threadExit → ∀ w ∈ s.objs.works.items (.thread id),
      s.objs.isNotice w = false) (hok : s.request rb p id r = .ok s') :
    Runs counted strict s s' := by
  cases r with
  | write cmd =>
    obtain ⟨thread, -, hok⟩ := of_bind hok
    split at hok
    · exact of_tracks h (.command h.tracked hid haccept hok)
    · cases hok
      exact refl h
  | readError read =>
    cases hok
    refine of_tracks h (.of_same h.tracked
      (.of_modifyThread rfl rfl (fun thread => ?_) rfl) rfl rfl)
    unfold Thread.readError
    split
    · rfl
    · split <;> rfl
  | readWork copied => exact of_tracks h (.readWork h.tracked hid hok)
  | setContextMgr euid alloc =>
    cases hok
    exact of_tracks h (.setContextMgr h.tracked)
  | threadExit => exact (binderFreeThread h hid (fun hstrict => .inl (hkeep hstrict rfl)) hok).1
  | other =>
    cases hok
    exact refl h

theorem modifyProc {f : Proc → Proc} (hf : ∀ proc, (f proc).threads = proc.threads) :
    Runs counted strict s (s.modifyProc p f) :=
  of_tracks h (.of_same h.tracked (.of_modifyProc rfl rfl rfl hf) rfl rfl)

theorem openDevice : Runs counted strict s s.openDevice := by
  refine of_view h ⟨h.tracked.refs, h.tracked.rostered.openDevice⟩ ⟨?_, ?_⟩ rfl
    (fun _ _ _ _ => id) ?_
  · refine List.nodup_cons.mpr ⟨fun hmem => ?_, h.listed.nodup⟩
    exact absurd (h.listed.lt_next _ hmem) (lt_irrefl _)
  · intro q hq
    rcases List.mem_cons.mp hq with rfl | hq
    · exact lt_succ_self _
    · exact lt_succ_of_lt (h.listed.lt_next q hq)
  · rintro q ⟨hlt, hnot⟩
    refine ⟨lt_succ_of_lt hlt, fun hmem => ?_⟩
    rcases List.mem_cons.mp hmem with rfl | hmem
    · exact absurd hlt (lt_irrefl _)
    · exact hnot hmem

theorem step {op : Op} (haccept : counted → s.AcceptsOp rb op) (hkeep : strict → s.KeepsNotices op)
    (hok : s.step rb op = .ok s') : Runs counted strict s s' := by
  cases op with
  | openDevice =>
    cases hok
    exact openDevice h
  | mmap p area header step files =>
    simp only [State.step] at hok
    split at hok
    · obtain ⟨hroster, hobjs⟩ := SameRoster.of_mmap hok
      refine of_tracks h (.of_same h.tracked hroster hobjs ?_)
      obtain rfl | ⟨proc, area', -, -, -, rfl⟩ := mmap_ok hok <;> rfl
    · cases hok
      exact refl h
  | vmaClose p | setFiles p files =>
    cases hok
    exact modifyProc h fun _ => rfl
  | ioctl p pid alloc request =>
    simp only [State.step] at hok
    split at hok
    · obtain ⟨⟨thread, s₁⟩, hget, hok⟩ := of_bind hok
      obtain ⟨h₁, hthread⟩ := binderGetThread h hget
      cases thread with
      | none =>
        cases hok
        exact h₁
      | some id =>
        refine h₁.trans (Runs.request h₁.now (hthread id rfl)
          (fun hcounted => (haccept hcounted).of_eq hget id rfl) (fun hstrict hexit => ?_) hok)
        subst hexit
        exact (hkeep hstrict).of_eq hget id rfl
    · cases hok
      exact refl h
  | release p =>
    simp only [State.step] at hok
    split at hok
    next hp =>
      have hclosed : Runs counted strict s (s.vmaClose p) := modifyProc h fun _ => rfl
      have hfiles : Runs counted strict s ((s.vmaClose p).modifyProc p fun proc =>
          { proc with files := none }) :=
        hclosed.trans (modifyProc hclosed.now fun _ => rfl)
      exact hfiles.trans (binderDeferredRelease hfiles.now hp hok)
    next =>
      cases hok
      exact refl h

theorem run {ops : List Op} (haccept : counted → s.AllAccept rb ops)
    (hkeep : strict → s.AllKeepNotices rb ops) (hok : s.run rb ops = .ok s') :
    Runs counted strict s s' := by
  refine (foldlM_ok (R := fun ops t => Runs counted strict s t ∧
    (counted → t.AllAccept rb ops) ∧ (strict → t.AllKeepNotices rb ops))
    ?_ ⟨refl h, haccept, hkeep⟩ hok).1
  rintro op ops t t' ⟨hruns, haccept, hkeep⟩ hstep
  exact ⟨hruns.trans (step hruns.now (fun hcounted => (haccept hcounted).1)
      (fun hstrict => (hkeep hstrict).1) hstep),
    fun hcounted => (haccept hcounted).2.of_eq hstep,
    fun hstrict => (hkeep hstrict).2.of_eq hstep⟩

end

end Runs

end State

end AndroidKernel.Binder
