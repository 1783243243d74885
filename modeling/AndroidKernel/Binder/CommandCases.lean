import AndroidKernel.Binder.Driver
import AndroidKernel.Binder.ObjectCases

/-!
# What the commands on nodes and death records can do

The outcomes of the commands that request, clear and acknowledge death notifications, of the
reads of node and death work, and of the end of a process for its nodes.
-/

namespace AndroidKernel.Binder

open RbTree Except Heap

/-- What a node is besides its counts and what its owner has been told. -/
def Node.base (node : Node) : Node :=
  { node with
    internalStrongRefs := 0, localWeakRefs := 0, localStrongRefs := 0, hasStrongRef := false,
    pendingStrongRef := false, hasWeakRef := false, pendingWeakRef := false }

namespace Objs

/-- The objects without a node nobody refers to, which the reading process takes from its tree. -/
def eraseNode (s : Objs) (p n : Id) : Objs :=
  { s with
    works := s.works.del (.node n)
    procNodes := Function.update s.procNodes p ((s.procNodes p).erase n)
    nodes := s.nodes.free n
    nodeStat := s.nodeStat.delete }

/-- The outcomes of `BINDER_WORK_NODE` in `binder_thread_read`. -/
inductive ReadNode (s : Objs) (p n : Id) : Objs → Prop
  | told {node node' : Node} (hnode : s.nodes.cell n = some node) (hbase : node'.base = node.base)
      (hstrong : node'.internalStrongRefs = node.internalStrongRefs) :
      ReadNode s p n (s.setNode n node')
  | done {node : Node} (hnode : s.nodes.cell n = some node) : ReadNode s p n (s.unqueue (.node n))
  | erased {node : Node} (hnode : s.nodes.cell n = some node) (hrefs : node.refs = []) :
      ReadNode s p n (s.eraseNode p n)

/-- The objects with an orphaned node. -/
def orphan (s : Objs) (p n : Id) (node : Node) : Objs :=
  { s.unqueue (.node n) with
    procNodes := Function.update s.procNodes p ((s.procNodes p).erase n)
    nodes := s.nodes.modify n fun _ =>
      { node with proc := none, localStrongRefs := 0, localWeakRefs := 0 } }

/-- What the end of its node's process is for a reference. -/
inductive RefDied (s : Objs) (r : Id) : Objs → Prop
  | silent {ref : Ref} (href : s.refs.cell r = some ref) (hdeath : ref.death = none) :
      RefDied s r s
  | queued {ref : Ref} {d : Id} {death : Death} (href : s.refs.cell r = some ref)
      (hd : ref.death = some d) (hdeath : s.deaths.cell d = some death)
      (hhome : s.works.home (.death d) = none) :
      RefDied s r
        ((s.setDeath d { death with type := .deadBinder }).queue (.death d) (.proc ref.proc))

/-- The same for a list of references. -/
inductive RefsDied : List Id → Objs → Objs → Prop
  | nil (s : Objs) : RefsDied [] s s
  | cons {r : Id} {l : List Id} {s t u : Objs} (h : RefDied s r t) (hrest : RefsDied l t u) :
      RefsDied (r :: l) s u

/-- What the end of its process is for a node. -/
inductive NodeDied (s : Objs) (p n : Id) : Objs → Prop
  | erased {node : Node} (hnode : s.nodes.cell n = some node) (hrefs : node.refs = []) :
      NodeDied s p n (s.eraseNode p n)
  | orphaned {node : Node} {t : Objs} (hnode : s.nodes.cell n = some node)
      (hdied : RefsDied node.refs (s.orphan p n node) t) : NodeDied s p n t

/-- The objects with a new death record for a reference. -/
def addDeath (s : Objs) (r : Id) (ref : Ref) (cookie : ℕ) (type : DeathWork) : Objs :=
  { s.setRef r { ref with death := some s.deaths.next } with
    deathStat := s.deathStat.create
    deaths := s.deaths.alloc ⟨cookie, type⟩ }

/-- What `BC_CLEAR_DEATH_NOTIFICATION` does to the objects. -/
inductive ClearDeath (s : Objs) (p : Id) (q : Queue) : Objs → Prop
  | ignored : ClearDeath s p q s
  | cleared {r d : Id} {ref : Ref} {death : Death} (href : s.refs.cell r = some ref)
      (hproc : r ∈ s.refsByDesc p) (hd : ref.death = some d)
      (hdeath : s.deaths.cell d = some death) (hhome : s.works.home (.death d) = none) :
      ClearDeath s p q
        (((s.setRef r { ref with death := none }).setDeath d
          { death with type := .clearDeathNotification }).queue (.death d) q)
  | pending {r d : Id} {ref : Ref} {death : Death} (href : s.refs.cell r = some ref)
      (hproc : r ∈ s.refsByDesc p) (hd : ref.death = some d)
      (hdeath : s.deaths.cell d = some death) (htype : death.type = .deadBinder)
      (hhome : s.works.home (.death d) ≠ none) :
      ClearDeath s p q
        ((s.setRef r { ref with death := none }).setDeath d
          { death with type := .deadBinderAndClear })

/-- What `BC_DEAD_BINDER_DONE` does to the objects. -/
inductive DeadBinderDone (s : Objs) (p : Id) (q : Queue) : Objs → Prop
  | ignored : DeadBinderDone s p q s
  | cleared {d : Id} {death : Death} (hdeath : s.deaths.cell d = some death)
      (hhome : s.works.home (.death d) = some (.deliveredDeath p))
      (htype : death.type = .deadBinderAndClear) :
      DeadBinderDone s p q
        (((s.unqueue (.death d)).setDeath d
          { death with type := .clearDeathNotification }).queue (.death d) q)
  | acknowledged {d : Id} {death : Death} (hdeath : s.deaths.cell d = some death)
      (hhome : s.works.home (.death d) = some (.deliveredDeath p))
      (htype : death.type ≠ .deadBinderAndClear) : DeadBinderDone s p q (s.unqueue (.death d))

/-- The objects without a death record. -/
def dropDeath (s : Objs) (d : Id) : Objs :=
  { s with
    works := s.works.del (.death d)
    deaths := s.deaths.free d
    deathStat := s.deathStat.delete }

end Objs

namespace State

variable {s s' : State} {rb : Balance ℕ} {p id : Id} {cookie : ℕ} {n : Id} {target : ℕ}

theorem readNode_ok (h : s.readNode p n = .ok s') :
    ∃ objs, s.objs.ReadNode p n objs ∧ s' = { s with objs := objs } := by
  unfold readNode at h
  obtain ⟨node, hnode, h⟩ := of_get h
  dsimp only at h
  split at h
  · obtain ⟨refs, -, h⟩ := of_bind h
    cases h
    refine ⟨_, .told hnode ?_ ?_, rfl⟩ <;> rfl
  · split at h
    · obtain ⟨refs, -, h⟩ := of_bind h
      cases h
      refine ⟨_, .told hnode ?_ ?_, rfl⟩ <;> rfl
    · split at h
      · cases h
        refine ⟨_, .told hnode ?_ ?_, rfl⟩ <;> rfl
      · split at h
        · cases h
          refine ⟨_, .told hnode ?_ ?_, rfl⟩ <;> rfl
        · split at h
          · cases h
            exact ⟨_, .done hnode, rfl⟩
          next hweak =>
            cases h
            refine ⟨_, .erased hnode ?_, rfl⟩
            by_contra hrefs
            simp [hrefs] at hweak

theorem refDied_ok {r : Id} (h : s.refDied r = .ok s') :
    ∃ objs, s.objs.RefDied r objs ∧ s' = { s with objs := objs } := by
  unfold refDied at h
  obtain ⟨ref, href, h⟩ := of_get h
  split at h
  next hdeath =>
    cases h
    exact ⟨_, .silent href hdeath, rfl⟩
  next d hd =>
    obtain ⟨death, hget, h⟩ := of_get h
    split at h
    next hhome =>
      cases h
      exact ⟨_, .queued href hd hget (by simpa using hhome), rfl⟩
    next => cases h

theorem refsDied_ok {l : List Id} (h : l.foldlM refDied s = .ok s') :
    ∃ objs, Objs.RefsDied l s.objs objs ∧ s' = { s with objs := objs } := by
  induction l generalizing s with
  | nil =>
    cases h
    exact ⟨_, .nil _, rfl⟩
  | cons r l ih =>
    rw [List.foldlM_cons] at h
    obtain ⟨t, hstep, h⟩ := of_bind h
    obtain ⟨objs, hdied, rfl⟩ := refDied_ok hstep
    obtain ⟨objs', hrest, rfl⟩ := ih h
    exact ⟨objs', .cons hdied hrest, rfl⟩

theorem nodeDied_ok (h : s.nodeDied p n = .ok s') :
    ∃ objs, s.objs.NodeDied p n objs ∧ s' = { s with objs := objs } := by
  unfold nodeDied at h
  obtain ⟨node, hnode, h⟩ := of_get h
  dsimp only at h
  split at h
  next hrefs =>
    cases h
    exact ⟨_, .erased hnode hrefs, rfl⟩
  next =>
    obtain ⟨objs, hdied, rfl⟩ := refsDied_ok h
    exact ⟨objs, .orphaned hnode hdied, rfl⟩

/-- The outcomes of `BC_REQUEST_DEATH_NOTIFICATION`. -/
inductive RequestDeath (s : State) (p id : Id) (cookie : ℕ) (alloc : Bool) : State → Prop
  | ignored : RequestDeath s p id cookie alloc s
  | noMemory (halloc : alloc = false) : RequestDeath s p id cookie alloc
      { s with
        calls := s.calls.modifyThread id fun thread => { thread with returnError := brError } }
  | requested {r : Id} {ref : Ref} {node : Node} {o : Id} (href : s.objs.refs.cell r = some ref)
      (hproc : r ∈ s.objs.refsByDesc p) (hdeath : ref.death = none)
      (hnode : s.objs.nodes.cell ref.node = some node) (howner : node.proc = some o) :
      RequestDeath s p id cookie alloc
        { s.record (.deathRequested s.objs.deaths.next p) with
          objs := s.objs.addDeath r ref cookie .unset }
  | dead {r : Id} {ref : Ref} {node : Node} (href : s.objs.refs.cell r = some ref)
      (hproc : r ∈ s.objs.refsByDesc p) (hdeath : ref.death = none)
      (hnode : s.objs.nodes.cell ref.node = some node) (howner : node.proc = none) :
      RequestDeath s p id cookie alloc
        { s.record (.deathRequested s.objs.deaths.next p) with
          objs := (s.objs.addDeath r ref cookie .deadBinder).queue (.death s.objs.deaths.next)
            (s.deathQueue p id) }

theorem RequestDeath.of_ok {alloc : Bool}
    (h : s.requestDeathNotification p id target cookie alloc = .ok s') :
    s.RequestDeath p id cookie alloc s' := by
  unfold requestDeathNotification at h
  split at h
  · cases h
    exact .ignored
  next r hr =>
    have hproc := List.mem_of_find?_eq_some hr
    obtain ⟨ref, href, h⟩ := of_get h
    split at h
    · cases h
      exact .ignored
    next hdeath =>
      have hdeath : ref.death = none := by simpa using hdeath
      split at h
      next halloc =>
        cases h
        exact .noMemory (by simpa using halloc)
      next =>
        obtain ⟨node, hnode, h⟩ := of_get h
        dsimp only at h
        split at h
        next o howner =>
          cases h
          exact .requested href hproc hdeath hnode howner
        next howner =>
          cases h
          exact .dead href hproc hdeath hnode howner

theorem clearDeathNotification_ok (h : s.clearDeathNotification p id target cookie = .ok s') :
    ∃ objs, s.objs.ClearDeath p (s.deathQueue p id) objs ∧ s' = { s with objs := objs } := by
  unfold clearDeathNotification at h
  split at h
  · cases h
    exact ⟨_, .ignored, rfl⟩
  next r hr =>
    have hproc := List.mem_of_find?_eq_some hr
    obtain ⟨ref, href, h⟩ := of_get h
    split at h
    · cases h
      exact ⟨_, .ignored, rfl⟩
    next d hd =>
      obtain ⟨death, hdeath, h⟩ := of_get h
      split at h
      · cases h
        exact ⟨_, .ignored, rfl⟩
      · dsimp only at h
        split at h
        next hhome =>
          cases h
          exact ⟨_, .cleared href hproc hd hdeath (by simpa [Objs.setRef] using hhome), rfl⟩
        next hhome =>
          split at h
          · cases h
          next htype =>
            cases h
            refine ⟨_, .pending href hproc hd hdeath (by simpa using htype) ?_, rfl⟩
            intro hnone
            exact hhome (by simp [Objs.setRef, hnone])

theorem deadBinderDone_ok (h : s.deadBinderDone p id cookie = .ok s') :
    ∃ objs, s.objs.DeadBinderDone p (s.deathQueue p id) objs ∧ s' = { s with objs := objs } := by
  unfold deadBinderDone at h
  dsimp only at h
  split at h
  next d hfound =>
    have hhome := (s.objs.works.mem_items _ _).mp (List.mem_of_find?_eq_some hfound)
    obtain ⟨death, hdeath, h⟩ := of_get h
    split at h
    next htype =>
      cases h
      exact ⟨_, .cleared hdeath hhome htype, rfl⟩
    next htype =>
      cases h
      exact ⟨_, .acknowledged hdeath hhome htype, rfl⟩
  next =>
    cases h
    exact ⟨_, .ignored, rfl⟩

/-- The outcomes of the reads of death work. -/
inductive ReadDeath (s : State) (p d : Id) : State → Prop
  | cleared {death : Death} (hdeath : s.objs.deaths.cell d = some death)
      (htype : death.type = .clearDeathNotification) :
      ReadDeath s p d { s with objs := s.objs.dropDeath d }
  | delivered {death : Death} (hdeath : s.objs.deaths.cell d = some death)
      (htype : death.type ≠ .clearDeathNotification) :
      ReadDeath s p d ({ s with
        objs := { s.objs with
          works := s.objs.works.addHead (.death d) (.deliveredDeath p) } }.record (.deadBinder d))

theorem ReadDeath.of_ok {d : Id} (h : s.readDeath p d = .ok s') : s.ReadDeath p d s' := by
  unfold readDeath at h
  obtain ⟨death, hdeath, h⟩ := of_get h
  split at h
  next htype =>
    obtain ⟨objs, hfree, h⟩ := of_bind h
    cases h
    obtain ⟨death', -, hfree⟩ := of_bind hfree
    cases hfree
    exact .cleared hdeath htype
  next htype =>
    cases h
    exact .delivered hdeath htype

/-- The objects with the node of the context manager. -/
def addContextMgr (objs : Objs) (p : Id) : Objs :=
  { objs.addNode p 0 0 false with
    nodes := (objs.addNode p 0 0 false).nodes.modify objs.nodes.next fun node =>
      { node with
        localWeakRefs := node.localWeakRefs + 1
        localStrongRefs := node.localStrongRefs + 1
        hasStrongRef := true
        hasWeakRef := true }
    contextMgrNode := some objs.nodes.next }

/-- `BINDER_SET_CONTEXT_MGR` makes a node for the process, or changes no object. -/
theorem setContextMgr_cases (s : State) (p : Id) (euid : ℕ) (alloc : Bool) :
    ∃ uid objs, s.setContextMgr p euid alloc = { s with contextMgrUid := uid, objs := objs } ∧
      (objs = s.objs ∨ (s.objs.contextMgrNode = none ∧ s.objs.binderGetNode p 0 = none ∧
        objs = addContextMgr s.objs p)) := by
  unfold setContextMgr
  split
  · exact ⟨_, _, rfl, .inl rfl⟩
  next hmgr =>
    rw [not_or, Option.not_isSome_iff_eq_none] at hmgr
    by_cases hnew : (s.objs.binderGetNode p 0).isSome ∨ ¬ alloc
    · simp only [Objs.binderNewNode, if_pos hnew]
      exact ⟨_, _, rfl, .inl rfl⟩
    · simp only [Objs.binderNewNode, if_neg hnew]
      rw [not_or, Option.not_isSome_iff_eq_none] at hnew
      exact ⟨_, _, rfl, .inr ⟨hmgr.1, hnew.1, rfl⟩⟩

end State

end AndroidKernel.Binder
