import AndroidKernel.Binder.DeathWatch
import AndroidKernel.Binder.RefCommands

/-!
# What the functions on objects do to death notifications

Most functions on nodes and references leave death records alone. The others take one of the
steps of the life of a record.
-/

namespace AndroidKernel.Binder

open RbTree Queues Function Heap List Option Objs Keeps

namespace Objs

/-- What a reference watches. -/
def watch (s : Objs) (r : Id) : Option Watch :=
  (s.refs.cell r).bind fun ref => ref.death.map fun d => ⟨d, ref.proc, (s.owner ref.node).isSome⟩

/-- The objects and the events as far as death notifications are concerned. -/
def deathView (s : Objs) (events : List Event) : DeathView where
  watch := s.watch
  type d := (s.deaths.cell d).map Death.type
  home d := s.works.home (.death d)
  told d := events.count (.deadBinder d)
  asked d p := .deathRequested d p ∈ events
  requests d p := events.count (.deathRequested d p)
  gone r := s.refs.cell r = none ∧ r < s.refs.next
  next := s.deaths.next

variable {s s' t u : Objs} {n r p d : Id} {node node' : Node} {ref ref' : Ref} {strong done : Bool}
  {q : Option Queue}

theorem watch_eq_some {w : Watch} : s.watch r = some w ↔
    ∃ ref, s.refs.cell r = some ref ∧ ref.death = some w.record ∧ ref.proc = w.proc ∧
      (s.owner ref.node).isSome = w.alive := by
  simp only [watch, bind_eq_some_iff, map_eq_some_iff]
  constructor
  · rintro ⟨ref, href, d, hd, rfl⟩
    exact ⟨ref, href, hd, rfl, rfl⟩
  · rintro ⟨ref, href, hd, hproc, halive⟩
    exact ⟨ref, href, w.record, hd, by rw [hproc, halive]⟩

theorem watch_of_cell (href : s.refs.cell r = some ref) (hd : ref.death = some d) :
    s.watch r = some ⟨d, ref.proc, (s.owner ref.node).isSome⟩ :=
  watch_eq_some.mpr ⟨ref, href, hd, rfl, rfl⟩

/-- Death notifications are left alone. -/
structure DeathFrame (s s' : Objs) : Prop where
  watch : ∀ r, s'.watch r = s.watch r
  deaths : s'.deaths = s.deaths
  home : ∀ d, s'.works.home (.death d) = s.works.home (.death d)
  gone : ∀ r, (s'.refs.cell r = none ∧ r < s'.refs.next) ↔ (s.refs.cell r = none ∧ r < s.refs.next)

namespace DeathFrame

variable {w : Work} {internal : Bool} {works : Queues Queue Work}

theorem view (h : s.DeathFrame s') (events : List Event) :
    s'.deathView events = s.deathView events := by
  simp only [deathView, DeathView.mk.injEq]
  refine ⟨funext h.watch, funext fun d => by rw [h.deaths], funext h.home,
    trivial, trivial, trivial, funext fun r => propext (h.gone r), by rw [h.deaths]⟩

theorem refl (s : Objs) : s.DeathFrame s := ⟨fun _ => rfl, rfl, fun _ => rfl, fun _ => Iff.rfl⟩

theorem trans (h : s.DeathFrame t) (h' : t.DeathFrame u) : s.DeathFrame u where
  watch r := (h'.watch r).trans (h.watch r)
  deaths := h'.deaths.trans h.deaths
  home d := (h'.home d).trans (h.home d)
  gone r := (h'.gone r).trans (h.gone r)

theorem of_nodes (hrefs : s'.refs = s.refs) (hdeaths : s'.deaths = s.deaths)
    (hhome : ∀ d, s'.works.home (.death d) = s.works.home (.death d))
    (howner : ∀ r ref, s.refs.cell r = some ref → s'.owner ref.node = s.owner ref.node) :
    s.DeathFrame s' where
  watch r := by
    unfold Objs.watch
    rw [hrefs]
    cases href : s.refs.cell r with
    | none => rfl
    | some ref => rw [bind_some, bind_some, howner r ref href]
  deaths := hdeaths
  home := hhome
  gone r := by rw [hrefs]

theorem setNode (hnode : s.nodes.cell n = some node) (hproc : node'.proc = node.proc) :
    s.DeathFrame (s.setNode n node') :=
  of_nodes rfl rfl (fun _ => rfl) fun _ _ _ => owner_setNode hnode hproc _

theorem queue (hw : ∀ d, w ≠ .death d) (q : Queue) : s.DeathFrame (s.queue w q) :=
  of_nodes rfl rfl (fun d => by simp [Objs.queue, home_addTail, (hw d).symm]) fun _ _ _ => rfl

theorem unqueue (hw : ∀ d, w ≠ .death d) : s.DeathFrame (s.unqueue w) :=
  of_nodes rfl rfl (fun d => by simp [Objs.unqueue, home_del, (hw d).symm]) fun _ _ _ => rfl

theorem incNode (h : IncNode s n strong internal q done s') : s.DeathFrame s' := by
  cases h with
  | refused => exact refl _
  | counted hnode hcount => exact setNode hnode (incCount_proc hcount)
  | queued hnode hcount => exact (setNode hnode (incCount_proc hcount)).trans (queue (by simp) _)

theorem node_ne (hc : s.Consistent) (hnode : s.nodes.cell n = some node) (hrefs : node.refs = [])
    (href : s.refs.cell r = some ref) : ref.node ≠ n := by
  intro heq
  have := ((hc.refsAgree.mem_refs n node hnode).2 r).mpr ⟨ref, href, heq⟩
  simp [hrefs] at this

theorem home_of_nodeMoves {owner : Option Id} (h : Moves (nodeMoves n owner) s.works works)
    (d : Id) : works.home (.death d) = s.works.home (.death d) :=
  h.home_eq fun _ hmove => by cases hmove.1

theorem owner_freeNode {m : Id} (hm : m ≠ n) :
    owner { s.freeNode n node with works := works } m = s.owner m := by
  simp [owner, freeNode, cell_free, hm]

theorem nodeChange (hc : s.Consistent) (hnode : s.nodes.cell n = some node)
    (hproc : node'.proc = node.proc) (hrefs : node'.refs = node.refs)
    (h : NodeChange s n node' s') : s.DeathFrame s' := by
  cases h with
  | kept hworks =>
    exact of_nodes rfl rfl (home_of_nodeMoves hworks)
      fun _ _ _ => owner_setNode hnode hproc _
  | freed hworks _ hempty =>
    exact of_nodes rfl rfl (home_of_nodeMoves hworks)
      fun r ref href => owner_freeNode (node_ne hc hnode (hrefs ▸ hempty) href)

theorem decCount_refs (node : Node) (strong internal : Bool) :
    (node.decCount strong internal).refs = node.refs := by
  cases strong <;> cases internal <;> rfl

theorem decNode (hc : s.Consistent) (h : s.binderDecNode n strong internal = .ok s') :
    s.DeathFrame s' := by
  obtain ⟨node, hnode, hchange⟩ := NodeChange.of_decNode h
  exact nodeChange hc hnode (decCount_proc _ _ _) (decCount_refs _ _ _) hchange

theorem setRef (href : s.refs.cell r = some ref) (hproc : ref'.proc = ref.proc)
    (hnode : ref'.node = ref.node) (hdeath : ref'.death = ref.death) :
    s.DeathFrame (s.setRef r ref') where
  watch i := by
    simp only [Objs.watch, Objs.setRef, cell_modify]
    split_ifs with hi
    · subst hi
      simp [href, hproc, hnode, hdeath, owner]
    · rfl
  deaths := rfl
  home _ := rfl
  gone i := by
    simp only [Objs.setRef, cell_modify, next_modify]
    split_ifs with hi
    · simp [hi]
    · rfl

theorem withCount (href : s.refs.cell r = some ref) (strong : Bool) (count : ℕ) :
    s.DeathFrame (s.setRef r (ref.withCount strong count)) := by
  cases strong <;> exact setRef href rfl rfl rfl

theorem incRef (h : IncRef s r strong q done s') : s.DeathFrame s' := by
  cases h with
  | refused _ _ hinc => exact incNode hinc
  | first href _ hinc => exact (incNode hinc).trans (withCount (hinc.refs_eq ▸ href) _ _)
  | again href => exact withCount href _ _

theorem addRef {desc : ℕ} (hnode : s.nodes.cell n = some node) :
    s.DeathFrame (s.addRef p n node desc) where
  watch i := by
    have hproc : { node with refs := s.refs.next :: node.refs }.proc = node.proc := rfl
    have howner (m : Id) : (s.addRef p n node desc).owner m = s.owner m :=
      owner_setNode hnode hproc m
    simp only [Objs.watch, howner]
    simp only [Objs.addRef, cell_alloc]
    split_ifs with hi
    · simp [hi]
    · rfl
  deaths := rfl
  home _ := rfl
  gone i := by
    simp only [Objs.addRef, cell_alloc, next_alloc]
    split_ifs with hi
    · simp [hi]
    · constructor <;> rintro ⟨hnone, hlt⟩ <;> exact ⟨hnone, by omega⟩

theorem getRef {alloc : Bool} {found : Option Id} (h : GetRef s p n alloc found s') :
    s.DeathFrame s' := by
  cases h with
  | found | noMemory => exact refl _
  | created _ hnode => exact addRef hnode

theorem addNode (hc : s.Consistent) {ptr cookie : ℕ} {acceptFds : Bool} :
    s.DeathFrame (s.addNode p ptr cookie acceptFds) := by
  refine of_nodes rfl rfl (fun _ => rfl) fun r ref href => ?_
  have hne : ref.node ≠ s.nodes.next := by
    intro heq
    have := hc.node_isSome r ref.node (by simp [graph, href, Ref.view])
    simp [graph, heq] at this
  simp [Objs.owner, Objs.addNode, cell_alloc, hne]

theorem eraseNode (hc : s.Consistent) (hnode : s.nodes.cell n = some node)
    (hrefs : node.refs = []) : s.DeathFrame (s.eraseNode p n) := by
  refine of_nodes rfl rfl (fun d => ?_) fun r ref href => ?_
  · simp [Objs.eraseNode, home_del]
  · simp [Objs.owner, Objs.eraseNode, cell_free, node_ne hc hnode hrefs href]

theorem readNode (hc : s.Consistent) (h : s.ReadNode p n s') : s.DeathFrame s' := by
  cases h with
  | told hnode hbase =>
    refine setNode hnode ?_
    have := congrArg Node.proc hbase
    exact this
  | done => exact unqueue (by simp)
  | erased hnode hrefs => exact eraseNode hc hnode hrefs

theorem contextMgr (s : Objs) (mgr : Option Id) : s.DeathFrame { s with contextMgrNode := mgr } :=
  of_nodes rfl rfl (fun _ => rfl) fun _ _ _ => rfl

theorem addContextMgr (hc : s.Consistent) : s.DeathFrame (State.addContextMgr s p) := by
  have hadd : s.DeathFrame (s.addNode p 0 0 false) := addNode hc
  have hcell : (s.addNode p 0 0 false).nodes.cell s.nodes.next = some ⟨some p, 0, 0, [], 0, 0, 0,
      false, false, false, false, false, false⟩ := cell_alloc_self _ _
  refine hadd.trans (of_nodes rfl rfl (fun _ => rfl) fun r ref _ => ?_)
  simp only [owner, State.addContextMgr, cell_modify]
  split_ifs with hm
  · simp [hm, hcell]
  · rfl

theorem lowerRef (hc : s.Consistent) (href : s.refs.cell r = some ref)
    (h : LowerRef s r ref strong t) : s.DeathFrame t := by
  cases h with
  | quiet => exact withCount href _ _
  | @last node _ hstrong hone hnode hchange =>
    have hset : s.DeathFrame (s.setRef r { ref with strong := 0 }) := setRef href rfl rfl rfl
    refine hset.trans ?_
    cases hchange with
    | kept hworks =>
      exact of_nodes rfl rfl (home_of_nodeMoves hworks)
        fun _ _ _ => owner_setNode hnode (decCount_proc _ _ _) _
    | freed _ _ hempty =>
      rw [decCount_refs] at hempty
      exact absurd rfl (node_ne hc hnode hempty href)

end DeathFrame

end Objs

namespace DeathView

/-- Several steps of the life of death records. -/
abbrev Steps (strict : Prop) (closed : Id → Prop) (reads : Id → Queue → Prop) :
    DeathView → DeathView → Prop :=
  Relation.ReflTransGen (Step strict closed reads)

end DeathView

namespace Objs

open DeathView (Step Steps)

variable {strict : Prop} {closed : Id → Prop} {reads : Id → Queue → Prop} {s s' t u : Objs}
  {n r p d : Id} {node node' : Node} {ref ref' : Ref} {strong : Bool} {events : List Event}

theorem DeathFrame.steps (h : s.DeathFrame s') :
    Steps strict closed reads (s.deathView events) (s'.deathView events) := by
  rw [h.view]

theorem NodeChange.owner_of_without (hc : s.Consistent) (hnode : s.nodes.cell n = some node)
    (h : NodeChange s n (node.without r strong) t) {i : Id} (hi : i ≠ r)
    (href : s.refs.cell i = some ref) : t.owner ref.node = s.owner ref.node := by
  cases h with
  | kept =>
    have hproc : (node.without r strong).proc = node.proc := rfl
    exact owner_setNode hnode hproc _
  | freed _ _ hempty =>
    refine DeathFrame.owner_freeNode fun heq => ?_
    have hmem := ((hc.refsAgree.mem_refs n node hnode).2 i).mpr ⟨ref, href, heq⟩
    have herase : i ∈ node.refs.erase r := (mem_erase_of_ne hi).mpr hmem
    rw [show node.refs.erase r = [] from hempty] at herase
    cases herase

theorem NodeChange.home_death (h : NodeChange s n node t) (d : Id) :
    t.works.home (.death d) = s.works.home (.death d) := by
  cases h with
  | kept hworks | freed hworks => exact DeathFrame.home_of_nodeMoves hworks d

theorem DeleteRef.watch (hc : s.Consistent) (h : DeleteRef s r s') (i : Id) :
    s'.watch i = update s.watch r none i := by
  cases h with
  | @mk ref node t href hnode hchange =>
    rw [update_apply]
    split_ifs with hi
    · simp [watch, forgetRef, hi]
    · have howner {ref' : Ref} (href' : s.refs.cell i = some ref') :
          (t.forgetRef r ref).owner ref'.node = s.owner ref'.node := by
        have := hchange.owner_of_without hc hnode hi href'
        exact this
      simp only [watch]
      rw [show (t.forgetRef r ref).refs.cell i = s.refs.cell i by
        simp [forgetRef, cell_free, hi, hchange.frame.1]]
      cases href' : s.refs.cell i with
      | none => rfl
      | some ref' => rw [bind_some, bind_some, howner href']

theorem DeleteRef.gone (h : DeleteRef s r s') (i : Id) :
    (s'.refs.cell i = none ∧ i < s'.refs.next) ↔
      (s.refs.cell i = none ∧ i < s.refs.next) ∨ i = r := by
  cases h with
  | @mk ref node t href hnode hchange =>
    have hlt := lt_next_of_cell href
    simp only [forgetRef, cell_free, next_free, hchange.frame.1]
    split_ifs with hi
    · simp [hi, hlt]
    · simp [hi]

theorem DeleteRef.steps (hc : s.Consistent) (h : DeleteRef s r s') :
    Step strict closed reads (s.deathView events) (s'.deathView events) := by
  have hwatch := h.watch hc
  have hgone := h.gone
  cases h with
  | @mk ref node t href hnode hchange =>
    have hdeaths := hchange.frame.2.1
    cases hd : ref.death with
    | none =>
      have hnone : s.watch r = none := by simp [Objs.watch, href, hd]
      have hview : (t.forgetRef r ref).deathView events = (s.deathView events).lose r := by
        simp only [deathView, DeathView.lose, DeathView.mk.injEq]
        refine ⟨funext fun i => ?_, funext fun d => ?_, funext fun d => ?_, trivial, trivial,
          trivial, funext fun i => propext (hgone i), ?_⟩
        · rw [hwatch, ← hnone, update_eq_self]
        · simp [forgetRef, hd, hdeaths]
        · simp [forgetRef, hd, hchange.home_death]
        · simp [forgetRef, hd, hdeaths]
      rw [hview]
      exact .lose hnone
    | some d =>
      have hview : (t.forgetRef r ref).deathView events = (s.deathView events).forget r d := by
        simp only [deathView, DeathView.forget, DeathView.lose, DeathView.free, DeathView.mk.injEq]
        refine ⟨funext hwatch, funext fun e => ?_, funext fun e => ?_, trivial, trivial,
          trivial, funext fun i => propext (hgone i), ?_⟩
        · simp only [forgetRef, hd, hdeaths, cell_free, update_apply]
          split_ifs <;> rfl
        · simp [forgetRef, hd, home_del, hchange.home_death, update_apply]
        · simp [forgetRef, hd, hdeaths]
      have hw : (s.deathView events).watch r = some ⟨d, ref.proc, (s.owner ref.node).isSome⟩ :=
        watch_of_cell href hd
      rw [hview]
      exact .forget hw

theorem DecRef.steps (hc : s.Consistent) (h : DecRef s r strong s') :
    Steps strict closed reads (s.deathView events) (s'.deathView events) := by
  cases h with
  | zero => exact .refl
  | lowered href _ hlower => exact (DeathFrame.lowerRef hc href hlower).steps
  | deleted href _ _ hlower hdelete =>
    exact (DeathFrame.lowerRef hc href hlower).steps.tail (hdelete.steps (hc.lowerRef href hlower))

theorem RefsDied.outcome {l : List Id} (h : RefsDied l s t) (hnodup : l.Nodup)
    (hinj : ∀ r r' ref ref' d, s.refs.cell r = some ref → s.refs.cell r' = some ref' →
      ref.death = some d → ref'.death = some d → r = r') :
    t.refs = s.refs ∧ t.nodes = s.nodes ∧ t.deaths.next = s.deaths.next ∧
      (∀ r ∈ l, ∀ ref d, s.refs.cell r = some ref → ref.death = some d →
        (t.deaths.cell d).map Death.type = some .deadBinder ∧
          t.works.home (.death d) = some (.proc ref.proc)) ∧
      ∀ d, (∀ r ∈ l, ∀ ref, s.refs.cell r = some ref → ref.death ≠ some d) →
        t.deaths.cell d = s.deaths.cell d ∧ t.works.home (.death d) = s.works.home (.death d) := by
  induction h with
  | nil => exact ⟨rfl, rfl, rfl, by simp, fun _ _ => ⟨rfl, rfl⟩⟩
  | @cons r l s₀ s₁ s₂ hdied hrest ih =>
    obtain ⟨hr, hnodup⟩ := List.nodup_cons.mp hnodup
    cases hdied with
    | @silent ref href hnone =>
      obtain ⟨hrefs, hnodes, hnext, hhit, hmiss⟩ := ih hnodup hinj
      refine ⟨hrefs, hnodes, hnext, fun i hi ref' d hi' hd => ?_, fun d hd => hmiss d
        fun i hi => hd i (mem_cons_of_mem _ hi)⟩
      rcases List.mem_cons.mp hi with rfl | hi
      · cases href.symm.trans hi'
        simp [hnone] at hd
      · exact hhit i hi ref' d hi' hd
    | @queued ref d death href hd hdeath hhome =>
      obtain ⟨hrefs, hnodes, hnext, hhit, hmiss⟩ := ih hnodup hinj
      refine ⟨hrefs, hnodes, hnext, fun i hi ref' e hi' he => ?_, fun e he => ?_⟩
      · rcases List.mem_cons.mp hi with rfl | hi
        · cases href.symm.trans hi'
          cases hd.symm.trans he
          -- the rest of the list has other records
          obtain ⟨hcell, hhome'⟩ := hmiss d fun j hj ref' hj' hd' => by
            obtain rfl := hinj j i ref' ref d hj' href hd' hd
            exact hr hj
          rw [hcell, hhome']
          simp [queue, setDeath, cell_modify, hdeath, home_addTail]
        · exact hhit i hi ref' e hi' he
      · obtain ⟨hcell, hhome'⟩ := hmiss e fun i hi => he i (mem_cons_of_mem _ hi)
        have hne : e ≠ d := by
          rintro rfl
          exact he r mem_cons_self ref href hd
        rw [hcell, hhome']
        simp [queue, setDeath, cell_modify, home_addTail, hne]

theorem watch_orphan (hnode : s.nodes.cell n = some node) (hr : s.refs.cell r = some ref) :
    (s.orphan p n node).watch r = if ref.node = n then
      (s.watch r).map fun w => { w with alive := false } else s.watch r := by
  have howner : (s.orphan p n node).owner ref.node =
      if ref.node = n then none else s.owner ref.node := by
    simp only [owner, orphan, cell_modify, unqueue]
    split_ifs with hn
    · simp [hnode]
    · rfl
  have hrefs : (s.orphan p n node).refs = s.refs := rfl
  simp only [watch, hrefs, hr, bind_some, howner]
  split_ifs with hn
  · cases ref.death <;> simp
  · rfl

theorem NodeDied.steps (hc : s.Consistent) (hinv : (s.deathView events).Inv reads)
    (howner : s.owner n = some p) (h : s.NodeDied p n s') :
    Steps strict closed reads (s.deathView events) (s'.deathView events) := by
  cases h with
  | erased hnode hrefs => exact (DeathFrame.eraseNode hc hnode hrefs).steps
  | @orphaned node t hnode hdied =>
    obtain ⟨hnodup, hmem⟩ := hc.refsAgree.mem_refs n node hnode
    have hrefs : (s.orphan p n node).refs = s.refs := rfl
    obtain ⟨hrefs', hnodes', hnext, hhit, hmiss⟩ := hdied.outcome hnodup
      fun r r' ref ref' d hr hr' hd hd' =>
        (hinv d).inj r r' _ _ (watch_of_cell hr hd) (watch_of_cell hr' hd') rfl rfl
    have hwatch (r : Id) : s'.watch r = (s.orphan p n node).watch r := by
      simp only [watch, owner, hrefs', hnodes']
    have hcell {r : Id} (hr : r ∈ node.refs) : ∃ ref, s.refs.cell r = some ref ∧ ref.node = n :=
      (hmem r).mp hr
    refine .single (.died (S := fun r => r ∈ node.refs) ?_)
    constructor
    · intro r w hr hw
      obtain ⟨ref, href, -, -, halive⟩ := watch_eq_some.mp hw
      obtain ⟨ref', href', hn⟩ := hcell hr
      cases href.symm.trans href'
      rw [← halive, hn, howner]
      rfl
    · intro r hr
      obtain ⟨ref, href, hn⟩ := hcell hr
      have := (hwatch r).trans (watch_orphan hnode href)
      rwa [if_pos hn] at this
    · intro r hr
      change s'.watch r = s.watch r
      rw [hwatch]
      cases href : s.refs.cell r with
      | none => simp [watch, hrefs, href]
      | some ref => rw [watch_orphan hnode href, if_neg fun hn => hr ((hmem r).mpr ⟨ref, href, hn⟩)]
    · intro r w hr hw
      obtain ⟨ref, href, hd, hproc, -⟩ := watch_eq_some.mp hw
      rw [← hproc]
      exact hhit r hr ref w.record href hd
    · intro d hd
      obtain ⟨hcell, hhome⟩ := hmiss d fun r hr ref href hd' =>
        hd r _ hr (watch_of_cell href hd') rfl
      refine ⟨congrArg (Option.map Death.type) hcell, hhome.trans ?_⟩
      simp [orphan, unqueue, home_del, deathView]
    · rfl
    · rfl
    · rfl
    · change (fun r => s'.refs.cell r = none ∧ r < s'.refs.next) = _
      rw [hrefs']
      rfl
    · exact hnext

theorem proc_of_mem (hc : s.Consistent) (hr : r ∈ s.refsByDesc p)
    (href : s.refs.cell r = some ref) : ref.proc = p := by
  obtain ⟨ref', href', hproc⟩ := (hc.refsAgree.mem_refsByDesc p r).mp hr
  cases href.symm.trans href'
  exact hproc

theorem watch_setRef (href : s.refs.cell r = some ref) (death : Option Id) (i : Id) :
    (s.setRef r { ref with death := death }).watch i = update s.watch r
      (death.map fun d => ⟨d, ref.proc, (s.owner ref.node).isSome⟩) i := by
  simp only [watch, update_apply, setRef, cell_modify]
  split_ifs with hi
  · subst hi
    simp [href, owner]
  · rfl

theorem gone_modify (h : Heap Ref) (r : Id) (f : Ref → Ref) (i : Id) :
    ((h.modify r f).cell i = none ∧ i < (h.modify r f).next) ↔ (h.cell i = none ∧ i < h.next) := by
  rw [cell_modify, next_modify]
  split_ifs with hi
  · simp [hi]
  · rfl

theorem type_setDeath {death : Death} (hdeath : s.deaths.cell d = some death) (type : DeathWork)
    (e : Id) : ((s.setDeath d { death with type := type }).deaths.cell e).map Death.type =
      update (fun e => (s.deaths.cell e).map Death.type) d (some type) e := by
  simp only [setDeath, cell_modify, update_apply]
  split_ifs with he
  · simp [hdeath]
  · rfl

theorem ClearDeath.steps {q : Queue} (hc : s.Consistent) (hq : reads p q)
    (h : s.ClearDeath p q s') :
    Steps strict closed reads (s.deathView events) (s'.deathView events) := by
  cases h with
  | ignored => exact .refl
  | @cleared r d ref death href hproc hd hdeath hhome =>
    have hw : (s.deathView events).watch r = some ⟨d, ref.proc, (s.owner ref.node).isSome⟩ :=
      watch_of_cell href hd
    have hview : (((s.setRef r { ref with death := none }).setDeath d
        { death with type := .clearDeathNotification }).queue (.death d) q).deathView events =
        (s.deathView events).clear r d q := by
      simp only [deathView, DeathView.clear, DeathView.mk.injEq]
      refine ⟨funext (watch_setRef href none), funext (type_setDeath hdeath _), funext fun e => ?_,
        trivial, trivial, trivial, funext fun i => propext (gone_modify _ _ _ i), rfl⟩
      simp [queue, setDeath, setRef, home_addTail, update_apply]
    rw [hview]
    exact .single (.clear hw hhome (proc_of_mem hc hproc href ▸ hq))
  | @pending r d ref death href hproc hd hdeath htype hhome =>
    have hw : (s.deathView events).watch r = some ⟨d, ref.proc, (s.owner ref.node).isSome⟩ :=
      watch_of_cell href hd
    obtain ⟨q', hq'⟩ := ne_none_iff_exists'.mp hhome
    have hview : ((s.setRef r { ref with death := none }).setDeath d
        { death with type := .deadBinderAndClear }).deathView events =
        (s.deathView events).clearQueued r d := by
      simp only [deathView, DeathView.clearQueued, DeathView.mk.injEq]
      exact ⟨funext (watch_setRef href none), funext (type_setDeath hdeath _), rfl,
        trivial, trivial, trivial, funext fun i => propext (gone_modify _ _ _ i), rfl⟩
    rw [hview]
    exact .single (.clearQueued hw hq')

theorem DeadBinderDone.steps {q : Queue} (hq : reads p q) (h : s.DeadBinderDone p q s') :
    Steps strict closed reads (s.deathView events) (s'.deathView events) := by
  cases h with
  | ignored => exact .refl
  | @cleared d death hdeath hhome htype =>
    have hview : (((s.unqueue (.death d)).setDeath d
        { death with type := .clearDeathNotification }).queue (.death d) q).deathView events =
        (s.deathView events).doneClear d q := by
      simp only [deathView, DeathView.doneClear, DeathView.mk.injEq]
      refine ⟨rfl, funext (type_setDeath (s := s) hdeath _), funext fun e => ?_, trivial, trivial,
        trivial, rfl, rfl⟩
      simp only [queue, setDeath, unqueue, home_addTail, home_del, update_apply, Work.death.injEq]
      split_ifs <;> rfl
    rw [hview]
    exact .single (.doneClear hhome (by simp [deathView, hdeath, htype]) hq)
  | @acknowledged d death hdeath hhome htype =>
    have hview : (s.unqueue (.death d)).deathView events = (s.deathView events).acknowledge d := by
      simp only [deathView, DeathView.acknowledge, DeathView.mk.injEq]
      refine ⟨rfl, rfl, funext fun e => ?_, trivial, trivial, trivial, rfl, rfl⟩
      simp [unqueue, home_del, update_apply]
    rw [hview]
    exact .single (.acknowledge hhome)

theorem count_deathRequested {next : Id} :
    (fun e p' => (events ++ [Event.deathRequested next p]).count (.deathRequested e p')) =
      fun e p' => events.count (.deathRequested e p') + if e = next ∧ p' = p then 1 else 0 := by
  funext e p'
  rw [count_append, count_singleton]
  simp [Event.deathRequested.injEq, @eq_comm _ next, @eq_comm _ p]

theorem deathView_addDeath (href : s.refs.cell r = some ref) (hproc : ref.proc = p) (cookie : ℕ) :
    (s.owner ref.node).isSome = true →
      (s.addDeath r ref cookie .unset).deathView
        (events ++ [.deathRequested s.deaths.next p]) = (s.deathView events).request r p := by
  intro halive
  simp only [deathView, DeathView.request, DeathView.mk.injEq]
  refine ⟨funext fun i => ?_, funext fun e => ?_, rfl, funext fun e => ?_, funext fun e => ?_,
    count_deathRequested, funext fun i => propext (gone_modify _ _ _ i), rfl⟩
  · rw [show (s.addDeath r ref cookie .unset).watch i =
      (s.setRef r { ref with death := some s.deaths.next }).watch i from rfl,
      watch_setRef href, map_some, halive, hproc]
  · simp only [addDeath, cell_alloc, update_apply]
    split_ifs <;> rfl
  · simp
  · funext p'
    simp

theorem deathView_addDeath_queue (href : s.refs.cell r = some ref) (hproc : ref.proc = p)
    (cookie : ℕ) (q : Queue) : (s.owner ref.node).isSome = false →
      ((s.addDeath r ref cookie .deadBinder).queue (.death s.deaths.next) q).deathView
        (events ++ [.deathRequested s.deaths.next p]) = (s.deathView events).requestDead r p q := by
  intro hdead
  simp only [deathView, DeathView.requestDead, DeathView.mk.injEq]
  refine ⟨funext fun i => ?_, funext fun e => ?_, funext fun e => ?_, funext fun e => ?_,
    funext fun e => ?_, count_deathRequested, funext fun i => propext (gone_modify _ _ _ i), rfl⟩
  · rw [show ((s.addDeath r ref cookie .deadBinder).queue (.death s.deaths.next) q).watch i =
      (s.setRef r { ref with death := some s.deaths.next }).watch i from rfl,
      watch_setRef href, map_some, hdead, hproc]
  · simp only [queue, addDeath, cell_alloc, update_apply]
    split_ifs <;> rfl
  · simp [queue, addDeath, setRef, home_addTail, update_apply]
  · simp
  · funext p'
    simp

theorem deathView_dropDeath : (s.dropDeath d).deathView events = (s.deathView events).free d := by
  simp only [deathView, DeathView.free, DeathView.mk.injEq]
  refine ⟨rfl, funext fun e => ?_, funext fun e => ?_, trivial, trivial, trivial, rfl, rfl⟩
  · simp only [dropDeath, cell_free, update_apply]
    split_ifs <;> rfl
  · simp [dropDeath, home_del, update_apply]

theorem deathView_deliver :
    { s with works := s.works.addHead (.death d) (.deliveredDeath p) }.deathView
      (events ++ [Event.deadBinder d]) = (s.deathView events).tell d p := by
  simp only [deathView, DeathView.tell, DeathView.mk.injEq]
  refine ⟨rfl, trivial, funext fun e => ?_, funext fun e => ?_, funext fun e => ?_,
    funext fun e => ?_, trivial, trivial⟩
  · simp [home_addHead, update_apply]
  · rw [update_apply, count_append, count_singleton]
    split_ifs <;> simp_all
  · funext p'
    simp
  · funext p'
    simp

end Objs

end AndroidKernel.Binder
