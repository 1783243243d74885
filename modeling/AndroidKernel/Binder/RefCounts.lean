import AndroidKernel.Binder.Placement

/-!
# References and their counts

The agreement of all views of the references, kept by every function on objects. A reference that
is just made has no count until `binder_inc_ref` gives it one; where that call refuses, the
reference stays without a count. `strict` says whether refusals are excluded.
-/

namespace AndroidKernel.Binder

open Queues Heap Option Objs Ref

namespace Objs

/-- Every reference has a count. -/
def Counted (s : Objs) : Prop := ∀ r ref, s.refs.cell r = some ref → ref.strong ≠ 0 ∨ ref.weak ≠ 0

/-- `binder_inc_node` accepts a first reference of a kind to the node without a list to queue its
work on. -/
def Accepts (s : Objs) (n : Id) (strong : Bool) : Prop :=
  ∀ node ∈ s.nodes.cell n,
    if strong then node.internalStrongRefs ≠ 0 ∨ (s.contextMgrNode = some n ∧ node.hasStrongRef)
    else node.hasWeakRef ∨ (s.works.home (.node n)).isSome

instance (s : Objs) (n : Id) (strong : Bool) : Decidable (s.Accepts n strong) :=
  inferInstanceAs (Decidable (∀ node ∈ s.nodes.cell n, ite _ _ _))

/-- The views of the references agree, node work is where the owner reads it, and references are
counted. -/
structure RefInv (strict : Prop) (reads : Id → Queue → Prop) (s : Objs) : Prop where
  consistent : s.Consistent
  placed : s.Placed (fun _ => True) reads
  counted : strict → s.Counted

variable {strict : Prop} {reads reads' : Id → Queue → Prop} {s s' t u : Objs} {n r p : Id}
  {node node' : Node} {ref ref' : Ref} {strong done : Bool} {q : Option Queue}

theorem Counted.of_refs (h : s.Counted) (hrefs : s'.refs = s.refs) : s'.Counted := by
  intro r ref href
  rw [hrefs] at href
  exact h r ref href

theorem Counted.of_setRef (h : ∀ i ref, i ≠ r → s.refs.cell i = some ref →
      ref.strong ≠ 0 ∨ ref.weak ≠ 0) (hrefs : s'.refs = s.refs)
    (hcount : ref'.strong ≠ 0 ∨ ref'.weak ≠ 0) : (s'.setRef r ref').Counted := by
  intro i ref hi
  simp only [setRef, hrefs, cell_modify] at hi
  split_ifs at hi with hir
  · obtain ⟨_, -, rfl⟩ := map_eq_some_iff.mp hi
    exact hcount
  · exact h i ref hir hi

theorem count_withCount_ne (ref : Ref) (strong : Bool) {count : ℕ} (hcount : count ≠ 0) :
    (ref.withCount strong count).strong ≠ 0 ∨ (ref.withCount strong count).weak ≠ 0 := by
  cases strong
  · exact .inr hcount
  · exact .inl hcount

theorem IncNode.refs_eq {internal : Bool} (h : IncNode s n strong internal q done s') :
    s'.refs = s.refs := by
  cases h <;> rfl

/-- After a successful `binder_inc_ref` its reference is counted. -/
theorem IncRef.counted (h : IncRef s r strong q done s')
    (hother : ∀ i ref, i ≠ r → s.refs.cell i = some ref → ref.strong ≠ 0 ∨ ref.weak ≠ 0)
    (hr : done = false → s.Counted) : s'.Counted := by
  cases h with
  | refused _ _ hinc => exact (hr rfl).of_refs hinc.refs_eq
  | first _ _ hinc => exact .of_setRef hother hinc.refs_eq (count_withCount_ne _ _ one_ne_zero)
  | again => exact .of_setRef hother rfl (count_withCount_ne _ _ (Nat.succ_ne_zero _))

/-- `binder_inc_node` does not refuse a reference it accepts, or has a list for. -/
theorem IncNode.done_of_accepts (h : IncNode s n strong true q done s')
    (haccept : q.isSome ∨ s.Accepts n strong) : done = true := by
  cases h with
  | queued => rfl
  | refused hnode hstrong hrefused =>
    simp only [incStrongRefused, Bool.and_eq_true, isNone_iff_eq_none, beq_iff_eq,
      Bool.not_eq_true', Bool.and_eq_false_iff, beq_eq_false_iff_ne] at hrefused
    obtain ⟨⟨⟨-, rfl⟩, hzero⟩, hmgr⟩ := hrefused
    rcases haccept with haccept | haccept
    · cases haccept
    · have := haccept _ hnode
      rw [hstrong, if_pos rfl] at this
      rcases this with hne | ⟨hctx, hhas⟩
      · exact absurd hzero hne
      · rcases hmgr with hmgr | hmgr
        · exact absurd hctx hmgr
        · simp [hmgr] at hhas
  | counted hnode _ hdone =>
    by_contra hfalse
    obtain ⟨rfl, rfl, hweak⟩ := hdone (by simpa using hfalse)
    simp only [incWeakQueues, Bool.and_eq_true, Bool.not_eq_true', isNone_iff_eq_none] at hweak
    rcases haccept with haccept | haccept
    · cases haccept
    · have := haccept _ hnode
      simp [hweak.1, hweak.2] at this

theorem Quiet.owner_eq (h : s.Quiet s') (n : Id) : s'.owner n = s.owner n := by
  have hproc : Node.proc ∘ Node.still = Node.proc := rfl
  have hmap := congrArg (Option.map Node.proc) (h.same.nodes n)
  rw [map_map, map_map, hproc] at hmap
  unfold owner
  cases hn : s.nodes.cell n <;> cases hn' : s'.nodes.cell n <;> simp_all

namespace RefInv

section

variable (h : s.RefInv strict reads)
include h

theorem mono (hreads : ∀ p q, reads p q → reads' p q) : s.RefInv strict reads' where
  consistent := h.consistent
  placed :=
    { owner_live := h.placed.owner_live
      holder_live := h.placed.holder_live
      node_work := fun n q hq => (h.placed.node_work n q hq).imp fun _ hp => ⟨hp.1, hreads _ _ hp.2⟩
      async_work := h.placed.async_work }
  counted := h.counted

theorem of_keeps (hgraph : s'.Consistent) (hkeeps : s.Keeps (fun _ => True) reads s')
    (hrefs : strict → s'.Counted) : s'.RefInv strict reads :=
  ⟨hgraph, h.placed.keeps hkeeps, hrefs⟩

theorem quiet (hquiet : s.Quiet s') : s'.RefInv strict reads where
  consistent := by
    rw [Consistent, hquiet.same.graph]
    exact h.consistent
  placed :=
    { owner_live := fun _ _ _ => trivial
      holder_live := fun _ _ _ => trivial
      node_work := fun n q hq => by
        obtain ⟨p, howner, hreads⟩ := h.placed.node_work n q (hquiet.home_node hq)
        exact ⟨p, (hquiet.owner_eq n).trans howner, hreads⟩
      async_work := hquiet.asyncTransactions h.placed.async_work }
  counted := fun hstrict => (h.counted hstrict).of_refs hquiet.same.refs

theorem incNode (hinc : IncNode s n strong false none done s') : s'.RefInv strict reads :=
  h.of_keeps (h.consistent.incNode hinc) (.incNode (by rintro q' ⟨⟩) hinc)
    fun hstrict => (h.counted hstrict).of_refs hinc.refs_eq

end

/-- The owner of a node hears of its work on its own list. -/
def OwnLists (reads : Id → Queue → Prop) : Prop := ∀ p, reads p (.proc p)

section

variable (h : s.RefInv strict reads)
include h

theorem nodeChange (hown : OwnLists reads) (hnode : s.nodes.cell n = some node)
    (hchange : NodeChange s n node' s') (hview : node'.view = node.view) : s'.RefInv strict reads :=
  h.of_keeps (h.consistent.nodeChange hnode hview hchange)
    (.nodeChange hown hnode (congrArg RefGraph.Node.proc hview) hchange)
    fun hstrict => (h.counted hstrict).of_refs hchange.frame.1

theorem decNode (hown : OwnLists reads) (hdec : s.binderDecNode n strong false = .ok s') :
    s'.RefInv strict reads := by
  obtain ⟨node, hnode, hchange⟩ := NodeChange.of_decNode hdec
  exact h.nodeChange hown hnode hchange (view_decCount_of_local strong)

theorem incRef (hinc : IncRef s r strong none done s') : s'.RefInv strict reads := by
  refine h.of_keeps (h.consistent.incRef hinc) ?_ fun hstrict =>
    hinc.counted (fun i ref _ => h.counted hstrict i ref) fun _ => h.counted hstrict
  obtain ⟨ref, href⟩ : ∃ ref, s.refs.cell r = some ref := by
    cases hinc <;> exact ⟨_, ‹_›⟩
  exact .incRef href (by rintro q' ⟨⟩) hinc

/-- `binder_get_ref_for_node` with `binder_inc_ref`. A new reference is counted if the call has a
list for the node's work or the node accepts it without. -/
theorem refNode {alloc : Bool}
    (hq : ∀ q', q = some q' → (∀ m, q' ≠ .async m) ∧ ∃ p, s.owner n = some p ∧ reads p q')
    (haccept : strict → (s.findRefForNode p n).isSome ∨ q.isSome ∨ s.Accepts n strong)
    (hget : s.GetRef p n alloc (some r) t) (hinc : t.IncRef r strong q done u) :
    u.RefInv strict reads := by
  have hgraph := (h.consistent.getRef hget).incRef hinc
  have hplaced := h.placed.keeps (.getRef trivial hget)
  cases hget with
  | found hfind =>
    obtain ⟨ref, href, rfl⟩ : ∃ ref, s.refs.cell r = some ref ∧ ref.node = n := by
      have hany := List.find?_some hfind
      cases hcell : s.refs.cell r with
      | none => simp [hcell] at hany
      | some ref => exact ⟨ref, rfl, by simpa [hcell] using hany⟩
    exact ⟨hgraph, hplaced.keeps (.incRef href hq hinc), fun hstrict =>
      hinc.counted (fun i ref _ => h.counted hstrict i ref) fun _ => h.counted hstrict⟩
  | @created node hfind hnode hdesc =>
    have href : (s.addRef p n node (s.freshDesc p n)).refs.cell s.refs.next =
        some ⟨p, n, s.freshDesc p n, 0, 0, none⟩ := cell_alloc_self _ _
    have howner : (s.setNode n { node with refs := s.refs.next :: node.refs }).owner n =
        s.owner n := by
      apply Keeps.owner_setNode hnode
      rfl
    change (s.addRef p n node (s.freshDesc p n)).owner n = s.owner n at howner
    refine ⟨hgraph, hplaced.keeps (.incRef href (by rwa [howner]) hinc), fun hstrict => ?_⟩
    have hother : ∀ i ref, i ≠ s.refs.next →
        (s.addRef p n node (s.freshDesc p n)).refs.cell i = some ref →
          ref.strong ≠ 0 ∨ ref.weak ≠ 0 := by
      intro i ref hi hcell
      exact h.counted hstrict i ref ((cell_alloc_of_ne _ hi).symm.trans hcell)
    refine hinc.counted hother fun hdone => ?_
    -- a refusal would mean that the node does not accept the reference
    subst hdone
    cases hinc with
    | @refused ref' _ href' _ hinc =>
      cases href.symm.trans href'
      have haccept' : q.isSome ∨ (s.addRef p n node (s.freshDesc p n)).Accepts n strong := by
        rcases haccept hstrict with hsome | hsome | hnode'
        · simp [hfind] at hsome
        · exact .inl hsome
        · refine .inr fun node' hcell => ?_
          have hset : node' = { node with refs := s.refs.next :: node.refs } :=
            (NodeChange.setNode s n _).cell_eq hcell
          subst hset
          exact hnode' node hnode
      cases hinc.done_of_accepts haccept'

theorem getRef_none {alloc : Bool} (hget : s.GetRef p n alloc none t) : t.RefInv strict reads := by
  cases hget
  exact h

theorem deleteRef (hown : OwnLists reads) (hdelete : DeleteRef s r s') :
    s'.RefInv strict reads := by
  refine h.of_keeps (h.consistent.deleteRef hdelete) (.deleteRef hown hdelete) fun hstrict => ?_
  cases hdelete with
  | mk _ _ hchange =>
    intro i ref hi
    simp only [forgetRef, hchange.frame.1, cell_free] at hi
    split_ifs at hi
    exact h.counted hstrict i ref hi

end

theorem lowerRef_refs (h : LowerRef s r ref strong t) :
    t.refs = (s.setRef r (ref.withCount strong (ref.count strong - 1))).refs := by
  cases h with
  | quiet => rfl
  | last hstrong hone _ hchange =>
    subst hstrong
    rw [hchange.frame.1]
    simp [withCount, count, hone]

section

variable (h : s.RefInv strict reads)
include h

theorem decRef (hown : OwnLists reads) (hdec : DecRef s r strong s') : s'.RefInv strict reads := by
  refine h.of_keeps (h.consistent.decRef hdec) (.decRef hown hdec) fun hstrict => ?_
  cases hdec with
  | zero => exact h.counted hstrict
  | @lowered ref t href hpos hlower hleft =>
    have hcount : (ref.withCount strong (ref.count strong - 1)).strong ≠ 0 ∨
        (ref.withCount strong (ref.count strong - 1)).weak ≠ 0 := by
      cases strong <;> simp [withCount, count] at hleft hpos ⊢ <;> omega
    exact (Counted.of_setRef (fun i ref _ => h.counted hstrict i ref) rfl hcount).of_refs
      (lowerRef_refs hlower)
  | @deleted ref t _ href hone hother hlower hdelete =>
    cases hdelete with
    | mk _ _ hchange =>
      intro i ref hi
      simp only [forgetRef, hchange.frame.1, lowerRef_refs hlower, setRef, cell_free,
        cell_modify] at hi
      split_ifs at hi
      exact h.counted hstrict i ref hi

theorem addNode {ptr cookie : ℕ} {acceptFds : Bool} (hget : s.binderGetNode p ptr = none) :
    (s.addNode p ptr cookie acceptFds).RefInv strict reads where
  consistent := h.consistent.addNode hget
  placed :=
    { owner_live := fun _ _ _ => trivial
      holder_live := fun _ _ _ => trivial
      node_work := fun n q hq => by
        obtain ⟨p', howner, hreads⟩ := h.placed.node_work n q hq
        obtain ⟨node, hnode, hproc⟩ := Option.bind_eq_some_iff.mp howner
        refine ⟨p', ?_, hreads⟩
        simp [Objs.owner, Objs.addNode, cell_alloc_of_cell _ hnode, hproc]
      async_work := h.placed.async_work }
  counted := fun hstrict => (h.counted hstrict).of_refs rfl
theorem eraseNode (hown : OwnLists reads) (hnode : s.nodes.cell n = some node)
    (hrefs : node.refs = []) (hproc : node.proc = some p) :
    (s.eraseNode p n).RefInv strict reads := by
  have hmoves : Moves (nodeMoves n node.proc) s.works (s.works.del (.node n)) :=
    .del (.refl _) ⟨rfl, by simp⟩
  have hchange : NodeChange s n { node with localStrongRefs := 0, localWeakRefs := 0 }
      (s.eraseNode p n) := by
    have hfreed : NodeChange s n { node with localStrongRefs := 0, localWeakRefs := 0 }
        { s.freeNode n node with works := s.works.del (.node n) } :=
      .freed hmoves (by simp [home_del]) hrefs rfl rfl
    simpa [Objs.eraseNode, freeNode, hproc] using hfreed
  exact h.nodeChange hown hnode hchange rfl

theorem readNode (hown : OwnLists reads) (howner : s.owner n = some p) (hread : s.ReadNode p n s') :
    s'.RefInv strict reads := by
  cases hread with
  | @told node node' hnode hbase hstrong =>
    have hview : node'.view = node.view := by
      have hbase' : { node'.base.view with strongRefs := node'.internalStrongRefs } =
          { node.base.view with strongRefs := node.internalStrongRefs } := by rw [hbase, hstrong]
      exact hbase'
    exact h.nodeChange hown hnode (.setNode s n node') hview
  | done => exact h.quiet (.unqueue _ _)
  | @erased node hnode hrefs =>
    exact h.eraseNode hown hnode hrefs (by simpa [owner, hnode] using howner)

end

end RefInv

/-- A reference but for its death record. -/
def stillRef (ref : Ref) : Ref := { ref with death := none }

/-- The second objects differ from the first in death records and their work only. -/
structure DeathsOnly (s s' : Objs) : Prop where
  nodes : s'.nodes = s.nodes
  refs : ∀ r, (s'.refs.cell r).map stillRef = (s.refs.cell r).map stillRef
  procNodes : s'.procNodes = s.procNodes
  refsByDesc : s'.refsByDesc = s.refsByDesc
  refsByNode : s'.refsByNode = s.refsByNode
  moves : Moves (fun w q => (∃ d, w = .death d) ∧ ∀ n, q ≠ some (.async n)) s.works s'.works

namespace DeathsOnly

variable {q : Queue}

theorem refl (s : Objs) : s.DeathsOnly s := ⟨rfl, fun _ => rfl, rfl, rfl, rfl, .refl _⟩

theorem trans (h : s.DeathsOnly t) (h' : t.DeathsOnly u) : s.DeathsOnly u where
  nodes := h'.nodes.trans h.nodes
  refs r := (h'.refs r).trans (h.refs r)
  procNodes := h'.procNodes.trans h.procNodes
  refsByDesc := h'.refsByDesc.trans h.refsByDesc
  refsByNode := h'.refsByNode.trans h.refsByNode
  moves := h.moves.trans h'.moves

theorem setDeath (s : Objs) (d : Id) (death : Death) : s.DeathsOnly (s.setDeath d death) :=
  ⟨rfl, fun _ => rfl, rfl, rfl, rfl, .refl _⟩

theorem unqueue (s : Objs) (d : Id) : s.DeathsOnly (s.unqueue (.death d)) :=
  ⟨rfl, fun _ => rfl, rfl, rfl, rfl, .del (.refl _) ⟨⟨d, rfl⟩, by simp⟩⟩

theorem queue (s : Objs) (d : Id) (hq : ∀ n, q ≠ .async n) : s.DeathsOnly (s.queue (.death d) q) :=
  ⟨rfl, fun _ => rfl, rfl, rfl, rfl, .addTail (.refl _) ⟨⟨d, rfl⟩, by simpa using hq⟩⟩

theorem setRef (href : s.refs.cell r = some ref) (death : Option Id) :
    s.DeathsOnly (s.setRef r { ref with death := death }) := by
  refine ⟨rfl, fun i => ?_, rfl, rfl, rfl, .refl _⟩
  simp only [Objs.setRef, cell_modify]
  split_ifs with hi
  · subst hi
    simp [href, stillRef]
  · rfl

theorem refDied (h : RefDied s r s') : s.DeathsOnly s' := by
  cases h with
  | silent => exact .refl _
  | queued => exact (setDeath _ _ _).trans (queue _ _ (by simp))

theorem refsDied {l : List Id} (h : RefsDied l s s') : s.DeathsOnly s' := by
  induction h with
  | nil => exact .refl _
  | cons hdied _ ih => exact (refDied hdied).trans ih

theorem addDeath (href : s.refs.cell r = some ref) (cookie : ℕ) (type : DeathWork) :
    s.DeathsOnly (s.addDeath r ref cookie type) := by
  have h := setRef href (some s.deaths.next)
  exact ⟨h.nodes, h.refs, h.procNodes, h.refsByDesc, h.refsByNode, h.moves⟩

theorem clearDeath (hq : ∀ n, q ≠ .async n) (h : s.ClearDeath p q s') : s.DeathsOnly s' := by
  cases h with
  | ignored => exact .refl _
  | cleared href => exact ((setRef href none).trans (setDeath _ _ _)).trans (queue _ _ hq)
  | pending href => exact (setRef href none).trans (setDeath _ _ _)

theorem deadBinderDone (hq : ∀ n, q ≠ .async n) (h : s.DeadBinderDone p q s') :
    s.DeathsOnly s' := by
  cases h with
  | ignored => exact .refl _
  | cleared => exact ((unqueue _ _).trans (setDeath _ _ _)).trans (queue _ _ hq)
  | acknowledged => exact unqueue _ _

theorem dropDeath (s : Objs) (d : Id) : s.DeathsOnly (s.dropDeath d) :=
  ⟨rfl, fun _ => rfl, rfl, rfl, rfl, .del (.refl _) ⟨⟨d, rfl⟩, by simp⟩⟩

theorem deliver (s : Objs) (d p : Id) :
    s.DeathsOnly { s with works := s.works.addHead (.death d) (.deliveredDeath p) } :=
  ⟨rfl, fun _ => rfl, rfl, rfl, rfl, .addHead (.refl _) ⟨⟨d, rfl⟩, by simp⟩⟩

end DeathsOnly

namespace RefInv

section

variable (h : s.RefInv strict reads)
include h

theorem deathsOnly (hdeaths : s.DeathsOnly s') : s'.RefInv strict reads where
  consistent := by
    have hview : view ∘ stillRef = view := rfl
    rw [Consistent, graph_congr (fun _ => by rw [hdeaths.nodes]) (fun r => ?_) hdeaths.procNodes
      hdeaths.refsByDesc hdeaths.refsByNode]
    · exact h.consistent
    · have hmap := congrArg (Option.map Ref.view) (hdeaths.refs r)
      rwa [map_map, map_map, hview] at hmap
  placed :=
    { owner_live := fun _ _ _ => trivial
      holder_live := fun _ _ _ => trivial
      node_work := fun n q hq => by
        rcases hdeaths.moves.home_cases (.node n) with hhome | ⟨⟨d, hd⟩, -⟩
        · rw [owner, hdeaths.nodes]
          exact h.placed.node_work n q (hhome.symm.trans hq)
        · cases hd
      async_work := fun w n hw => by
        rcases hdeaths.moves.home_cases w with hhome | ⟨-, hne⟩
        · exact h.placed.async_work w n (hhome.symm.trans hw)
        · exact absurd hw (hne n) }
  counted := fun hstrict r ref href => by
    have hmap := hdeaths.refs r
    rw [href] at hmap
    obtain ⟨ref', href', heq⟩ := map_eq_some_iff.mp hmap.symm
    have hstrong : (stillRef ref').strong = (stillRef ref).strong := congrArg strong heq
    have hweak : (stillRef ref').weak = (stillRef ref).weak := congrArg weak heq
    have hcounted := h.counted hstrict r ref' href'
    simp only [stillRef] at hstrong hweak
    rwa [hstrong, hweak] at hcounted

theorem orphan (hnode : s.nodes.cell n = some node) (hproc : node.proc = some p) :
    (s.orphan p n node).RefInv strict reads where
  consistent := by
    have hgraph : (s.orphan p n node).graph =
        s.graph.orphan n node.view (s.freeNode n node).procNodes := by
      simp only [graph, RefGraph.orphan, Objs.orphan, Objs.unqueue, freeNode, hproc,
        RefGraph.mk.injEq, and_true]
      funext m
      rw [cell_modify, Function.update_apply]
      split_ifs with hm
      · rw [hnode]
        rfl
      · rfl
    rw [Consistent, hgraph]
    exact h.consistent.orphan (graph_nodes hnode) (h.consistent.procNodes_freeNode hnode rfl)
  placed :=
    { owner_live := fun _ _ _ => trivial
      holder_live := fun _ _ _ => trivial
      node_work := fun m q hq => by
        simp only [Objs.orphan, Objs.unqueue, home_del] at hq
        split_ifs at hq with hm
        obtain ⟨p', howner, hreads⟩ := h.placed.node_work m q hq
        refine ⟨p', ?_, hreads⟩
        have hne : m ≠ n := fun hc => hm (by rw [hc])
        simpa [Objs.owner, Objs.orphan, cell_modify, hne] using howner
      async_work := fun w m hw => by
        simp only [Objs.orphan, Objs.unqueue, home_del] at hw
        split_ifs at hw
        exact h.placed.async_work w m hw }
  counted := fun hstrict => (h.counted hstrict).of_refs rfl

theorem nodeDied (hown : OwnLists reads) (howner : s.owner n = some p) (hdied : s.NodeDied p n s') :
    s'.RefInv strict reads := by
  cases hdied with
  | @erased node hnode hrefs =>
    exact h.eraseNode hown hnode hrefs (by simpa [owner, hnode] using howner)
  | @orphaned node _ hnode hdied =>
    have hproc : node.proc = some p := by simpa [owner, hnode] using howner
    exact (h.orphan hnode hproc).deathsOnly (.refsDied hdied)

theorem contextMgr (mgr : Option Id) : { s with contextMgrNode := mgr }.RefInv strict reads :=
  ⟨h.consistent, ⟨h.placed.owner_live, h.placed.holder_live, h.placed.node_work,
    h.placed.async_work⟩, h.counted⟩

theorem addContextMgr (hown : OwnLists reads) (hget : s.binderGetNode p 0 = none) :
    (State.addContextMgr s p).RefInv strict reads := by
  have hcell : (s.addNode p 0 0 false).nodes.cell s.nodes.next = some ⟨some p, 0, 0, [], 0, 0, 0,
      false, false, false, false, false, false⟩ := cell_alloc_self _ _
  have hadd : (s.addNode p 0 0 false).RefInv strict reads := h.addNode hget
  have hset := hadd.nodeChange hown hcell
    (.setNode _ _ ⟨some p, 0, 0, [], 0, 1, 1, true, false, true, false, false, false⟩) rfl
  have heq : State.addContextMgr s p = { (s.addNode p 0 0 false).setNode s.nodes.next
      ⟨some p, 0, 0, [], 0, 1, 1, true, false, true, false, false, false⟩ with
        contextMgrNode := some s.nodes.next } := by
    simp only [State.addContextMgr, setNode, mk.injEq, and_true]
    refine Heap.ext rfl fun i => ?_
    rw [cell_modify, cell_modify]
    split_ifs with hi
    · rw [hcell]
      rfl
    · rfl
  rw [heq]
  exact hset.contextMgr _

end

end RefInv

end Objs

end AndroidKernel.Binder
