import AndroidKernel.Binder.ObjectCases
import AndroidKernel.Lib.RefGraph

/-!
# The references between processes

The nodes and references of the driver as a graph of objects and references. Every function
of the driver changes it by one of the operations of `RefGraph`, or not at all, and so keeps
the invariant that all indexes, lists and counts agree.
-/

namespace AndroidKernel.Binder

open Function Heap

/-- The part of a node that the graph of references shows. -/
def Node.view (node : Node) : RefGraph.Node Id Id ℕ :=
  ⟨node.proc, node.ptr, node.refs, node.internalStrongRefs⟩

/-- The part of a reference that the graph of references shows. -/
def Ref.view (ref : Ref) : RefGraph.Ref Id Id :=
  ⟨ref.proc, ref.node, ref.desc, decide (ref.strong ≠ 0)⟩

namespace Objs

variable {strong : Bool} {done : Bool} {q : Option Queue}

/-- The graph of references. -/
def graph (s : Objs) : RefGraph Id Id Id ℕ where
  nodes n := (s.nodes.cell n).map Node.view
  refs r := (s.refs.cell r).map Ref.view
  procNodes := s.procNodes
  refsByDesc := s.refsByDesc
  refsByNode := s.refsByNode

/-- The indexes of references, of nodes, the lists of the nodes and their counts agree. -/
abbrev Consistent (s : Objs) : Prop := s.graph.Inv

variable {s s' t : Objs} {n r p : Id} {node node' : Node} {ref ref' : Ref}

theorem graph_nodes (h : s.nodes.cell n = some node) : s.graph.nodes n = some node.view := by
  simp [graph, h]

theorem graph_refs (h : s.refs.cell r = some ref) : s.graph.refs r = some ref.view := by
  simp [graph, h]

theorem graph_congr (hnodes : ∀ n, (s'.nodes.cell n).map Node.view = (s.nodes.cell n).map Node.view)
    (hrefs : ∀ r, (s'.refs.cell r).map Ref.view = (s.refs.cell r).map Ref.view)
    (hprocNodes : s'.procNodes = s.procNodes) (hdesc : s'.refsByDesc = s.refsByDesc)
    (hnode : s'.refsByNode = s.refsByNode) : s'.graph = s.graph := by
  simp only [graph, hprocNodes, hdesc, hnode, RefGraph.mk.injEq, and_true]
  exact ⟨funext hnodes, funext hrefs⟩

theorem map_view_modify {f : Node → Node} (hf : ∀ node, s.nodes.cell n = some node →
    (f node).view = node.view) (m : Id) :
    ((s.nodes.modify n f).cell m).map Node.view = (s.nodes.cell m).map Node.view := by
  rw [cell_modify]
  split_ifs with hm
  · subst hm
    cases hcell : s.nodes.cell m <;> simp_all
  · rfl

theorem graph_setNode (hnode : s.nodes.cell n = some node) (hview : node'.view = node.view) :
    (s.setNode n node').graph = s.graph := by
  refine graph_congr (map_view_modify ?_) (fun _ => rfl) rfl rfl rfl
  rintro m hm
  cases hnode.symm.trans hm
  exact hview

theorem view_decCount_of_local (strong : Bool) : (node.decCount strong false).view = node.view := by
  cases strong <;> rfl

theorem Consistent.procNodes_freeNode (h : s.Consistent) (hnode : s.nodes.cell n = some node)
    (hproc : node'.proc = node.proc) (p : Id) :
    (s.freeNode n node').procNodes p = (s.procNodes p).erase n := by
  have hother : node.proc ≠ some p → (s.procNodes p).erase n = s.procNodes p := by
    intro hne
    apply List.erase_of_not_mem
    rw [show n ∈ s.procNodes p ↔ _ from h.mem_procNodes p n, graph_nodes hnode]
    exact hne
  simp only [freeNode, hproc]
  cases howner : node.proc with
  | none => exact (hother (by simp [howner])).symm
  | some p' =>
    by_cases hp : p = p'
    · subst hp
      simp
    · rw [hother (by simpa [howner] using Ne.symm hp)]
      exact update_of_ne hp _ _

theorem graph_freeNode {works : Queues Queue Work} :
    { s.freeNode n node with works := works }.graph =
      s.graph.dropNode n (s.freeNode n node).procNodes := by
  simp only [graph, RefGraph.dropNode, freeNode, RefGraph.mk.injEq, and_true]
  funext m
  rw [cell_free, update_apply]
  split_ifs <;> rfl

theorem Consistent.nodeChange (h : s.Consistent) (hnode : s.nodes.cell n = some node)
    (hview : node'.view = node.view) (hchange : NodeChange s n node' t) : t.Consistent := by
  cases hchange with
  | kept =>
    change (s.setNode n node').graph.Inv
    rw [graph_setNode hnode hview]
    exact h
  | freed _ _ hrefs =>
    have hproc : node'.proc = node.proc := congrArg RefGraph.Node.proc hview
    have hrefs' : node.view.refs = [] := by rw [← hview]; exact hrefs
    rw [Consistent, graph_freeNode]
    exact h.dropNode (graph_nodes hnode) hrefs' (h.procNodes_freeNode hnode hproc)

theorem graph_setStrong (href : s.refs.cell r = some ref)
    (hnode : s.nodes.cell ref.node = some node) (strong : Bool)
    (hview : node'.view = { node.view with
      strongRefs := node.internalStrongRefs + strong.toNat - (decide (ref.strong ≠ 0)).toNat })
    (href' : ref'.view = { ref.view with strong := strong }) :
    ((s.setNode ref.node node').setRef r ref').graph =
      s.graph.setStrong r ref.view node.view strong := by
  simp only [graph, RefGraph.setStrong, setNode, setRef, RefGraph.mk.injEq, and_true]
  constructor
  · funext m
    rw [cell_modify, update_apply]
    by_cases hm : m = ref.node
    · rw [if_pos hm, if_pos (show m = ref.view.node from hm), hnode]
      exact congrArg some hview
    · rw [if_neg hm, if_neg (show ¬ m = ref.view.node from hm)]
  · funext r'
    rw [cell_modify, update_apply]
    by_cases hr : r' = r
    · rw [if_pos hr, if_pos hr, href]
      exact congrArg some href'
    · rw [if_neg hr, if_neg hr]

theorem graph_setRef (href : s.refs.cell r = some ref) (hview : ref'.view = ref.view) :
    (s.setRef r ref').graph = s.graph := by
  refine graph_congr (fun _ => rfl) (fun r' => ?_) rfl rfl rfl
  simp only [setRef, cell_modify]
  split_ifs with hr
  · subst hr
    simp [href, hview]
  · rfl

theorem view_incCount_of_local (h : node.incCount strong false = .ok node') :
    node'.view = node.view := by
  cases strong <;>
    · obtain ⟨c, -, rfl⟩ := Except.of_map h
      rfl

theorem eq_of_incCount_weak (h : node.incCount false true = .ok node') : node' = node := by
  cases h
  rfl

theorem view_incCount_strong (h : node.incCount true true = .ok node') :
    node'.view = { node.view with strongRefs := node.internalStrongRefs + 1 } := by
  obtain ⟨c, hc, rfl⟩ := Except.of_map h
  simp [Node.view, increment_eq_ok hc]

section

variable (h : s.Consistent)
include h

theorem Consistent.incNode (hinc : IncNode s n strong false q done s') : s'.Consistent := by
  cases hinc with
  | refused => exact h
  | counted hnode hcount =>
    rw [Consistent, graph_setNode hnode (view_incCount_of_local hcount)]
    exact h
  | queued hnode hcount =>
    change (s.setNode n _).graph.Inv
    rw [graph_setNode hnode (view_incCount_of_local hcount)]
    exact h

/-- A node that hears of its reference, and the reference with its first count of a kind. -/
theorem Consistent.firstRef (href : s.refs.cell r = some ref) (hzero : ref.count strong = 0)
    (hnode : s.nodes.cell ref.node = some node) (hcount : node.incCount strong true = .ok node') :
    ((s.setNode ref.node node').setRef r (ref.withCount strong 1)).Consistent := by
  cases strong with
  | true =>
    have hview := view_incCount_strong hcount
    rw [Consistent, graph_setStrong href hnode true _ rfl]
    · exact h.setStrong (graph_refs href) (graph_nodes hnode) true
    · simp only [Ref.count, if_true] at hzero
      simp [hview, hzero]
  | false =>
    obtain rfl := eq_of_incCount_weak hcount
    have hview : (ref.withCount false 1).view = ref.view := rfl
    rw [Consistent, graph_setRef (s := s.setNode ref.node node') href hview,
      graph_setNode hnode rfl]
    exact h

theorem Consistent.incRef (hinc : IncRef s r strong q done s') : s'.Consistent := by
  cases hinc with
  | refused href hzero hnode =>
    cases hnode with
    | refused => exact h
    | counted hnode hcount hdone =>
      obtain ⟨rfl, -⟩ := hdone rfl
      obtain rfl := eq_of_incCount_weak hcount
      rw [Consistent, graph_setNode hnode rfl]
      exact h
  | first href hzero hnode =>
    cases hnode with
    | counted hnode hcount | queued hnode hcount => exact h.firstRef href hzero hnode hcount
  | again href hpos =>
    rw [Consistent, graph_setRef href]
    · exact h
    · cases strong
      · rfl
      · simp only [Ref.count, if_true] at hpos
        simp [Ref.withCount, Ref.count, Ref.view, hpos]

theorem Consistent.lowerRef (href : s.refs.cell r = some ref)
    (hlower : LowerRef s r ref strong s') : s'.Consistent := by
  cases hlower with
  | quiet hquiet =>
    rw [Consistent, graph_setRef href]
    · exact h
    · cases strong
      · rfl
      · have := hquiet rfl
        simp only [Ref.withCount, Ref.count, Ref.view, if_true, RefGraph.Ref.mk.injEq, true_and]
        rw [decide_eq_decide]
        omega
  | @last node _ _ hone hnode hchange =>
    have hmem : r ∈ node.refs := (h.mem_refs _ _ r (graph_nodes hnode)).mpr (by
      simp [graph_refs href, Ref.view])
    have hview : (node.decCount true true).view = { node.view with
        strongRefs :=
          node.internalStrongRefs + false.toNat - (decide (ref.strong ≠ 0)).toNat } := by
      simp [Node.view, Node.decCount, hone]
    cases hchange with
    | kept =>
      change ((s.setNode ref.node _).setRef r _).graph.Inv
      rw [graph_setStrong href hnode _ hview rfl]
      exact h.setStrong (graph_refs href) (graph_nodes hnode) false
    | freed _ _ hrefs =>
      change node.refs = [] at hrefs
      simp [hrefs] at hmem

end

theorem graph_forgetRef (hnode : s.nodes.cell ref.node = some node) (works : Queues Queue Work) :
    ({ s.setNode ref.node (node.without r (decide (ref.strong ≠ 0))) with
      works := works }.forgetRef r ref).graph = s.graph.dropRef r ref.view node.view := by
  simp only [graph, RefGraph.dropRef, forgetRef, setNode, RefGraph.mk.injEq, true_and]
  refine ⟨?_, ?_, rfl, rfl⟩
  · funext m
    rw [cell_modify, update_apply]
    by_cases hm : m = ref.node
    · rw [if_pos hm, if_pos (show m = ref.view.node from hm), hnode]
      rfl
    · rw [if_neg hm, if_neg (show ¬ m = ref.view.node from hm)]
  · funext r'
    rw [cell_free, update_apply]
    split_ifs <;> rfl

section

variable (h : s.Consistent)
include h

theorem Consistent.deleteRef (hdelete : DeleteRef s r s') : s'.Consistent := by
  cases hdelete with
  | @mk ref node t href hnode hchange _ =>
    have hdrop := h.dropRef (graph_refs href) (graph_nodes hnode)
    cases hchange with
    | kept =>
      rw [Consistent, graph_forgetRef hnode _]
      exact hdrop
    | @freed works _ _ hrefs =>
      -- the node goes away after its last reference
      have hgraph : ({ s.freeNode ref.node (node.without r (decide (ref.strong ≠ 0))) with
          works := works }.forgetRef r ref).graph =
          (s.graph.dropRef r ref.view node.view).dropNode ref.node
            (s.freeNode ref.node (node.without r (decide (ref.strong ≠ 0)))).procNodes := by
        rw [← graph_forgetRef hnode works]
        simp only [graph, RefGraph.dropNode, forgetRef, setNode, freeNode, RefGraph.mk.injEq,
          and_true]
        funext m
        rw [cell_free, update_apply, cell_modify]
        split_ifs <;> rfl
      rw [Consistent, hgraph]
      exact hdrop.dropNode (by simp [RefGraph.dropRef, Ref.view]; rfl) hrefs
        (h.procNodes_freeNode hnode rfl)

theorem Consistent.decRef (hdec : DecRef s r strong s') : s'.Consistent := by
  cases hdec with
  | zero => exact h
  | lowered href _ hlower => exact h.lowerRef href hlower
  | deleted href _ _ hlower hdelete => exact (h.lowerRef href hlower).deleteRef hdelete

theorem Consistent.mem_index (href : s.refs.cell r = some ref) :
    r ∈ s.refsByDesc ref.proc ∧ r ∈ s.refsByNode ref.proc := by
  constructor
  · exact (h.mem_refsByDesc _ r).mpr (by simp [graph_refs href, Ref.view])
  · exact (h.mem_refsByNode _ r).mpr (by simp [graph_refs href, Ref.view])

theorem Consistent.addRef {desc : ℕ} (hnode : s.nodes.cell n = some node)
    (hfind : s.findRefForNode p n = none) (hdesc : desc ∉ (s.refsByDesc p).map s.refKey) :
    (s.addRef p n node desc).Consistent := by
  have hgraph : (s.addRef p n node desc).graph = s.graph.newRef s.refs.next p n desc node.view
      ((s.addRef p n node desc).refsByDesc p) := by
    simp only [graph, RefGraph.newRef, Objs.addRef, setNode, RefGraph.mk.injEq, update_self,
      and_true]
    constructor
    · funext m
      rw [cell_modify, update_apply]
      by_cases hm : m = n
      · rw [if_pos hm, if_pos hm, hnode]
        rfl
      · rw [if_neg hm, if_neg hm]
    · funext r
      rw [cell_alloc, update_apply]
      split_ifs <;> rfl
  have hmem : ∀ r ref, s.graph.refs r = some ref → ∃ ref', s.refs.cell r = some ref' ∧
      ref'.view = ref := fun r ref href => Option.map_eq_some_iff.mp href
  rw [Consistent, hgraph]
  refine h.newRef (by simp [graph]) (graph_nodes hnode) ?_ ?_ ?_
  · simp only [Objs.addRef, update_self]
    exact List.perm_orderedInsert _ _ _
  · rintro r ref href rfl hr
    obtain ⟨ref', hcell, rfl⟩ := hmem r ref href
    refine hdesc (List.mem_map.mpr ⟨r, (h.mem_index hcell).1, ?_⟩)
    rw [← hr]
    simp [refKey, hcell, Ref.view]
  · rintro r ref href rfl hr
    obtain ⟨ref', hcell, rfl⟩ := hmem r ref href
    have := List.find?_eq_none.mp hfind r (h.mem_index hcell).2
    simp only [hcell, Option.any_some, beq_iff_eq] at this
    exact this hr

theorem Consistent.getRef {alloc : Bool} {found : Option Id} (hget : GetRef s p n alloc found s') :
    s'.Consistent := by
  cases hget with
  | found => exact h
  | noMemory => exact h
  | created hfind hnode hdesc => exact h.addRef hnode hfind hdesc

theorem Consistent.addNode {ptr cookie : ℕ} {acceptFds : Bool}
    (hget : s.binderGetNode p ptr = none) : (s.addNode p ptr cookie acceptFds).Consistent := by
  have hgraph : (s.addNode p ptr cookie acceptFds).graph = s.graph.newNode p s.nodes.next ptr
      ((s.addNode p ptr cookie acceptFds).procNodes p) := by
    simp only [graph, RefGraph.newNode, Objs.addNode, RefGraph.mk.injEq, update_self, and_true]
    funext m
    rw [cell_alloc, update_apply]
    split_ifs <;> rfl
  rw [Consistent, hgraph]
  refine h.newNode (by simp [graph]) ?_ ?_
  · simp only [Objs.addNode, update_self]
    exact List.perm_orderedInsert _ _ _
  · rintro m node hm hnode rfl
    obtain ⟨node', hcell, rfl⟩ := Option.map_eq_some_iff.mp hnode
    have := List.find?_eq_none.mp hget m hm
    simp [hcell, Node.view] at this

end

end Objs

end AndroidKernel.Binder
