import AndroidKernel.Binder.References
import AndroidKernel.Binder.StateCases

/-!
# What functions on transactions leave alone

The functions on threads, transactions and buffers leave nodes, references and death records
alone. The two meet in the work lists, where the former move transactions only.
-/

namespace AndroidKernel.Binder

open RbTree Queues Node Objs

/-- A node but for the flag of one-way transactions. -/
def Node.still (node : Node) : Node := { node with hasAsyncTransaction := false }

/-- Two states of the objects that differ in work lists and in the flags of one-way
transactions only. -/
structure Objs.Same (s s' : Objs) : Prop where
  nodesNext : s'.nodes.next = s.nodes.next
  nodes : ∀ n, (s'.nodes.cell n).map still = (s.nodes.cell n).map still
  refs : s'.refs = s.refs
  deaths : s'.deaths = s.deaths
  procNodes : s'.procNodes = s.procNodes
  refsByDesc : s'.refsByDesc = s.refsByDesc
  refsByNode : s'.refsByNode = s.refsByNode
  contextMgrNode : s'.contextMgrNode = s.contextMgrNode
  nodeStat : s'.nodeStat = s.nodeStat
  refStat : s'.refStat = s.refStat
  deathStat : s'.deathStat = s.deathStat

namespace Objs.Same

variable {s t u : Objs} {n : Id}

theorem refl (s : Objs) : s.Same s :=
  ⟨rfl, fun _ => rfl, rfl, rfl, rfl, rfl, rfl, rfl, rfl, rfl, rfl⟩

theorem trans (h : s.Same t) (h' : t.Same u) : s.Same u where
  nodesNext := h'.nodesNext.trans h.nodesNext
  nodes n := (h'.nodes n).trans (h.nodes n)
  refs := h'.refs.trans h.refs
  deaths := h'.deaths.trans h.deaths
  procNodes := h'.procNodes.trans h.procNodes
  refsByDesc := h'.refsByDesc.trans h.refsByDesc
  refsByNode := h'.refsByNode.trans h.refsByNode
  contextMgrNode := h'.contextMgrNode.trans h.contextMgrNode
  nodeStat := h'.nodeStat.trans h.nodeStat
  refStat := h'.refStat.trans h.refStat
  deathStat := h'.deathStat.trans h.deathStat

theorem works (s : Objs) (works : Queues Queue Work) : s.Same { s with works := works } :=
  ⟨rfl, fun _ => rfl, rfl, rfl, rfl, rfl, rfl, rfl, rfl, rfl, rfl⟩

theorem setNode {node node' : Node} (hnode : s.nodes.cell n = some node)
    (hstill : node'.still = node.still) : s.Same (s.setNode n node') := by
  refine ⟨rfl, fun m => ?_, rfl, rfl, rfl, rfl, rfl, rfl, rfl, rfl, rfl⟩
  simp only [Objs.setNode, Heap.cell_modify]
  split_ifs with hm
  · simp [hm, hnode, hstill]
  · rfl

theorem graph (h : s.Same t) : t.graph = s.graph := by
  refine graph_congr (fun n => ?_) (fun r => by rw [h.refs]) h.procNodes h.refsByDesc h.refsByNode
  have hview : view ∘ still = view := rfl
  have hmap := congrArg (Option.map view) (h.nodes n)
  rwa [Option.map_map, Option.map_map, hview] at hmap

end Objs.Same

/-- The work of nodes and death records only leaves its list, and only transactions are put on
the lists of nodes. -/
def callMoves (w : Work) (q : Option Queue) : Prop :=
  (w.isObject = true → q = none) ∧ ((∃ t, w = .transaction t) ∨ ∀ n, q ≠ some (.async n))

/-- Only transactions wait on the lists of nodes. -/
def Objs.AsyncTransactions (s : Objs) : Prop :=
  ∀ w n, s.works.home w = some (.async n) → ∃ t, w = .transaction t

/-- The objects are left alone, and so is their work but for being taken off a list. -/
structure Objs.Quiet (s s' : Objs) : Prop where
  same : s.Same s'
  moves : Moves callMoves s.works s'.works

namespace Objs.Quiet

variable {s t u : Objs}

theorem refl (s : Objs) : s.Quiet s := ⟨.refl s, .refl _⟩

theorem trans (h : s.Quiet t) (h' : t.Quiet u) : s.Quiet u :=
  ⟨h.same.trans h'.same, h.moves.trans h'.moves⟩

theorem unqueue (s : Objs) (w : Work) : s.Quiet (s.unqueue w) :=
  ⟨.works _ _, .del (.refl _) ⟨fun _ => rfl, .inr (by simp)⟩⟩

theorem transaction (t : Id) (q : Queue) : s.Quiet (s.queue (.transaction t) q) :=
  ⟨.works _ _, .addTail (.refl _) ⟨by simp [Work.isObject], .inl ⟨t, rfl⟩⟩⟩

theorem complete (w id : Id) : s.Quiet (s.queue (.transactionComplete w) (.thread id)) :=
  ⟨.works _ _, .addTail (.refl _) ⟨by simp [Work.isObject], .inr (by simp)⟩⟩

theorem setNode {node node' : Node} (hnode : s.nodes.cell n = some node)
    (hstill : node'.still = node.still) : s.Quiet (s.setNode n node') :=
  ⟨.setNode hnode hstill, .refl _⟩

theorem publish (s : Objs) (t w id : Id) (q : Queue) :
    s.Quiet ((s.queue (.transaction t) q).queue (.transactionComplete w) (.thread id)) :=
  (Quiet.transaction t q).trans (.complete w id)

theorem asyncTransactions (h : s.Quiet t) (hasync : s.AsyncTransactions) : t.AsyncTransactions := by
  intro w n hw
  rcases h.moves.home_cases w with hhome | ⟨-, ht | hne⟩
  · exact hasync w n (hhome.symm.trans hw)
  · exact ht
  · exact absurd hw (hne n)

theorem home_node (h : s.Quiet t) {q : Queue} (hq : t.works.home (.node n) = some q) :
    s.works.home (.node n) = some q := by
  rcases h.moves.home_cases (.node n) with hhome | ⟨hnone, -⟩
  · exact hhome.symm.trans hq
  · exact absurd hq (by simp [hnone rfl])

end Objs.Quiet

namespace State

variable {s s' : State} {rb : Balance ℕ} {id : Id} {b : BufferId}

theorem Release.quiet {w : Work} (h : s.Release w s') : s.objs.Quiet s'.objs := by
  cases h with
  | failed | dropped | object => exact .unqueue _ _
  | complete w => exact (Quiet.unqueue _ _).trans (.unqueue _ _)

theorem quiet_of_binderReleaseWork {q : Queue} (h : s.binderReleaseWork q = .ok s') :
    s.objs.Quiet s'.objs :=
  List.foldlM_ok (R := fun _ t => s.objs.Quiet t.objs)
    (fun _ _ _ _ hR h => hR.trans (Release.of_ok h).quiet) (.refl _) h

theorem Commit.quiet {target : Target} {tr : TransactionData} (h : s.Commit id target b tr s') :
    s.objs.Quiet s'.objs := by
  cases h with
  | reply | waiting | call => exact .publish _ _ _ _ _
  | oneWay _ _ _ hnode =>
    refine (Quiet.setNode hnode ?_).trans (.publish _ _ _ _ _)
    rfl

theorem ReadTransaction.quiet {t : Id} (h : s.ReadTransaction id t s') : s.objs.Quiet s'.objs := by
  cases h <;> exact .unqueue _ _

theorem NextAsync.quiet (hasync : s.objs.AsyncTransactions) (h : s.NextAsync id b s') :
    s.objs.Quiet s'.objs := by
  cases h with
  | none => exact .refl _
  | last _ _ hnode => exact .setNode hnode rfl
  | @next n node w l _ _ _ _ hitems =>
    have hmem : w ∈ s.objs.works.items (.async n) := by simp [hitems]
    obtain ⟨t, rfl⟩ := hasync w n ((s.objs.works.mem_items _ _).mp hmem)
    exact (Quiet.unqueue _ _).trans (.transaction _ _)

theorem objs_detach : (s.detach b).objs = s.objs := by
  unfold detach
  split <;> rfl

theorem objs_binderFreeBuf (h : s.binderFreeBuf rb b = .ok s') : s'.objs = s.objs := by
  obtain ⟨_, _, _, -, -, -, -, rfl⟩ := binderFreeBuf_ok h
  rfl

end State

end AndroidKernel.Binder
