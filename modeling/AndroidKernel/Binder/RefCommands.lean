import AndroidKernel.Binder.RefCounts
import AndroidKernel.Binder.Roster

/-!
# What the references need

The views of the references agree, node work is where its owner reads it, and processes list their
threads. References are counted as long as `binder_inc_ref` does not refuse one that was just made
for it; here is where each operation may make such a reference.
-/

namespace AndroidKernel.Binder

open RbTree Heap List

theorem Objs.NodeDied.owner_of_ne {s s' : Objs} {p n m : Id} (h : s.NodeDied p n s')
    (hm : m ≠ n) : s'.owner m = s.owner m := by
  cases h with
  | erased => simp [owner, eraseNode, cell_free, hm]
  | orphaned _ hdied =>
    simp [owner, (DeathsOnly.refsDied hdied).nodes, orphan, unqueue, cell_modify, hm]

/-- The indexes of the references, the lists of the nodes and the counts of strong references
agree. -/
structure Objs.RefsAgree (s : Objs) : Prop where
  mem_refsByDesc : ∀ p r, r ∈ s.refsByDesc p ↔ ∃ ref, s.refs.cell r = some ref ∧ ref.proc = p
  mem_refsByNode : ∀ p r, r ∈ s.refsByNode p ↔ r ∈ s.refsByDesc p
  nodup : ∀ p, (s.refsByDesc p).Nodup ∧ (s.refsByNode p).Nodup
  desc_inj : ∀ r r' ref ref', s.refs.cell r = some ref → s.refs.cell r' = some ref' →
    ref.proc = ref'.proc → ref.desc = ref'.desc → r = r'
  node_inj : ∀ r r' ref ref', s.refs.cell r = some ref → s.refs.cell r' = some ref' →
    ref.proc = ref'.proc → ref.node = ref'.node → r = r'
  mem_refs : ∀ n node, s.nodes.cell n = some node → node.refs.Nodup ∧
    ∀ r, r ∈ node.refs ↔ ∃ ref, s.refs.cell r = some ref ∧ ref.node = n
  strong_eq : ∀ n node, s.nodes.cell n = some node → node.internalStrongRefs =
    (node.refs.countP fun r => (s.refs.cell r).any fun ref => decide (0 < ref.strong) : ℕ)

theorem Objs.Consistent.refsAgree {s : Objs} (h : s.Consistent) : s.RefsAgree := by
  have hproc {p r : Id} : (s.graph.refs r).map RefGraph.Ref.proc = some p ↔
      ∃ ref, s.refs.cell r = some ref ∧ ref.proc = p := by
    simp [graph, Ref.view]
  have hview {r : Id} {ref : Ref} (hr : s.refs.cell r = some ref) :
      s.graph.refs r = some ref.view := by
    simp [graph, hr]
  have hnode {n : Id} {node : Node} (hn : s.nodes.cell n = some node) :
      s.graph.nodes n = some node.view := by
    simp [graph, hn]
  refine ⟨fun p r => (h.mem_refsByDesc p r).trans hproc,
    fun p r => (h.mem_refsByNode p r).trans (h.mem_refsByDesc p r).symm,
    fun p => ⟨h.nodup_refsByDesc p, h.nodup_refsByNode p⟩,
    fun r r' ref ref' hr hr' => h.desc_inj r r' _ _ (hview hr) (hview hr'),
    fun r r' ref ref' hr hr' => h.node_inj r r' _ _ (hview hr) (hview hr'),
    fun n node hn => ⟨h.nodup_refs n _ (hnode hn), fun r => ?_⟩, fun n node hn => ?_⟩
  · refine (h.mem_refs n _ r (hnode hn)).trans ?_
    simp [graph, Ref.view]
  · refine (h.strongRefs_eq n _ (hnode hn)).trans ?_
    congr 2
    funext r
    cases hr : s.refs.cell r <;> simp [RefGraph.isStrong, graph, hr, Ref.view, Nat.pos_iff_ne_zero]

namespace Transfer

/-- Where the translation of a handle makes a reference to its node, the node accepts one. -/
def AcceptsHandle (x : Transfer) (route : Route) (handle : ℕ) (strong : Bool) : Prop :=
  ∀ r ∈ x.objs.binderGetRef route.proc handle, ∀ ref ∈ x.objs.refs.cell r,
    ∀ node ∈ x.objs.nodes.cell ref.node, node.proc ≠ some route.targetProc →
      (x.objs.findRefForNode route.targetProc ref.node).isSome ∨ x.objs.Accepts ref.node strong

/-- The same for the object at an offset, whatever it is. -/
def Accepts (x : Transfer) (route : Route) (off : ℕ) : Prop :=
  match ObjectType.decode (readObject x.data off).type with
  | some (.handle strong) => x.AcceptsHandle route (readObject x.data off).binder strong
  | _ => True

/-- The same for every object of the loop over the offsets when its turn comes. -/
def AllAccept (route : Route) (dataSize : ℕ) (env : TransactionEnv) : ℕ → List ℕ → Transfer → Prop
  | _, [], _ => True
  | i, off :: offsets, x => x.Accepts route off ∧
      (x.translateObject route dataSize env i off).Ensures fun y =>
        y.1 = none → AllAccept route dataSize env (i + 1) offsets y.2

instance (x : Transfer) (route : Route) (handle : ℕ) (strong : Bool) :
    Decidable (x.AcceptsHandle route handle strong) :=
  inferInstanceAs (Decidable (∀ r ∈ x.objs.binderGetRef route.proc handle,
    ∀ ref ∈ x.objs.refs.cell r, ∀ node ∈ x.objs.nodes.cell ref.node,
      node.proc ≠ some route.targetProc → _ ∨ _))

instance (x : Transfer) (route : Route) (off : ℕ) : Decidable (x.Accepts route off) := by
  unfold Accepts
  split <;> infer_instance

instance decidableAllAccept (route : Route) (dataSize : ℕ) (env : TransactionEnv) :
    ∀ i offsets x, Decidable (AllAccept route dataSize env i offsets x)
  | _, [], _ => isTrue trivial
  | i, _ :: offsets, _ =>
    have := decidableAllAccept route dataSize env (i + 1) offsets
    inferInstanceAs (Decidable (_ ∧ Except.Ensures _ _))

theorem owner_of_mem {s : Objs} {p n : Id} (h : s.Consistent) (hn : n ∈ s.procNodes p) :
    s.owner n = some p := by
  have hproc := (h.mem_procNodes p n).mp hn
  simp only [Objs.graph] at hproc
  unfold Objs.owner
  cases hcell : s.nodes.cell n with
  | none => simp [hcell] at hproc
  | some node => simpa [hcell, Node.view] using hproc

theorem translateFd_objs {x : Transfer} {route : Route} {off i : ℕ} {fp : FlatObject}
    {env : TransactionEnv} : (x.translateFd route off fp env i).2.objs = x.objs := by
  unfold translateFd
  split
  · rfl
  · split <;> rfl

end Transfer

namespace State

/-- The lists a process reads its work from. -/
def Reads (s : State) (p : Id) (q : Queue) : Prop :=
  q = .proc p ∨ ∃ id, q = .thread id ∧ s.HasThread p id

/-- The references agree, node work is where its owner reads it, and processes list their
threads. -/
structure Wired (strict : Prop) (s : State) : Prop where
  refs : s.objs.RefInv strict s.Reads
  rostered : s.Rostered

/-- Where a count for handle 0 makes a reference to the context manager, its node accepts one. -/
def AcceptsTarget (s : State) (p : Id) (target : ℕ) (strong : Bool) : Prop :=
  target = 0 → ∀ n ∈ s.objs.contextMgrNode,
    (s.objs.findRefForNode p n).isSome ∨ s.objs.Accepts n strong

instance (s : State) (p : Id) (target : ℕ) (strong : Bool) :
    Decidable (s.AcceptsTarget p target strong) :=
  inferInstanceAs (Decidable (target = 0 → ∀ n ∈ s.objs.contextMgrNode, _ ∨ _))

variable {strict : Prop} {s s' : State} {rb : Balance ℕ} {p id : Id}

theorem ownLists (s : State) : Objs.RefInv.OwnLists s.Reads := fun _ => .inl rfl

theorem deathQueue_ne (s : State) (p id n : Id) : s.deathQueue p id ≠ .async n := by
  unfold deathQueue
  split <;> simp

theorem HasThread.unique {p' : Id} (h : s.HasThread p id) (h' : s.HasThread p' id) : p = p' := by
  obtain ⟨thread, hthread, rfl⟩ := h
  obtain ⟨thread', hthread', rfl⟩ := h'
  cases hthread.symm.trans hthread'
  rfl

namespace Wired

theorem init : State.init.Wired strict where
  refs :=
    { consistent := RefGraph.Inv.empty
      placed := ⟨fun _ _ _ => trivial, fun _ _ _ => trivial, by rintro n q ⟨⟩, by rintro w n ⟨⟩⟩
      counted := by rintro - r ref ⟨⟩ }
  rostered := .init

section

variable (h : s.Wired strict) (hroster : s.SameRoster s')
include h hroster

theorem of_refs (hrefs : s'.objs.RefInv strict s.Reads) : s'.Wired strict := by
  refine ⟨hrefs.mono ?_, h.rostered.sameRoster hroster⟩
  rintro p q (rfl | ⟨id, rfl, hid⟩)
  · exact .inl rfl
  · exact .inr ⟨id, rfl, (hroster.hasThread_iff p id).mpr hid⟩

theorem quiet (hquiet : s.objs.Quiet s'.objs) : s'.Wired strict :=
  h.of_refs hroster (h.refs.quiet hquiet)

theorem same (hobjs : s'.objs = s.objs) : s'.Wired strict := h.of_refs hroster (hobjs ▸ h.refs)

end

theorem weaken (h : s.Wired strict) : s.Wired False :=
  ⟨⟨h.refs.consistent, h.refs.placed, False.elim⟩, h.rostered⟩

end Wired

variable (rb : Balance ℕ)

/-- Every object of a transaction accepts its references when its turn comes. -/
def AcceptsTransfer (s : State) (p id : Id) (target : Target) (tr : TransactionData) (reply : Bool)
    (env : TransactionEnv) : Prop :=
  (s.binderAllocBuf rb target.proc tr.dataSize tr.offsetsSize (!reply && tr.oneWay)
    env.pages).Ensures fun r => ∀ b ∈ r.1,
      (r.2.fillBuffer (target.proc, b) target.node tr).Ensures fun s =>
        Transfer.AllAccept ⟨p, id, target.proc, s.acceptsFds target⟩
          (s.header (target.proc, b)).dataSize env 0 tr.offsetList (s.load (target.proc, b))

/-- The same for `binder_transaction`, which finds the target first. -/
def AcceptsTransaction (s : State) (p id : Id) (tr : TransactionData) (reply : Bool)
    (env : TransactionEnv) : Prop :=
  (s.resolve p id tr reply).Ensures fun
    | (.target target, calls) =>
      AcceptsTransfer rb { s with calls := calls.createdTransaction.createdComplete } p id target
        tr reply env
    | _ => True

instance (rb : Balance ℕ) (s : State) (p id : Id) (target : Target) (tr : TransactionData)
    (reply : Bool) (env : TransactionEnv) :
    Decidable (s.AcceptsTransfer rb p id target tr reply env) := by
  unfold AcceptsTransfer
  infer_instance

instance (rb : Balance ℕ) (s : State) (p id : Id) (tr : TransactionData) (reply : Bool)
    (env : TransactionEnv) : Decidable (s.AcceptsTransaction rb p id tr reply env) := by
  have : DecidablePred fun r : Resolved × Calls => match r with
      | (.target target, calls) =>
        AcceptsTransfer rb { s with calls := calls.createdTransaction.createdComplete } p id target
          tr reply env
      | _ => True := fun r => by
    dsimp only
    split <;> infer_instance
  exact inferInstanceAs (Decidable (Except.Ensures _ _))

/-- The references a command takes are accepted. -/
def AcceptsCommand (s : State) (p id : Id) : Command → Prop
  | .increfs target _ => s.AcceptsTarget p target false
  | .acquire target _ => s.AcceptsTarget p target true
  | .transaction tr env => s.AcceptsTransaction rb p id tr false env
  | .reply tr env => s.AcceptsTransaction rb p id tr true env
  | _ => True

instance (rb : Balance ℕ) (s : State) (p id : Id) (cmd : Command) :
    Decidable (s.AcceptsCommand rb p id cmd) := by
  cases cmd <;> unfold AcceptsCommand <;> infer_instance

/-- The references a request of a thread takes are accepted. -/
def AcceptsRequest (s : State) (p id : Id) : Request → Prop
  | .write cmd => s.AcceptsCommand rb p id cmd
  | _ => True

/-- The references an operation takes are accepted. -/
def AcceptsOp (s : State) : Op → Prop
  | .ioctl p pid alloc request => (s.binderGetThread p pid alloc).Ensures fun r =>
      ∀ id ∈ r.1, r.2.AcceptsRequest rb p id request
  | _ => True

instance (rb : Balance ℕ) (s : State) (p id : Id) (r : Request) :
    Decidable (s.AcceptsRequest rb p id r) := by
  cases r <;> unfold AcceptsRequest <;> infer_instance

instance (rb : Balance ℕ) (s : State) (op : Op) : Decidable (s.AcceptsOp rb op) := by
  cases op <;> unfold AcceptsOp <;> infer_instance

/-- The same for each operation of a run when its turn comes. -/
def AllAccept (rb : Balance ℕ) : State → List Op → Prop
  | _, [] => True
  | s, op :: ops => s.AcceptsOp rb op ∧ (s.step rb op).Ensures fun s' => AllAccept rb s' ops

instance decidableAllAccept (rb : Balance ℕ) : ∀ s ops, Decidable (AllAccept rb s ops)
  | _, [] => isTrue trivial
  | s, op :: ops =>
    have := fun s' => decidableAllAccept rb s' ops
    inferInstanceAs (Decidable (s.AcceptsOp rb op ∧ Except.Ensures _ _))

theorem Reads.unique {p' : Id} {q : Queue} (h : s.Reads p' q) (hid : s.HasThread p id)
    (hq : q = .thread id ∨ q = .proc p) : p' = p := by
  rcases h with rfl | ⟨id', rfl, hid'⟩
  · simpa using hq
  · obtain rfl : id' = id := by simpa using hq
    exact hid'.unique hid

/-- `binder_release_work` takes an item off its list and queues nothing. -/
theorem Release.home {w : Work} (h : s.Release w s') (v : Work) :
    s'.objs.works.home v = if v = w then none else s.objs.works.home v := by
  rw [← Queues.home_del]
  cases h with
  | complete w =>
    simp only [dropComplete, Objs.unqueue, Queues.home_del]
    split_ifs <;> rfl
  | failed => rfl
  | dropped => rfl
  | object => rfl

/-- `binder_release_work` empties its list and leaves the others. -/
theorem home_binderReleaseWork {q : Queue} (h : s.binderReleaseWork q = .ok s') (w : Work) :
    s'.objs.works.home w =
      if s.objs.works.home w = some q then none else s.objs.works.home w := by
  have hfold := foldlM_ok (f := releaseItem)
    (R := fun l t => l.Nodup ∧ (∀ w ∈ l, s.objs.works.home w = some q) ∧ ∀ w, t.objs.works.home w =
        if s.objs.works.home w = some q ∧ w ∉ l then none else s.objs.works.home w) ?_
    ⟨s.objs.works.nodup q, fun w hw => (s.objs.works.mem_items q w).mp hw, fun w => ?_⟩ h
  · simpa using hfold.2.2 w
  · rintro c l t t' ⟨hnodup, hl, hR⟩ hstep
    obtain ⟨hc, hnodup⟩ := List.nodup_cons.mp hnodup
    refine ⟨hnodup, fun w hw => hl w (mem_cons_of_mem _ hw), fun w => ?_⟩
    rw [(Release.of_ok hstep).home, hR]
    by_cases hwc : w = c
    · subst hwc
      simp [hl w mem_cons_self, hc]
    · simp [hwc]
  · rw [if_neg]
    rintro ⟨hw, hnot⟩
    exact hnot ((s.objs.works.mem_items q w).mpr hw)

theorem HasThread.freeThread {q i : Id} {stat : Stat} (h : s.HasThread q i) (hne : i ≠ id) :
    HasThread { s with calls := { s.calls with
      threads := s.calls.threads.free id, threadStat := stat } } q i := by
  obtain ⟨thread, hthread, hproc⟩ := h
  exact ⟨thread, by simpa [cell_free, hne] using hthread, hproc⟩

namespace Wired

theorem eraseThread (h : s.Wired strict) (p id : Id) :
    Wired strict (s.modifyProc p fun proc => { proc with threads := proc.threads.erase id }) := by
  refine ⟨h.refs, fun q proc hproc => ?_⟩
  simp only [modifyProc, cell_modify] at hproc
  split_ifs at hproc with hq
  · subst hq
    obtain ⟨proc', hproc', rfl⟩ := Option.map_eq_some_iff.mp hproc
    obtain ⟨hnodup, hthreads⟩ := h.rostered q proc' hproc'
    exact ⟨hnodup.erase id, fun i hi => hthreads i (mem_of_mem_erase hi)⟩
  · exact h.rostered q proc hproc

theorem freeThread {stat : Stat} (h : s.Wired strict)
    (hgone : ∀ p proc, s.procs.cell p = some proc → id ∉ proc.threads)
    (hhome : ∀ w, s.objs.works.home w ≠ some (.thread id)) :
    Wired strict { s with calls := { s.calls with
      threads := s.calls.threads.free id, threadStat := stat } } := by
  refine ⟨⟨h.refs.consistent, ⟨fun _ _ _ => trivial, fun _ _ _ => trivial, fun n q hq => ?_,
    h.refs.placed.async_work⟩, h.refs.counted⟩, fun q proc hproc => ?_⟩
  · obtain ⟨p, howner, hreads⟩ := h.refs.placed.node_work n q hq
    refine ⟨p, howner, ?_⟩
    rcases hreads with rfl | ⟨i, rfl, hi⟩
    · exact .inl rfl
    · refine .inr ⟨i, rfl, hi.freeThread ?_⟩
      rintro rfl
      exact hhome _ hq
  · obtain ⟨hnodup, hthreads⟩ := h.rostered q proc hproc
    refine ⟨hnodup, fun i hi => (hthreads i hi).freeThread ?_⟩
    rintro rfl
    exact hgone q proc hproc hi

theorem not_mem_threads (h : s.Wired strict) (hid : s.HasThread p id) {q : Id} {proc : Proc}
    (hproc : (s.modifyProc p fun proc =>
      { proc with threads := proc.threads.erase id }).procs.cell q = some proc) :
    id ∉ proc.threads := by
  simp only [modifyProc, cell_modify] at hproc
  split_ifs at hproc with hq
  · subst hq
    obtain ⟨proc', hproc', rfl⟩ := Option.map_eq_some_iff.mp hproc
    exact (h.rostered q proc' hproc').1.not_mem_erase
  · exact fun hmem => hq (((h.rostered q proc hproc).2 id hmem).unique hid)

end Wired

end State

end AndroidKernel.Binder
