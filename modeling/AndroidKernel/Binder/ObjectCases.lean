import AndroidKernel.Binder.Objects

/-!
# What the functions on nodes and references can do

The outcomes of `binder_inc_node`, `binder_dec_node`, `binder_get_ref_for_node`,
`binder_inc_ref`, `binder_dec_ref` and `binder_delete_ref`, each listed once with the
circumstances in which it arises. The invariants of the driver are proved from these lists
and not from the bodies of the functions.
-/

namespace AndroidKernel.Binder

open Except Function Heap Ref

theorem increment_eq_ok {c c' : ℤ} (h : increment c = .ok c') : c' = c + 1 := by
  unfold increment at h
  split at h <;> cases h
  rfl

theorem incrementNat_eq_ok {c c' : ℕ} (h : incrementNat c = .ok c') : c' = c + 1 := by
  unfold incrementNat at h
  split at h <;> cases h
  rfl

namespace Objs

variable {s t s' : Objs} {n : Id} {strong : Bool} {a : Node} {done internal : Bool}
  {q : Option Queue} {b : Node}

/-- The outcomes of `binder_inc_node`. -/
inductive IncNode (s : Objs) (n : Id) (strong internal : Bool) (q : Option Queue) :
    Bool → Objs → Prop
  | refused {node : Node} (hnode : s.nodes.cell n = some node) (hstrong : strong = true)
      (hrefused : s.incStrongRefused n node internal q = true) :
      IncNode s n strong internal q false s
  | counted {node node' : Node} {done : Bool} (hnode : s.nodes.cell n = some node)
      (hcount : node.incCount strong internal = .ok node')
      (hdone : done = false → strong = false ∧ q = none ∧ s.incWeakQueues n node = true) :
      IncNode s n strong internal q done (s.setNode n node')
  | queued {node node' : Node} {q' : Queue} (hnode : s.nodes.cell n = some node)
      (hcount : node.incCount strong internal = .ok node') (hq : q = some q') :
      IncNode s n strong internal q true ((s.setNode n node').queue (.node n) q')

theorem IncNode.of_ok (h : s.binderIncNode n strong internal q = .ok (done, s')) :
    IncNode s n strong internal q done s' := by
  unfold binderIncNode at h
  obtain ⟨node, hnode, h⟩ := of_get h
  by_cases hrefused : (strong && s.incStrongRefused n node internal q) = true
  · rw [if_pos hrefused] at h
    cases h
    rw [Bool.and_eq_true] at hrefused
    exact .refused hnode hrefused.1 hrefused.2
  · rw [if_neg hrefused] at h
    obtain ⟨node', hcount, h⟩ := of_bind h
    cases strong with
    | true =>
      rw [if_pos rfl] at h
      cases q with
      | none =>
        cases h
        exact .counted hnode hcount (by simp)
      | some q' =>
        by_cases hhas : node.hasStrongRef
        · simp only [hhas, if_true] at h
          cases h
          exact .counted hnode hcount (by simp)
        · simp only [hhas, Bool.false_eq_true, if_false] at h
          cases h
          exact .queued hnode hcount rfl
    | false =>
      rw [if_neg Bool.false_ne_true] at h
      by_cases hweak : s.incWeakQueues n node = true
      · rw [if_pos hweak] at h
        cases q with
        | none =>
          cases h
          exact .counted hnode hcount fun _ => ⟨rfl, rfl, hweak⟩
        | some q' =>
          cases h
          exact .queued hnode hcount rfl
      · rw [if_neg hweak] at h
        cases h
        exact .counted hnode hcount (by simp)

/-- The work of a node can go to its owner or from its list. -/
def nodeMoves (n : Id) (owner : Option Id) (w : Work) (q : Option Queue) : Prop :=
  w = .node n ∧ ∀ q', q = some q' → ∃ p, owner = some p ∧ q' = .proc p

/-- A node changes and its owner may be told, or it goes away as nothing refers to it. -/
inductive NodeChange (s : Objs) (n : Id) (node : Node) : Objs → Prop
  | kept {works : Queues Queue Work} (hworks : Queues.Moves (nodeMoves n node.proc) s.works works) :
      NodeChange s n node { s.setNode n node with works := works }
  | freed {works : Queues Queue Work} (hworks : Queues.Moves (nodeMoves n node.proc) s.works works)
      (hhome : works.home (.node n) = none) (hrefs : node.refs = [])
      (hstrong : node.localStrongRefs = 0) (hweak : node.localWeakRefs = 0) :
      NodeChange s n node { s.freeNode n node with works := works }

/-- `binder_dec_node` lowers a count of the node it is called for. -/
theorem NodeChange.of_decNode (h : s.binderDecNode n strong internal = .ok s') :
    ∃ node, s.nodes.cell n = some node ∧ NodeChange s n (node.decCount strong internal) s' := by
  unfold binderDecNode at h
  obtain ⟨node, hget, h⟩ := of_get h
  refine ⟨node, hget, ?_⟩
  dsimp only at h
  split at h
  · cases h
    exact .kept (.refl _)
  · split at h
    next hproc _ =>
      split at h <;> cases h
      · exact .kept (.addTail (.refl _) ⟨rfl, by rintro _ ⟨⟩; exact ⟨_, hproc, rfl⟩⟩)
      · exact .kept (.refl _)
    next =>
      split at h
      next hfree =>
        cases h
        have hfreed := NodeChange.freed (s := s) (n := n) (.del (.refl _) ⟨rfl, by simp⟩)
          (by simp [Queues.home_del]) hfree.1 hfree.2.1 hfree.2.2
        convert hfreed using 1
        simp only [freeNode, setNode, free_modify]
      next =>
        cases h
        exact .kept (.refl _)

theorem NodeChange.setNode (s : Objs) (n : Id) (node : Node) :
    NodeChange s n node (s.setNode n node) :=
  .kept (.refl _)

section

variable (h : NodeChange s n a t)
include h

theorem NodeChange.cell_eq (hb : t.nodes.cell n = some b) : b = a := by
  cases h with
  | freed => simp [freeNode] at hb
  | kept =>
    simp only [Objs.setNode, cell_modify, if_true] at hb
    cases hs : s.nodes.cell n <;> simp_all

theorem NodeChange.frame : t.refs = s.refs ∧ t.deaths = s.deaths ∧ t.refsByDesc = s.refsByDesc ∧
      t.refsByNode = s.refsByNode ∧ t.contextMgrNode = s.contextMgrNode ∧ t.refStat = s.refStat ∧
      t.deathStat = s.deathStat := by
  cases h <;> exact ⟨rfl, rfl, rfl, rfl, rfl, rfl, rfl⟩

theorem NodeChange.congr (f g : Id → List Id) :
    NodeChange { s with refsByDesc := f, refsByNode := g } n a
      { t with refsByDesc := f, refsByNode := g } := by
  cases h with
  | kept hworks => exact .kept hworks
  | freed hworks hhome hrefs hstrong hweak => exact .freed hworks hhome hrefs hstrong hweak

theorem NodeChange.trans {u : Objs} (ht : (t.nodes.cell n).isSome) (h' : NodeChange t n b u)
    (hproc : b.proc = a.proc) : NodeChange s n b u := by
  cases h with
  | freed => simp [freeNode] at ht
  | kept hworks =>
    rw [← hproc] at hworks
    cases h' with
    | kept hworks' =>
      have := NodeChange.kept (s := s) (n := n) (hworks.trans hworks')
      convert this using 1
      simp only [Objs.setNode, modify_const_modify]
    | freed hworks' hhome hrefs hstrong hweak =>
      have := NodeChange.freed (s := s) (n := n) (hworks.trans hworks') hhome hrefs hstrong hweak
      convert this using 1
      simp only [freeNode, Objs.setNode, free_modify]

end

/-- The outcomes of `binder_get_ref_for_node`. -/
inductive GetRef (s : Objs) (p n : Id) (alloc : Bool) : Option Id → Objs → Prop
  | found {r : Id} (hfind : s.findRefForNode p n = some r) : GetRef s p n alloc (some r) s
  | noMemory (hfind : s.findRefForNode p n = none) (halloc : alloc = false) :
      GetRef s p n alloc none s
  | created {node : Node} (hfind : s.findRefForNode p n = none)
      (hnode : s.nodes.cell n = some node)
      (hdesc : s.freshDesc p n ∉ (s.refsByDesc p).map s.refKey) :
      GetRef s p n alloc (some s.refs.next) (s.addRef p n node (s.freshDesc p n))

theorem GetRef.of_ok {p : Id} {alloc : Bool} {r : Option Id}
    (h : s.binderGetRefForNode p n alloc = .ok (r, s')) : GetRef s p n alloc r s' := by
  unfold binderGetRefForNode at h
  split at h
  next r hfind =>
    cases h
    exact .found hfind
  next hfind =>
    split at h
    next halloc =>
      obtain ⟨node, hget, h⟩ := of_get h
      split at h
      · cases h
      next hdesc =>
        cases h
        exact .created hfind hget hdesc
    next halloc =>
      cases h
      exact .noMemory hfind (by simpa using halloc)

/-- The outcomes of `binder_inc_ref`. -/
inductive IncRef (s : Objs) (r : Id) (strong : Bool) (q : Option Queue) : Bool → Objs → Prop
  | refused {ref : Ref} {s' : Objs} (href : s.refs.cell r = some ref)
      (hzero : ref.count strong = 0) (hinc : IncNode s ref.node strong true q false s') :
      IncRef s r strong q false s'
  | first {ref : Ref} {s' : Objs} (href : s.refs.cell r = some ref)
      (hzero : ref.count strong = 0) (hinc : IncNode s ref.node strong true q true s') :
      IncRef s r strong q true (s'.setRef r (ref.withCount strong 1))
  | again {ref : Ref} (href : s.refs.cell r = some ref) (hpos : ref.count strong ≠ 0) :
      IncRef s r strong q true (s.setRef r (ref.withCount strong (ref.count strong + 1)))

theorem IncRef.of_ok {r : Id} (h : s.binderIncRef r strong q = .ok (done, s')) :
    IncRef s r strong q done s' := by
  unfold binderIncRef at h
  obtain ⟨ref, href, h⟩ := of_get h
  obtain ⟨⟨ok, t⟩, hinc, h⟩ := of_bind h
  cases ok with
  | false =>
    cases h
    split at hinc
    next hzero => exact .refused href hzero (.of_ok hinc)
    next => cases hinc
  | true =>
    obtain ⟨count, hcount, h⟩ := of_bind h
    cases h
    obtain rfl := incrementNat_eq_ok hcount
    split at hinc
    next hzero =>
      rw [hzero]
      exact .first href hzero (.of_ok hinc)
    next hpos =>
      cases hinc
      exact .again href hpos

end Objs

/-- A node without one of its references. -/
def Node.without (node : Node) (r : Id) (strong : Bool) : Node :=
  { node with
    refs := node.refs.erase r
    internalStrongRefs := node.internalStrongRefs - strong.toNat }

namespace Objs

/-- The objects without a reference that its node does not list any more. -/
def forgetRef (s : Objs) (r : Id) (ref : Ref) : Objs :=
  { s with
    refsByDesc := update s.refsByDesc ref.proc ((s.refsByDesc ref.proc).erase r)
    refsByNode := update s.refsByNode ref.proc ((s.refsByNode ref.proc).erase r)
    refs := s.refs.free r
    refStat := s.refStat.delete
    works := match ref.death with
      | some d => s.works.del (.death d)
      | none => s.works
    deaths := match ref.death with
      | some d => s.deaths.free d
      | none => s.deaths
    deathStat := match ref.death with
      | some _ => s.deathStat.delete
      | none => s.deathStat }

/-- What `binder_delete_ref` does. -/
inductive DeleteRef (s : Objs) (r : Id) : Objs → Prop
  | mk {ref : Ref} {node : Node} {t : Objs} (href : s.refs.cell r = some ref)
      (hnode : s.nodes.cell ref.node = some node)
      (hchange : NodeChange s ref.node (node.without r (decide (ref.strong ≠ 0))) t)
      (hdeath : ∀ d, ref.death = some d → (s.deaths.cell d).isSome) :
      DeleteRef s r (t.forgetRef r ref)

theorem DeleteRef.of_ok {s s' : Objs} {r : Id} (h : s.binderDeleteRef r = .ok s') :
    DeleteRef s r s' := by
  unfold binderDeleteRef at h
  obtain ⟨ref, href, h⟩ := of_get h
  obtain ⟨t₁, h₁, h⟩ := of_bind h
  obtain ⟨t₂, h₂, h⟩ := of_bind h
  obtain ⟨t₃, h₃, h⟩ := of_bind h
  obtain ⟨t₄, h₄, h⟩ := of_bind h
  cases h
  set f := update s.refsByDesc ref.proc ((s.refsByDesc ref.proc).erase r) with hf
  set g := update s.refsByNode ref.proc ((s.refsByNode ref.proc).erase r) with hg
  obtain ⟨node₁, hnode₁, h₂⟩ := of_get h₂
  cases h₂
  obtain ⟨node, hnode, hfirst⟩ : ∃ node, s.nodes.cell ref.node = some node ∧
      NodeChange { s with refsByDesc := f, refsByNode := g } ref.node
        (node.without r (decide (ref.strong ≠ 0)))
        (t₁.setNode ref.node { node₁ with refs := node₁.refs.erase r }) := by
    split at h₁
    next hstrong =>
      obtain ⟨node, hnode, hchange⟩ := NodeChange.of_decNode h₁
      obtain rfl := hchange.cell_eq hnode₁
      refine ⟨node, hnode, hchange.trans (by simp [hnode₁]) ?_ rfl⟩
      simpa [hstrong, Node.without, Node.decCount] using NodeChange.setNode t₁ ref.node _
    next hstrong =>
      cases h₁
      refine ⟨node₁, hnode₁, ?_⟩
      simpa [hstrong, Node.without] using NodeChange.setNode _ ref.node _
  obtain ⟨node₂, hnode₂, hsecond⟩ := NodeChange.of_decNode h₃
  obtain rfl := hfirst.cell_eq hnode₂
  have hboth := hfirst.trans (by simp [hnode₂]) hsecond rfl
  obtain ⟨hrefs, hdeaths, hdesc, hbyNode, -, hrefStat, hdeathStat⟩ := hboth.frame
  have hchange := hboth.congr s.refsByDesc s.refsByNode
  cases hdeath : ref.death with
  | none =>
    simp only [hdeath] at h₄
    cases h₄
    have := DeleteRef.mk href hnode hchange (by simp [hdeath])
    convert this using 1
    simp [forgetRef, hdeath, hdesc, hbyNode, hf, hg]
  | some d =>
    simp only [hdeath] at h₄
    obtain ⟨death, hget, h₄⟩ := of_get h₄
    cases h₄
    have hlive : s.deaths.cell d = some death := hdeaths ▸ hget
    have := DeleteRef.mk href hnode hchange (by simp [hdeath, hlive])
    convert this using 1
    simp [forgetRef, hdeath, hdesc, hbyNode, hf, hg]

/-- A count of a reference is lowered; its node hears of the last strong one. -/
inductive LowerRef (s : Objs) (r : Id) (ref : Ref) (strong : Bool) : Objs → Prop
  | quiet (hquiet : strong = true → ref.strong ≠ 1) :
      LowerRef s r ref strong (s.setRef r (ref.withCount strong (ref.count strong - 1)))
  | last {node : Node} {t : Objs} (hstrong : strong = true) (hone : ref.strong = 1)
      (hnode : s.nodes.cell ref.node = some node)
      (hchange : NodeChange (s.setRef r { ref with strong := 0 }) ref.node
        (node.decCount true true) t) : LowerRef s r ref strong t

/-- What `binder_dec_ref` does. -/
inductive DecRef (s : Objs) (r : Id) (strong : Bool) : Objs → Prop
  | zero {ref : Ref} (href : s.refs.cell r = some ref) (hzero : ref.count strong = 0) :
      DecRef s r strong s
  | lowered {ref : Ref} {t : Objs} (href : s.refs.cell r = some ref) (hpos : ref.count strong ≠ 0)
      (hlower : LowerRef s r ref strong t)
      (hleft : ref.count (!strong) ≠ 0 ∨ ref.count strong ≠ 1) : DecRef s r strong t
  | deleted {ref : Ref} {t s' : Objs} (href : s.refs.cell r = some ref)
      (hone : ref.count strong = 1) (hother : ref.count (!strong) = 0)
      (hlower : LowerRef s r ref strong t) (hdelete : DeleteRef t r s') : DecRef s r strong s'

theorem DecRef.of_ok {s s' : Objs} {r : Id} {strong : Bool} (h : s.binderDecRef r strong = .ok s') :
    DecRef s r strong s' := by
  unfold binderDecRef at h
  obtain ⟨ref, href, h⟩ := of_get h
  split at h
  next hzero =>
    cases h
    exact .zero href hzero
  next hpos =>
    obtain ⟨t, hdec, h⟩ := of_bind h
    have hlower : LowerRef s r ref strong t := by
      split at hdec
      next hlast =>
        obtain ⟨rfl, hlast⟩ := hlast
        have hone : ref.strong = 1 := by
          simp only [count, withCount, if_true] at hlast hpos
          omega
        obtain ⟨node, hnode, hchange⟩ := NodeChange.of_decNode hdec
        refine .last rfl hone hnode ?_
        simpa [withCount, count, hone] using hchange
      next hlast =>
        cases hdec
        refine .quiet ?_
        rintro rfl hone
        simp [withCount, count, hone] at hlast
    split at h
    next hgone =>
      have hcounts : ref.count strong = 1 ∧ ref.count (!strong) = 0 := by
        cases strong <;> simp [withCount, count] at hgone hpos ⊢ <;> omega
      exact .deleted href hcounts.1 hcounts.2 hlower (.of_ok h)
    next hleft =>
      cases h
      refine .lowered href hpos hlower ?_
      cases strong <;> simp [withCount, count] at hleft hpos ⊢ <;> omega

end Objs

end AndroidKernel.Binder
