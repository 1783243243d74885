import Mathlib.Data.List.Perm.Basic
import Mathlib.Data.List.Count
import Mathlib.Data.Int.Notation

/-!
# Objects and references to them

Processes own objects and hold references to objects of others. A reference is found in three
ways: by its descriptor and by its object among the references of its holder, and in the list
of its object. Each object counts the strong ones among its references. `RefGraph.Inv` says
that these are views of one set of references.
-/

/-- An object: its owner, what the owner knows it by, its references, and how many of them
are strong. -/
structure RefGraph.Node (P R K : Type) where
  proc : Option P
  key : K
  refs : List R
  strongRefs : ℤ

/-- A reference: its holder, its object, its descriptor, and whether it is strong. -/
structure RefGraph.Ref (P N : Type) where
  proc : P
  node : N
  desc : ℕ
  strong : Bool

/-- Objects and references, with the indexes of each process. -/
structure RefGraph (P N R K : Type) where
  nodes : N → Option (RefGraph.Node P R K)
  refs : R → Option (RefGraph.Ref P N)
  procNodes : P → List N
  refsByDesc : P → List R
  refsByNode : P → List R

namespace RefGraph

open Function List

variable {P N R K : Type} {g' : RefGraph P N R K} {node' : Node P R K}

/-- A reference exists and is strong. -/
def isStrong (g : RefGraph P N R K) (r : R) : Bool := (g.refs r).any Ref.strong

/-- The references of each process are found by their descriptors and by their objects, and
both tell them apart. -/
structure Indexed (g : RefGraph P N R K) : Prop where
  mem_refsByDesc : ∀ p r, r ∈ g.refsByDesc p ↔ (g.refs r).map Ref.proc = some p
  mem_refsByNode : ∀ p r, r ∈ g.refsByNode p ↔ (g.refs r).map Ref.proc = some p
  nodup_refsByDesc : ∀ p, (g.refsByDesc p).Nodup
  nodup_refsByNode : ∀ p, (g.refsByNode p).Nodup
  desc_inj : ∀ r r' ref ref', g.refs r = some ref → g.refs r' = some ref' →
    ref.proc = ref'.proc → ref.desc = ref'.desc → r = r'
  node_inj : ∀ r r' ref ref', g.refs r = some ref → g.refs r' = some ref' →
    ref.proc = ref'.proc → ref.node = ref'.node → r = r'

/-- Each object lists its references and counts the strong ones. -/
structure Linked (g : RefGraph P N R K) : Prop where
  node_isSome : ∀ r n, (g.refs r).map Ref.node = some n → (g.nodes n).isSome
  mem_refs : ∀ n node r, g.nodes n = some node → (r ∈ node.refs ↔ (g.refs r).map Ref.node = some n)
  nodup_refs : ∀ n node, g.nodes n = some node → node.refs.Nodup
  strongRefs_eq : ∀ n node, g.nodes n = some node →
    node.strongRefs = (node.refs.countP g.isStrong : ℕ)

/-- Each process finds its objects, by different keys. -/
structure Owned (g : RefGraph P N R K) : Prop where
  mem_procNodes : ∀ p n, n ∈ g.procNodes p ↔ (g.nodes n).bind Node.proc = some p
  nodup_procNodes : ∀ p, (g.procNodes p).Nodup
  key_inj : ∀ n n' node node' p, g.nodes n = some node → g.nodes n' = some node' →
    node.proc = some p → node'.proc = some p → node.key = node'.key → n = n'

/-- All indexes, lists and counts agree. -/
structure Inv (g : RefGraph P N R K) : Prop extends g.Indexed, g.Linked, g.Owned

/-- The graph without objects. -/
def empty : RefGraph P N R K :=
  ⟨fun _ => none, fun _ => none, fun _ => [], fun _ => [], fun _ => []⟩

theorem Inv.empty : (empty : RefGraph P N R K).Inv := by
  refine ⟨⟨?_, ?_, ?_, ?_, ?_, ?_⟩, ⟨?_, ?_, ?_, ?_⟩, ⟨?_, ?_, ?_⟩⟩ <;> simp [RefGraph.empty]

/-- The object of a reference is not one without references. -/
theorem Linked.ref_node_ne {g : RefGraph P N R K} (h : g.Linked) {n : N}
    (hn : ∀ node, g.nodes n = some node → node.refs = []) (r : R) :
    (g.refs r).map Ref.node ≠ some n := by
  intro hr
  obtain ⟨node, hnode⟩ := Option.isSome_iff_exists.mp (h.node_isSome r n hr)
  have := (h.mem_refs n node r hnode).mpr hr
  simp [hn node hnode] at this

section Nodes

variable [DecidableEq N] {v : Option (Node P R K)}

/-- An object goes away; `l` are then the objects of each process. -/
def dropNode (g : RefGraph P N R K) (n : N) (l : P → List N) : RefGraph P N R K :=
  { g with nodes := update g.nodes n none, procNodes := l }

/-- An object loses its owner; `l` are then the objects of each process. -/
def orphan (g : RefGraph P N R K) (n : N) (node : Node P R K) (l : P → List N) : RefGraph P N R K :=
  { g with nodes := update g.nodes n (some { node with proc := none }), procNodes := l }

variable {g : RefGraph P N R K}

variable {n : N} {node : Node P R K} {l : P → List N}

/-- A change of one object, which lists and counts its references as before. -/
theorem Linked.updateNode (h : g.Linked) (hnone : v = none → ∀ r, (g.refs r).map Ref.node ≠ some n)
    (hsome : ∀ node, v = some node →
      (∀ r, r ∈ node.refs ↔ (g.refs r).map Ref.node = some n) ∧ node.refs.Nodup ∧
        node.strongRefs = (node.refs.countP g.isStrong : ℕ)) :
    Linked { g with nodes := update g.nodes n v, procNodes := l } := by
  refine ⟨?_, ?_, ?_, ?_⟩
  · intro r m hr
    simp only [update_apply]
    split_ifs with hm
    · cases v with
      | none => exact absurd hr (hm ▸ hnone rfl r)
      | some node => rfl
    · exact h.node_isSome r m hr
  · intro m node r
    have := h.mem_refs m node r
    simp only [update_apply]
    grind
  · intro m node
    have := h.nodup_refs m node
    simp only [update_apply]
    grind
  · intro m node
    change _ → _ = ((node.refs.countP g.isStrong : ℕ) : ℤ)
    have := h.strongRefs_eq m node
    simp only [update_apply]
    grind

/-- An object is no longer owned. -/
theorem Owned.disown (h : g.Owned) (hv : v.bind Node.proc = none)
    (hl : ∀ p, l p = (g.procNodes p).erase n) :
    Owned { g with nodes := update g.nodes n v, procNodes := l } := by
  refine ⟨?_, ?_, ?_⟩
  · intro p m
    have := h.mem_procNodes p m
    have := h.nodup_procNodes p
    simp only [update_apply, hl]
    grind [List.Nodup.mem_erase_iff]
  · intro p
    simp only [hl]
    exact (h.nodup_procNodes p).erase n
  · intro m m' node node' p
    have := h.key_inj m m' node node' p
    simp only [update_apply]
    grind

/-- A change of one object that keeps its owner and its key. -/
theorem Owned.keep (h : g.Owned)
    (hn : g.nodes n = some node) (hnodes : g'.nodes = update g.nodes n (some node'))
    (hprocNodes : g'.procNodes = g.procNodes) (hproc : node'.proc = node.proc)
    (hkey : node'.key = node.key) : g'.Owned := by
  refine ⟨?_, hprocNodes ▸ h.nodup_procNodes, ?_⟩
  · intro p m
    have := h.mem_procNodes p m
    simp only [hprocNodes, hnodes, update_apply]
    grind
  · intro m m' node₁ node₂ p
    have := h.key_inj m m'
    simp only [hnodes, update_apply]
    grind

/-- An object without references can go away. -/
theorem Inv.dropNode (h : g.Inv) (hn : g.nodes n = some node) (hrefs : node.refs = [])
    (hl : ∀ p, l p = (g.procNodes p).erase n) : (g.dropNode n l).Inv := by
  have hne := h.ref_node_ne (n := n) (by simp [hn, hrefs])
  exact ⟨⟨h.mem_refsByDesc, h.mem_refsByNode, h.nodup_refsByDesc, h.nodup_refsByNode, h.desc_inj,
    h.node_inj⟩, h.updateNode (fun _ => hne) (by simp), h.disown rfl hl⟩

/-- An object may lose its owner. -/
theorem Inv.orphan (h : g.Inv) (hn : g.nodes n = some node)
    (hl : ∀ p, l p = (g.procNodes p).erase n) : (g.orphan n node l).Inv := by
  refine ⟨⟨h.mem_refsByDesc, h.mem_refsByNode, h.nodup_refsByDesc, h.nodup_refsByNode, h.desc_inj,
    h.node_inj⟩, h.updateNode (by simp) ?_, h.disown rfl hl⟩
  rintro _ ⟨⟩
  exact ⟨fun r => h.mem_refs n node r hn, h.nodup_refs n node hn, h.strongRefs_eq n node hn⟩

variable [DecidableEq P]

/-- A new object of a process; `l` are then its objects. -/
def newNode (g : RefGraph P N R K) (p : P) (n : N) (key : K) (l : List N) : RefGraph P N R K :=
  { g with
    nodes := update g.nodes n (some ⟨some p, key, [], 0⟩)
    procNodes := update g.procNodes p l }

/-- A new object keeps the invariant. -/
theorem Inv.newNode (h : g.Inv) {p : P} {key : K} {l : List N} (hn : g.nodes n = none)
    (hl : l.Perm (n :: g.procNodes p))
    (hkey : ∀ m node, m ∈ g.procNodes p → g.nodes m = some node → node.key ≠ key) :
    (g.newNode p n key l).Inv := by
  have hne := h.ref_node_ne (n := n) (by simp [hn])
  have hnot : ∀ p, n ∉ g.procNodes p := by
    intro p
    rw [h.mem_procNodes]
    simp [hn]
  refine ⟨⟨h.mem_refsByDesc, h.mem_refsByNode, h.nodup_refsByDesc, h.nodup_refsByNode, h.desc_inj,
    h.node_inj⟩, h.updateNode (by simp) ?_, ⟨?_, ?_, ?_⟩⟩
  · rintro _ ⟨⟩
    exact ⟨fun r => by simpa using hne r, nodup_nil, rfl⟩
  · intro p' m
    have := h.mem_procNodes p' m
    have := hl.mem_iff (a := m)
    simp only [RefGraph.newNode, update_apply]
    grind
  · intro p'
    have := h.nodup_procNodes p'
    simp only [RefGraph.newNode, update_apply]
    grind
  · intro m m' node node' p'
    have := h.key_inj m m' node node' p'
    have := h.mem_procNodes p
    simp only [RefGraph.newNode, update_apply]
    grind

end Nodes

variable {l : List R} {r : R}

/-- The count of a predicate that changes at one element. -/
theorem countP_change [DecidableEq R] {p q : R → Bool} (hl : l.Nodup) (hr : r ∈ l)
    (hpq : ∀ r' ∈ l, r' ≠ r → q r' = p r') :
    l.countP q + (p r).toNat = l.countP p + (q r).toNat := by
  have hrest : (l.erase r).countP q = (l.erase r).countP p := by
    apply countP_congr
    intro r' hr'
    obtain ⟨hne, hmem⟩ := hl.mem_erase_iff.mp hr'
    rw [hpq r' hmem hne]
  rw [(perm_cons_erase hr).countP_eq, (perm_cons_erase hr).countP_eq, countP_cons,
    countP_cons, hrest]
  cases p r <;> cases q r <;> simp

/-- Outside of one reference, an update does not change which are strong. -/
theorem countP_isStrong_update [DecidableEq R] {g : RefGraph P N R K} {ref : Option (Ref P N)}
    (hrefs : g'.refs = update g.refs r ref) (hr : r ∉ l) :
    l.countP g'.isStrong = l.countP g.isStrong := by
  apply countP_congr
  intro r' hr'
  rw [isStrong, isStrong, hrefs, update_of_ne (by rintro rfl; exact hr hr')]

/-- The count of strong references when one of them changes. -/
theorem countP_isStrong_change [DecidableEq R] {g : RefGraph P N R K} (g' : RefGraph P N R K)
    {ref : Ref P N} {ref' : Option (Ref P N)} (hrefs : g'.refs = update g.refs r ref')
    (hr : g.refs r = some ref) (hl : l.Nodup) (hmem : r ∈ l) :
    l.countP g'.isStrong + ref.strong.toNat =
      l.countP g.isStrong + (ref'.any Ref.strong).toNat := by
  have hold : g.isStrong r = ref.strong := by simp [isStrong, hr]
  have hnew : g'.isStrong r = ref'.any Ref.strong := by simp [isStrong, hrefs]
  rw [← hold, ← hnew]
  apply countP_change hl hmem
  intro r' _ hne
  rw [isStrong, isStrong, hrefs, update_of_ne hne]

section Refs

variable [DecidableEq N] [DecidableEq R] {r : R} {node : Node P R K} {n : N} {ref : Ref P N}

/-- A reference becomes strong or stops to be, and the count of its object follows. -/
def setStrong (g : RefGraph P N R K) (r : R) (ref : Ref P N) (node : Node P R K) (strong : Bool) :
    RefGraph P N R K :=
  { g with
    nodes := update g.nodes ref.node
      (some { node with strongRefs := node.strongRefs + strong.toNat - ref.strong.toNat })
    refs := update g.refs r (some { ref with strong := strong }) }

variable {g : RefGraph P N R K}

/-- A change of one reference to an object, which then lists and counts its references. -/
theorem Linked.updateRef (h : g.Linked)
    {v : Option (Ref P N)} (hnodes : g'.nodes = update g.nodes n (some node'))
    (hrefs : g'.refs = update g.refs r v) (hold : ∀ m, (g.refs r).map Ref.node = some m → m = n)
    (hnew : ∀ m, v.map Ref.node = some m → m = n)
    (hmem : ∀ r', r' ∈ node'.refs ↔ (g'.refs r').map Ref.node = some n) (hnodup : node'.refs.Nodup)
    (hcount : node'.strongRefs = (node'.refs.countP g'.isStrong : ℕ)) : g'.Linked := by
  have hother {m : N} {node₁ : Node P R K} (hm : m ≠ n) (hnode₁ : g.nodes m = some node₁) :
      r ∉ node₁.refs := by
    rw [h.mem_refs m node₁ r hnode₁]
    exact fun hr => hm (hold m hr)
  refine ⟨?_, ?_, ?_, ?_⟩
  · intro r' m
    have := h.node_isSome r' m
    simp only [hnodes, hrefs, update_apply]
    grind
  · intro m node₁ r'
    have := h.mem_refs m node₁ r'
    have := hmem r'
    simp only [hnodes, hrefs, update_apply] at this ⊢
    grind
  · intro m node₁
    have := h.nodup_refs m node₁
    simp only [hnodes, update_apply]
    grind
  · intro m node₁ hm
    rw [hnodes] at hm
    by_cases hmn : m = n
    · subst hmn
      rw [update_self] at hm
      obtain rfl := Option.some.inj hm
      exact hcount
    · rw [update_of_ne hmn] at hm
      rw [countP_isStrong_update hrefs (hother hmn hm)]
      exact h.strongRefs_eq m node₁ hm

/-- A change between strong and not strong keeps the invariant. -/
theorem Inv.setStrong (h : g.Inv) (hr : g.refs r = some ref) (hn : g.nodes ref.node = some node)
    (strong : Bool) : (g.setStrong r ref node strong).Inv := by
  have hmem : r ∈ node.refs := (h.mem_refs _ node r hn).mpr (by simp [hr])
  refine ⟨⟨?_, ?_, h.nodup_refsByDesc, h.nodup_refsByNode, ?_, ?_⟩,
    h.updateRef rfl rfl (by simp [hr]) (by simp) (fun r' => ?_) (h.nodup_refs _ node hn) ?_,
    h.keep hn rfl rfl rfl rfl⟩
  · intro p' r'
    have := h.mem_refsByDesc p' r'
    simp only [RefGraph.setStrong, update_apply]
    grind
  · intro p' r'
    have := h.mem_refsByNode p' r'
    simp only [RefGraph.setStrong, update_apply]
    grind
  · intro r₁ r₂ ref₁ ref₂
    have := h.desc_inj r₁ r₂
    simp only [RefGraph.setStrong, update_apply]
    grind
  · intro r₁ r₂ ref₁ ref₂
    have := h.node_inj r₁ r₂
    simp only [RefGraph.setStrong, update_apply]
    grind
  · have := h.mem_refs _ node r' hn
    simp only [RefGraph.setStrong, update_apply]
    grind
  · have hcount := countP_isStrong_change (g.setStrong r ref node strong) rfl hr
      (h.nodup_refs _ node hn) hmem
    have hold := h.strongRefs_eq _ node hn
    simp only [Option.any_some] at hcount
    simp only
    omega

variable [DecidableEq P]

/-- A new reference that is not strong; `l` are then the references of its holder. -/
def newRef (g : RefGraph P N R K) (r : R) (p : P) (n : N) (desc : ℕ) (node : Node P R K)
    (l : List R) : RefGraph P N R K :=
  { g with
    nodes := update g.nodes n (some { node with refs := r :: node.refs })
    refs := update g.refs r (some ⟨p, n, desc, false⟩)
    refsByDesc := update g.refsByDesc p l
    refsByNode := update g.refsByNode p (r :: g.refsByNode p) }

/-- A reference goes away. -/
def dropRef (g : RefGraph P N R K) (r : R) (ref : Ref P N) (node : Node P R K) : RefGraph P N R K :=
  { g with
    nodes := update g.nodes ref.node
      (some { node with
        refs := node.refs.erase r, strongRefs := node.strongRefs - ref.strong.toNat })
    refs := update g.refs r none
    refsByDesc := update g.refsByDesc ref.proc ((g.refsByDesc ref.proc).erase r)
    refsByNode := update g.refsByNode ref.proc ((g.refsByNode ref.proc).erase r) }

/-- A new reference keeps the invariant. -/
theorem Inv.newRef (h : g.Inv) {p : P} {desc : ℕ} (hr : g.refs r = none)
    (hn : g.nodes n = some node) (hl : l.Perm (r :: g.refsByDesc p))
    (hdesc : ∀ r' ref', g.refs r' = some ref' → ref'.proc = p → ref'.desc ≠ desc)
    (hnode : ∀ r' ref', g.refs r' = some ref' → ref'.proc = p → ref'.node ≠ n) :
    (g.newRef r p n desc node l).Inv := by
  have hnot : ∀ p, r ∉ g.refsByDesc p ∧ r ∉ g.refsByNode p := by
    intro p
    rw [h.mem_refsByDesc, h.mem_refsByNode]
    simp [hr]
  have hnot' : r ∉ node.refs := by
    rw [h.mem_refs n node r hn]
    simp [hr]
  refine ⟨⟨?_, ?_, ?_, ?_, ?_, ?_⟩, h.updateRef rfl rfl (by simp [hr]) (by simp) (fun r' => ?_)
    (List.nodup_cons.mpr ⟨hnot', h.nodup_refs n node hn⟩) ?_, h.keep hn rfl rfl rfl rfl⟩
  · intro p' r'
    have := h.mem_refsByDesc p' r'
    simp only [RefGraph.newRef, update_apply]
    grind
  · intro p' r'
    have := h.mem_refsByNode p' r'
    simp only [RefGraph.newRef, update_apply]
    grind
  · intro p'
    have := h.nodup_refsByDesc p'
    simp only [RefGraph.newRef, update_apply]
    grind
  · intro p'
    have := h.nodup_refsByNode p'
    have := hnot p'
    simp only [RefGraph.newRef, update_apply]
    grind
  · intro r₁ r₂ ref₁ ref₂
    have := h.desc_inj r₁ r₂ ref₁ ref₂
    simp only [RefGraph.newRef, update_apply]
    grind
  · intro r₁ r₂ ref₁ ref₂
    have := h.node_inj r₁ r₂ ref₁ ref₂
    simp only [RefGraph.newRef, update_apply]
    grind
  · have := h.mem_refs n node r' hn
    simp only [RefGraph.newRef, update_apply]
    grind
  · have hfalse : (g.newRef r p n desc node l).isStrong r = false := by
      simp [isStrong, RefGraph.newRef]
    rw [countP_cons_of_neg (by simp [hfalse]), countP_isStrong_update rfl hnot']
    exact h.strongRefs_eq n node hn

/-- A reference can go away. -/
theorem Inv.dropRef (h : g.Inv) (hr : g.refs r = some ref) (hn : g.nodes ref.node = some node) :
    (g.dropRef r ref node).Inv := by
  have hmem : r ∈ node.refs := (h.mem_refs _ node r hn).mpr (by simp [hr])
  refine ⟨⟨?_, ?_, ?_, ?_, ?_, ?_⟩, h.updateRef rfl rfl (by simp [hr]) (by simp) (fun r' => ?_)
    ((h.nodup_refs _ node hn).erase r) ?_, h.keep hn rfl rfl rfl rfl⟩
  · intro p' r'
    have := h.mem_refsByDesc p' r'
    have := h.nodup_refsByDesc p'
    simp only [RefGraph.dropRef, update_apply]
    grind [List.Nodup.mem_erase_iff]
  · intro p' r'
    have := h.mem_refsByNode p' r'
    have := h.nodup_refsByNode p'
    simp only [RefGraph.dropRef, update_apply]
    grind [List.Nodup.mem_erase_iff]
  · intro p'
    have := h.nodup_refsByDesc p'
    simp only [RefGraph.dropRef, update_apply]
    grind [List.Nodup.erase]
  · intro p'
    have := h.nodup_refsByNode p'
    simp only [RefGraph.dropRef, update_apply]
    grind [List.Nodup.erase]
  · intro r₁ r₂ ref₁ ref₂
    have := h.desc_inj r₁ r₂
    simp only [RefGraph.dropRef, update_apply]
    grind
  · intro r₁ r₂ ref₁ ref₂
    have := h.node_inj r₁ r₂
    simp only [RefGraph.dropRef, update_apply]
    grind
  · have := h.mem_refs _ node r' hn
    have := h.nodup_refs _ node hn
    simp only [RefGraph.dropRef, update_apply]
    grind [List.Nodup.mem_erase_iff]
  · have hcount := countP_isStrong_change (g.dropRef r ref node) rfl hr
      (h.nodup_refs _ node hn) hmem
    have hfalse : (g.dropRef r ref node).isStrong r = false := by simp [isStrong, RefGraph.dropRef]
    have herase := (perm_cons_erase hmem).countP_eq (g.dropRef r ref node).isStrong
    rw [countP_cons_of_neg (by simp [hfalse])] at herase
    have hold := h.strongRefs_eq _ node hn
    simp only [Option.any_none, Bool.toNat_false] at hcount
    simp only
    omega

end Refs

end RefGraph
