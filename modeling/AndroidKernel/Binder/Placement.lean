import AndroidKernel.Binder.CommandCases
import AndroidKernel.Binder.Frames

/-!
# Where nodes, references and their work belong

Nodes and references belong to processes that are there, and the work of a node is only queued
where its owner reads it. The processes and the places where a process reads are parameters here:
the functions on objects do not change them.
-/

namespace AndroidKernel.Binder

open Queues Except Heap

namespace Objs

/-- The owner of a node that is there. -/
def owner (s : Objs) (n : Id) : Option Id := (s.nodes.cell n).bind Node.proc

/-- The holder of a reference that is there. -/
def holder (s : Objs) (r : Id) : Option Id := (s.refs.cell r).map Ref.proc

/-- Nodes, references and node work belong to processes that are there: `live` says which are,
and `reads` where each of them reads its work. -/
structure Placed (live : Id → Prop) (reads : Id → Queue → Prop) (s : Objs) : Prop where
  owner_live : ∀ n p, s.owner n = some p → live p
  holder_live : ∀ r p, s.holder r = some p → live p
  node_work : ∀ n q, s.works.home (.node n) = some q → ∃ p, s.owner n = some p ∧ reads p q
  async_work : s.AsyncTransactions

/-- What a function on objects may do so that everything stays where it belongs. -/
structure Keeps (live : Id → Prop) (reads : Id → Queue → Prop) (s s' : Objs) : Prop where
  owner : ∀ n p, s'.owner n = some p → s.owner n = some p ∨ live p
  holder : ∀ r p, s'.holder r = some p → s.holder r = some p ∨ live p
  node_work : ∀ n q, s'.works.home (.node n) = some q →
    s.works.home (.node n) = some q ∧ s'.owner n = s.owner n ∨ ∃ p, s'.owner n = some p ∧ reads p q
  async_work : ∀ w n, s'.works.home w = some (.async n) → s.works.home w = some (.async n)

variable {live : Id → Prop} {reads : Id → Queue → Prop} {s s' t : Objs} {n r p : Id}
  {node node' : Node} {ref ref' : Ref}

theorem Placed.keeps (h : s.Placed live reads) (hkeeps : s.Keeps live reads s') :
    s'.Placed live reads where
  owner_live n p hp := (hkeeps.owner n p hp).elim (h.owner_live n p) id
  holder_live r p hp := (hkeeps.holder r p hp).elim (h.holder_live r p) id
  node_work n q hq := by
    rcases hkeeps.node_work n q hq with ⟨hhome, howner⟩ | hnew
    · rw [howner]
      exact h.node_work n q hhome
    · exact hnew
  async_work w n hw := h.async_work w n (hkeeps.async_work w n hw)

namespace Keeps

variable {strong : Bool} {done internal : Bool} {q : Option Queue}

theorem trans (h : s.Keeps live reads t) (h' : t.Keeps live reads s') : s.Keeps live reads s' where
  owner n p hp := (h'.owner n p hp).elim (h.owner n p) .inr
  holder r p hp := (h'.holder r p hp).elim (h.holder r p) .inr
  node_work n q hq := by
    rcases h'.node_work n q hq with ⟨hhome, howner⟩ | hnew
    · rw [howner]
      exact h.node_work n q hhome
    · exact .inr hnew
  async_work w n hw := h.async_work w n (h'.async_work w n hw)

/-- Nothing changes but the work lists: node work stays or leaves them, and no work is put on
the list of a node. -/
theorem of_works (howner : ∀ n, s'.owner n = s.owner n) (hholder : ∀ r, s'.holder r = s.holder r)
    (hworks : Moves (fun w q => (∀ m, q ≠ some (.async m)) ∧
      ∀ n, w = .node n → ∀ q', q = some q' → ∃ p, s.owner n = some p ∧ reads p q')
      s.works s'.works) : s.Keeps live reads s' where
  owner n p hp := .inl ((howner n).symm.trans hp)
  holder r p hp := .inl ((hholder r).symm.trans hp)
  node_work n q hq := by
    rcases hworks.home_cases (.node n) with hhome | ⟨-, hmove⟩
    · exact .inl ⟨hhome.symm.trans hq, howner n⟩
    · rw [howner]
      exact .inr (hmove n rfl q hq)
  async_work w n hw := by
    rcases hworks.home_cases w with hhome | ⟨hmove, -⟩
    · exact hhome.symm.trans hw
    · exact absurd hw (hmove n)

theorem refl (s : Objs) : s.Keeps live reads s := of_works (fun _ => rfl) (fun _ => rfl) (.refl _)

theorem owner_setNode (hnode : s.nodes.cell n = some node) (hproc : node'.proc = node.proc)
    (m : Id) : (s.setNode n node').owner m = s.owner m := by
  simp only [Objs.owner, setNode, cell_modify]
  split_ifs with hm
  · simp [hm, hnode, hproc]
  · rfl

theorem holder_setRef (href : s.refs.cell r = some ref) (hproc : ref'.proc = ref.proc) (i : Id) :
    (s.setRef r ref').holder i = s.holder i := by
  simp only [Objs.holder, setRef, cell_modify]
  split_ifs with hi
  · simp [hi, href, hproc]
  · rfl

theorem setNode (hnode : s.nodes.cell n = some node) (hproc : node'.proc = node.proc) :
    s.Keeps live reads (s.setNode n node') :=
  of_works (owner_setNode hnode hproc) (fun _ => rfl) (.refl _)

theorem setRef (href : s.refs.cell r = some ref) (hproc : ref'.proc = ref.proc) :
    s.Keeps live reads (s.setRef r ref') :=
  of_works (fun _ => rfl) (holder_setRef href hproc) (.refl _)

theorem incCount_proc (h : node.incCount strong internal = .ok node') : node'.proc = node.proc := by
  cases strong <;> cases internal
  · obtain ⟨c, -, rfl⟩ := of_map h
    rfl
  · cases h
    rfl
  all_goals
    obtain ⟨c, -, rfl⟩ := of_map h
    rfl

theorem decCount_proc (node : Node) (strong internal : Bool) :
    (node.decCount strong internal).proc = node.proc := by
  cases strong <;> cases internal <;> rfl

theorem incNode
    (hq : ∀ q', q = some q' → (∀ m, q' ≠ .async m) ∧ ∃ p, s.owner n = some p ∧ reads p q')
    (h : IncNode s n strong internal q done s') : s.Keeps live reads s' := by
  cases h with
  | refused => exact .refl _
  | counted hnode hcount => exact .setNode hnode (incCount_proc hcount)
  | queued hnode hcount hq' =>
    obtain ⟨hasync, p, howner, hreads⟩ := hq _ hq'
    refine of_works (owner_setNode hnode (incCount_proc hcount)) (fun _ => rfl)
      (.addTail (.refl _) ⟨by simpa using hasync, ?_⟩)
    rintro m ⟨⟩ q ⟨⟩
    exact ⟨p, howner, hreads⟩

theorem nodeChange (hreads : ∀ p, reads p (.proc p)) (hnode : s.nodes.cell n = some node)
    (hproc : node'.proc = node.proc) (h : NodeChange s n node' s') : s.Keeps live reads s' := by
  have hmoves : ∀ w q, nodeMoves n node'.proc w q → (∀ m, q ≠ some (.async m)) ∧
      ∀ m, w = .node m → ∀ q', q = some q' → ∃ p, s.owner m = some p ∧ reads p q' := by
    rintro w q ⟨rfl, hq⟩
    constructor
    · rintro m rfl
      obtain ⟨p, -, hp⟩ := hq _ rfl
      cases hp
    · rintro m ⟨⟩ q' rfl
      obtain ⟨p, howner, rfl⟩ := hq q' rfl
      exact ⟨p, by simp [Objs.owner, hnode, ← hproc, howner], hreads p⟩
  cases h with
  | kept hworks => exact of_works (owner_setNode hnode hproc) (fun _ => rfl) (hworks.mono hmoves)
  | @freed works hworks hhome =>
    have howner : ∀ m, m ≠ n → { s.freeNode n node' with works := works }.owner m = s.owner m := by
      intro m hm
      simp [Objs.owner, freeNode, cell_free, hm]
    refine ⟨fun m p hp => ?_, fun r p hp => .inl hp, fun m q hq => ?_, fun w m hw => ?_⟩
    · by_cases hm : m = n
      · simp [hm, Objs.owner, freeNode] at hp
      · exact .inl ((howner m hm).symm.trans hp)
    · by_cases hm : m = n
      · rw [hm, hhome] at hq
        cases hq
      · rcases hworks.home_cases (.node m) with hsame | ⟨heq, -⟩
        · exact .inl ⟨hsame.symm.trans hq, howner m hm⟩
        · cases heq
          exact absurd rfl hm
    · rcases hworks.home_cases w with hsame | hmove
      · exact hsame.symm.trans hw
      · exact absurd hw ((hmoves _ _ hmove).1 m)

theorem getRef {alloc : Bool} {found : Option Id} (hlive : live p)
    (h : GetRef s p n alloc found s') : s.Keeps live reads s' := by
  cases h with
  | found | noMemory => exact .refl _
  | @created node _ hnode _ =>
    have hset : s.Keeps live reads (s.setNode n { node with refs := s.refs.next :: node.refs }) :=
      .setNode hnode rfl
    refine hset.trans ⟨fun m p hp => .inl hp, fun r p' hp => ?_, fun m q hq => .inl ⟨hq, rfl⟩,
      fun w m hw => hw⟩
    simp only [Objs.holder, addRef, cell_alloc] at hp
    split_ifs at hp with hr
    · cases hp
      exact .inr hlive
    · exact .inl hp

theorem count_proc (ref : Ref) (strong : Bool) (count : ℕ) :
    (ref.withCount strong count).proc = ref.proc := by
  cases strong <;> rfl

theorem incRef (href : s.refs.cell r = some ref)
    (hq : ∀ q', q = some q' → (∀ m, q' ≠ .async m) ∧ ∃ p, s.owner ref.node = some p ∧ reads p q')
    (h : IncRef s r strong q done s') : s.Keeps live reads s' := by
  cases h with
  | refused href' hzero hinc =>
    cases href.symm.trans href'
    exact .incNode hq hinc
  | @first ref' t href' hzero hinc =>
    cases href.symm.trans href'
    have hcell : t.refs.cell r = some ref := by
      cases hinc <;> exact href
    exact (Keeps.incNode hq hinc).trans (.setRef hcell (count_proc _ _ _))
  | again href' => exact .setRef href' (count_proc _ _ _)

theorem forgetRef (s : Objs) (r : Id) (ref : Ref) : s.Keeps live reads (s.forgetRef r ref) := by
  refine ⟨fun m p hp => .inl hp, fun i p hp => ?_, fun m q hq => ?_, fun w m hw => ?_⟩
  · simp only [Objs.holder, Objs.forgetRef, cell_free] at hp
    split_ifs at hp
    · cases hp
    · exact .inl hp
  · refine .inl ⟨?_, rfl⟩
    cases hdeath : ref.death <;> simpa [Objs.forgetRef, hdeath, home_del] using hq
  · cases hdeath : ref.death with
    | none => simpa [Objs.forgetRef, hdeath] using hw
    | some d =>
      simp only [Objs.forgetRef, hdeath, home_del] at hw
      split_ifs at hw
      exact hw

section

variable (hreads : ∀ p, reads p (.proc p))
include hreads

theorem deleteRef (h : DeleteRef s r s') : s.Keeps live reads s' := by
  cases h with
  | mk href hnode hchange =>
    refine (Keeps.nodeChange hreads hnode ?_ hchange).trans (.forgetRef _ _ _)
    rfl

theorem lowerRef (href : s.refs.cell r = some ref) (h : LowerRef s r ref strong s') :
    s.Keeps live reads s' := by
  cases h with
  | quiet => exact .setRef href (count_proc _ _ _)
  | last _ _ hnode hchange =>
    refine (Keeps.setRef href ?_).trans (.nodeChange hreads hnode (decCount_proc _ _ _) hchange)
    rfl

theorem decRef (h : DecRef s r strong s') : s.Keeps live reads s' := by
  cases h with
  | zero => exact .refl _
  | lowered href _ hlower => exact .lowerRef hreads href hlower
  | deleted href _ _ hlower hdelete =>
    exact (Keeps.lowerRef hreads href hlower).trans (.deleteRef hreads hdelete)

end

end Keeps

end Objs

end AndroidKernel.Binder
