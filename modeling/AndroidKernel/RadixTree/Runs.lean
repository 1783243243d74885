import AndroidKernel.RadixTree.Delete

/-!
# Runs of a radix tree

Over every sequence of calls the tree is a finite map with tags, whatever allocations fail. Only the
nodes that a failed insertion built stay behind: without such a failure a tree with no index has no
node.
-/

namespace AndroidKernel.RadixTree

open Function Root Option

variable {ι : Type} {root root' : Root ι} {i : ℕ}

/-- A radix tree and the slab of its nodes. -/
structure State (ι : Type) where
  root : Root ι
  slab : Slab ι

/-- The calls, each with the index it is for. -/
inductive Call (ι : Type) where
  | insert (index : Fin (2 ^ 32)) (x : ι) (answers : List Answer)
  | delete (index : Fin (2 ^ 32))
  | lookup (index : Fin (2 ^ 32))
  | lookupSlot (index : Fin (2 ^ 32))
  | tagSet (index : Fin (2 ^ 32)) (tag : Fin 2)
  | tagClear (index : Fin (2 ^ 32)) (tag : Fin 2)
  | tagGet (index : Fin (2 ^ 32)) (tag : Fin 2)
  | tagged (tag : Fin 2)

/-- What a call returns. -/
inductive Reply (ι : Type) where
  | error (e : ℤ)
  | item (x : Option ι)
  | slot (way : Option (List (Fin 64)))
  | bit (b : Bool)
  deriving DecidableEq

/-- The call failed for want of memory. -/
def Reply.isNomem : Reply ι → Bool
  | .error e => decide (e = enomem)
  | _ => false

/-- `INIT_RADIX_TREE` -/
def Root.empty : Root ι := ⟨0, .null, fun _ => false⟩

/-- A call on a tree; `none` is a `BUG_ON`. -/
def State.step (s : State ι) : Call ι → Option (State ι × Reply ι)
  | .insert index x answers =>
    (radixTreeInsert index x s.root { s.slab with answers := answers }).map fun r =>
      (⟨r.2.1, r.2.2⟩, .error r.1)
  | .delete index => (radixTreeDelete index s.root s.slab).map fun r => (⟨r.2.1, r.2.2⟩, .item r.1)
  | .lookup index => (radixTreeLookup index s.root).map fun r => (s, .item r)
  | .lookupSlot index => (radixTreeLookupSlot index s.root).map fun r => (s, .slot r)
  | .tagSet index tag =>
    (radixTreeTagSet index tag s.root).map fun r => ({ s with root := r.2 }, .item r.1)
  | .tagClear index tag =>
    (radixTreeTagClear index tag s.root).map fun r => ({ s with root := r.2 }, .item r.1)
  | .tagGet index tag => (radixTreeTagGet index tag s.root).map fun r => (s, .bit r)
  | .tagged tag => some (s, .bit (radixTreeTagged tag s.root))

/-- A tag is only set where there is an item. -/
def State.Possible (s : State ι) : Call ι → Prop
  | .tagSet index _ => ∃ x, radixTreeLookup index s.root = some (some x)
  | _ => True

/-- The states of a tree, from an empty root and a slab of blank nodes. The flag says whether an
insertion has failed for want of memory. -/
inductive Reachable : Bool → State ι → Prop
  | init (slab : Slab ι) (hclean : slab.Clean) (hmade : slab.made = slab.free.length) :
      Reachable false ⟨.empty, slab⟩
  | step {short : Bool} {s s' : State ι} {call : Call ι} {reply : Reply ι} (h : Reachable short s)
      (hcall : s.Possible call) (hstep : s.step call = some (s', reply)) :
      Reachable (short || reply.isNomem) s'

/-- What a call does to the map with tags. -/
def Obeys (root : Root ι) : Call ι → Reply ι → (ℕ → Option (ι × (Fin 2 → Bool))) → Prop
  | .insert index x _, reply, after =>
    (reply = .error eexist ∧ root.view index ≠ none ∧ after = root.view) ∨
    (reply = .error 0 ∧ root.view index = none ∧
      after = update root.view index (some (x, untagged))) ∨
    (reply = .error enomem ∧ root.view index = none ∧ after = root.view)
  | .delete index, reply, after =>
    reply = .item ((root.view index).map Prod.fst) ∧ after = update root.view index none
  | .lookup index, reply, after =>
    reply = .item ((root.view index).map Prod.fst) ∧ after = root.view
  | .lookupSlot index, reply, after => after = root.view ∧ ∃ way, reply = .slot way ∧
    (way = none ↔ root.view index = none) ∧
    ∀ w ∈ way, ∃ x f, root.view index = some (x, f) ∧ root.rnode.read w = .item x
  | .tagSet index tag, reply, after => ∃ x f, root.view index = some (x, f) ∧
    reply = .item (some x) ∧
    after = update root.view index (some (x, update f tag true))
  | .tagClear index tag, reply, after => reply = .item ((root.view index).map Prod.fst) ∧
    after = update root.view index
      ((root.view index).map fun r => (r.1, update r.2 tag false))
  | .tagGet index tag, reply, after =>
    reply = .bit (tagOf tag (root.view index)) ∧ after = root.view
  | .tagged tag, reply, after => after = root.view ∧
    ∃ b, reply = .bit b ∧ (b = true ↔ ∃ i, tagOf tag (root.view i) = true)

/-- What holds of a tree and its slab between calls. -/
structure State.Inv (s : State ι) : Prop where
  sound : s.root.Sound
  clean : s.slab.Clean
  held : s.slab.held = s.root.nodes

theorem State.Inv.step {s : State ι} (h : s.Inv) (call : Call ι) (hcall : s.Possible call) :
    ∃ s' reply, s.step call = some (s', reply) ∧ s'.Inv ∧ Obeys s.root call reply s'.root.view ∧
      (s.root.Full → reply.isNomem = false → s'.root.Full) := by
  cases call with
  | insert index x answers =>
    obtain ⟨error, root', m', heq, hins, hfull⟩ := radixTreeInsert_spec
      (m := { s.slab with answers := answers }) x h.sound h.clean index.isLt
    refine ⟨⟨root', m'⟩, .error error, by simp [State.step, heq], ⟨hins.sound, hins.clean, ?_⟩, ?_,
      fun hf hne => hfull hf (by simpa [Reply.isNomem] using hne)⟩
    · have hheld := hins.held
      have hbefore := h.held
      simp only [Slab.held] at hheld hbefore ⊢
      omega
    · simpa [Obeys] using hins.outcome
  | delete index =>
    obtain ⟨root', m', heq, hsound, hclean, hheld, hview, hfull⟩ := radixTreeDelete_spec h.sound
      h.clean index
    refine ⟨⟨root', m'⟩, _, by simp [State.step, heq], ⟨hsound, hclean, ?_⟩, ⟨rfl, hview⟩,
      fun hf _ => hfull hf⟩
    have hbefore := h.held
    simp only
    omega
  | lookup index =>
    obtain ⟨r, heq, hview, -⟩ := lookupElement_spec h.sound index
    exact ⟨s, .item (r.map Prod.snd), by simp [State.step, radixTreeLookup, heq], h,
      ⟨by rw [hview], rfl⟩, fun hf _ => hf⟩
  | lookupSlot index =>
    obtain ⟨r, heq, hview, hway⟩ := lookupElement_spec h.sound index
    refine ⟨s, .slot (r.map Prod.fst), by simp [State.step, radixTreeLookupSlot, heq], h,
      ⟨rfl, _, rfl, ?_, ?_⟩, fun hf _ => hf⟩
    · cases r <;> cases hv : s.root.view index <;> simp_all
    · intro w hw
      obtain ⟨p, hp, rfl⟩ := map_eq_some_iff.mp hw
      cases hv : s.root.view index with
      | none => simp [hv, hp] at hview
      | some v =>
        have hitem : p.2 = v.1 := by simpa [hv, hp] using hview
        exact ⟨v.1, v.2, rfl, hitem ▸ hway p hp⟩
  | tagSet index tag =>
    obtain ⟨x, hx⟩ := hcall
    obtain ⟨r, heq, hview, -⟩ := lookupElement_spec h.sound index
    have hr : r.map Prod.snd = some x := by simpa [radixTreeLookup, heq] using hx
    obtain ⟨v, hv, -⟩ := map_eq_some_iff.mp (hview.symm.trans hr)
    obtain ⟨root', heq', hch⟩ := radixTreeTagSet_spec tag h.sound hv
    exact ⟨{ s with root := root' }, _, by simp [State.step, heq'],
      ⟨hch.sound, h.clean, by rw [hch.nodes]; exact h.held⟩, ⟨v.1, v.2, hv, rfl, hch.view⟩,
      fun hf _ => hch.full hf⟩
  | tagClear index tag =>
    obtain ⟨root', heq, hch⟩ := radixTreeTagClear_spec tag h.sound index
    exact ⟨{ s with root := root' }, _, by simp [State.step, heq],
      ⟨hch.sound, h.clean, by rw [hch.nodes]; exact h.held⟩, ⟨rfl, hch.view⟩,
      fun hf _ => hch.full hf⟩
  | tagGet index tag =>
    exact ⟨s, _, by simp [State.step, radixTreeTagGet_spec tag h.sound index], h, ⟨rfl, rfl⟩,
      fun hf _ => hf⟩
  | tagged tag =>
    exact ⟨s, _, rfl, h, ⟨rfl, _, rfl, radixTreeTagged_iff tag h.sound⟩, fun hf _ => hf⟩

/-- The invariant holds in every state; without a failed insertion every node has something below
it. -/
theorem Reachable.inv {short : Bool} {s : State ι} (h : Reachable short s) :
    s.Inv ∧ (short = false → s.root.Full) := by
  induction h with
  | init slab hclean hmade =>
    refine ⟨⟨⟨by simp [Root.empty], .null _ _⟩, hclean, ?_⟩, fun _ => ⟨trivial, fun _ => rfl⟩⟩
    simp [Slab.held, hmade, Root.nodes, Root.empty]
  | step _ hcall hstep ih =>
    obtain ⟨s', reply, heq, hinv, -, hfull⟩ := ih.1.step _ hcall
    rw [hstep] at heq
    obtain ⟨rfl, rfl⟩ : _ = s' ∧ _ = reply := by simpa using heq
    refine ⟨hinv, fun hshort => ?_⟩
    obtain ⟨hbefore, hreply⟩ := Bool.or_eq_false_iff.mp hshort
    exact hfull (ih.2 hbefore) hreply

/-- The map of a tree. -/
def Root.items (root : Root ι) (i : ℕ) : Option ι := (root.view i).map Prod.fst

/-- What a call does to the map. -/
def MapStep (root : Root ι) : Call ι → Reply ι → (ℕ → Option ι) → Prop
  | .insert index x _, reply, after =>
    (reply = .error eexist ∧ root.items index ≠ none ∧ after = root.items) ∨
    (reply = .error 0 ∧ root.items index = none ∧ after = update root.items index (some x)) ∨
    (reply = .error enomem ∧ root.items index = none ∧ after = root.items)
  | .delete index, reply, after =>
    reply = .item (root.items index) ∧ after = update root.items index none
  | .lookup index, reply, after => reply = .item (root.items index) ∧ after = root.items
  | .lookupSlot index, reply, after => after = root.items ∧ ∃ way, reply = .slot way ∧
    (way = none ↔ root.items index = none) ∧
    ∀ w ∈ way, ∃ x, root.items index = some x ∧ root.rnode.read w = .item x
  | _, _, after => after = root.items

theorem Root.items_eq_none : root.items i = none ↔ root.view i = none := by simp [items]

theorem items_of_update {v : Option (ι × (Fin 2 → Bool))} (h : root'.view = update root.view i v) :
    root'.items = update root.items i (v.map Prod.fst) := by
  funext j
  by_cases hj : j = i
  · subst hj
    simp [items, h]
  · simp [items, h, update_of_ne hj]

theorem items_of_view (h : root'.view = root.view) : root'.items = root.items := by
  funext j
  simp only [items, h]

theorem Obeys.mapStep {call : Call ι} {reply : Reply ι} (h : Obeys root call reply root'.view) :
    MapStep root call reply root'.items := by
  cases call with
  | insert index x answers =>
    rcases h with ⟨rfl, hne, hview⟩ | ⟨rfl, hnone, hview⟩ | ⟨rfl, hnone, hview⟩
    · exact .inl ⟨rfl, items_eq_none.not.mpr hne, items_of_view hview⟩
    · exact .inr (.inl ⟨rfl, items_eq_none.mpr hnone, items_of_update hview⟩)
    · exact .inr (.inr ⟨rfl, items_eq_none.mpr hnone, items_of_view hview⟩)
  | delete index => exact ⟨h.1, items_of_update h.2⟩
  | lookup index => exact ⟨h.1, items_of_view h.2⟩
  | lookupSlot index =>
    obtain ⟨hview, way, hreply, hnone, hway⟩ := h
    refine ⟨items_of_view hview, way, hreply, hnone.trans items_eq_none.symm, fun w hw => ?_⟩
    obtain ⟨x, f, hv, hread⟩ := hway w hw
    exact ⟨x, by simp [items, hv], hread⟩
  | tagSet index tag =>
    obtain ⟨x, f, hv, -, hview⟩ := h
    have hx : root.items index = some x := by simp [items, hv]
    change root'.items = root.items
    rw [items_of_update hview, map_some, ← hx, update_eq_self]
  | tagClear index tag =>
    have hx : Option.map Prod.fst ((root.view index).map fun r =>
        (r.1, update r.2 tag false)) = root.items index := by
      simp [items, comp_def]
    change root'.items = root.items
    rw [items_of_update h.2, hx, update_eq_self]
  | tagGet index tag => exact items_of_view h.2
  | tagged tag => exact items_of_view h.1

/-- In every state, each call returns and does what it should to the map, whatever allocations fail:
an insertion gives `-EEXIST` just when the index is present, adds just its binding, or gives
`-ENOMEM` and leaves the map. As long as no insertion has failed so, a tree without any index is
empty, and all the nodes are back in the slab. -/
theorem radix_tree_refines_map {short : Bool} {s : State ι} (h : Reachable short s) (call : Call ι)
    (hcall : s.Possible call) :
    (∃ s' reply, s.step call = some (s', reply) ∧ MapStep s.root call reply s'.root.items) ∧
      (short = false → (∀ i : Fin (2 ^ 32), s.root.items i = none) →
        s.root.rnode.isNull = true ∧ s.root.height = 0 ∧ s.slab.free.length = s.slab.made) := by
  obtain ⟨hinv, hfull⟩ := h.inv
  constructor
  · obtain ⟨s', reply, heq, -, hobeys, -⟩ := hinv.step call hcall
    exact ⟨s', reply, heq, hobeys.mapStep⟩
  · intro hshort hempty
    have hf := hfull hshort
    have hnull : s.root.rnode.isNull = true := by
      by_contra hnot
      obtain ⟨i, hi, hview⟩ := hinv.sound.tree.exists_view hf.tree (by simpa using hnot)
      have hlt : i < 2 ^ 32 := ((le_maxindex_iff hinv.sound.height_le).mp hi).2
      exact hview ((if_pos hi).symm.trans (items_eq_none.mp (hempty ⟨i, hlt⟩)))
    refine ⟨hnull, hf.height hnull, ?_⟩
    have hheld := hinv.held
    have hnodes : s.root.nodes = 0 := by
      cases hr : s.root.rnode with
      | null => simp [Root.nodes, hr]
      | item | node => simp [hr] at hnull
    simp only [Slab.held, hnodes] at hheld
    omega

/-- A sequence of calls, with what they return. -/
def State.run (s : State ι) : List (Call ι) → Option (State ι × List (Reply ι))
  | [] => some (s, [])
  | call :: calls => do
    let (s, reply) ← s.step call
    let (s, replies) ← State.run s calls
    some (s, reply :: replies)

/-- An empty tree, before the slab has made any node. -/
def State.empty : State ι := ⟨.empty, ⟨[], 0, []⟩⟩

theorem Reachable.empty : Reachable false (State.empty : State ι) :=
  .init _ (by simp [Slab.Clean]) rfl

/-- The state after a sequence of calls that set no tag is reached. -/
theorem Reachable.run {short : Bool} {s s' : State ι} {calls : List (Call ι)}
    {replies : List (Reply ι)} (h : Reachable short s)
    (hcalls : ∀ call ∈ calls, ∀ s : State ι, s.Possible call)
    (hrun : s.run calls = some (s', replies)) :
    Reachable (short || replies.any Reply.isNomem) s' := by
  induction calls generalizing short s replies with
  | nil =>
    cases hrun
    simpa using h
  | cons call calls ih =>
    simp only [State.run, bind_eq_bind, bind_eq_some_iff, some.injEq, Prod.mk.injEq] at hrun
    obtain ⟨⟨s₁, reply⟩, hstep, ⟨s₂, rest⟩, hrest, rfl, rfl⟩ := hrun
    have hreach := ih (h.step (hcalls call List.mem_cons_self s) hstep)
      (fun c hc => hcalls c (List.mem_cons_of_mem _ hc)) hrest
    rwa [Bool.or_assoc] at hreach

/-- The index 64 is inserted above the index 0 and deleted, with which the tree shrinks to one item
and its two nodes are back in the slab. Then the last index is deleted. -/
theorem radix_tree_refines_map_shrunk : ∃ s : State ℕ,
    State.empty.run [.insert 0 7 [], .insert 64 8 [.fresh, .fresh, .fresh], .delete 64] =
      some (s, [.error 0, .error 0, .item (some 8)]) ∧
    s.root.height = 0 ∧ s.slab.free.length = s.slab.made ∧ s.slab.made = 3 ∧
    ∃ s' reply, s.step (.delete 0) = some (s', reply) ∧
      MapStep s.root (.delete 0) reply s'.root.items := by
  have hfacts : ((State.empty : State ℕ).run [.insert 0 7 [],
      .insert 64 8 [.fresh, .fresh, .fresh], .delete 64]).map
        (fun p => (p.2, p.1.root.height, p.1.slab.free.length, p.1.slab.made)) =
      some ([.error 0, .error 0, .item (some 8)], 0, 3, 3) := by
    decide +kernel
  obtain ⟨⟨s, replies⟩, hrun, heq⟩ := map_eq_some_iff.mp hfacts
  simp only [Prod.mk.injEq] at heq
  obtain ⟨rfl, hheight, hfree, hmade⟩ := heq
  have hreach := Reachable.empty.run (by simp [State.Possible]) hrun
  exact ⟨s, hrun, hheight, hfree.trans hmade.symm, hmade,
    (radix_tree_refines_map hreach (.delete 0) trivial).1⟩

/-- An insertion of the index 4096 fails at its fifth node, when the fourth is in the tree. Once the
only index is deleted the map is empty, but two of the four nodes are not back in the slab. -/
theorem nodes_left_after_failed_insert : ∃ s : State ℕ,
    State.empty.run [.insert 0 7 [], .insert 4096 8 [.fresh, .fresh, .fresh, .fresh, .fail],
      .delete 0] = some (s, [.error 0, .error enomem, .item (some 7)]) ∧
    (∀ i, s.root.items i = none) ∧ s.root.rnode.isNull = false ∧ s.slab.free.length = 2 ∧
    s.slab.made = 4 := by
  have hinv : (State.empty : State ℕ).Inv := Reachable.empty.inv.1
  obtain ⟨s₁, r₁, h₁, hinv₁, hobeys₁, -⟩ := hinv.step (.insert 0 7 []) trivial
  obtain ⟨s₂, r₂, h₂, hinv₂, hobeys₂, -⟩ := hinv₁.step
    (.insert 4096 8 [.fresh, .fresh, .fresh, .fresh, .fail]) trivial
  obtain ⟨s₃, r₃, h₃, -, hobeys₃, -⟩ := hinv₂.step (.delete 0) trivial
  have hrun : (State.empty : State ℕ).run [.insert 0 7 [],
      .insert 4096 8 [.fresh, .fresh, .fresh, .fresh, .fail], .delete 0] =
        some (s₃, [r₁, r₂, r₃]) := by
    simp [State.run, h₁, h₂, h₃]
  have hfacts : ((State.empty : State ℕ).run [.insert 0 7 [],
      .insert 4096 8 [.fresh, .fresh, .fresh, .fresh, .fail], .delete 0]).map
        (fun p => (p.2, p.1.root.rnode.isNull, p.1.slab.free.length, p.1.slab.made)) =
      some ([.error 0, .error enomem, .item (some 7)], false, 2, 4) := by
    decide +kernel
  rw [hrun] at hfacts
  simp only [map_some, some.injEq, Prod.mk.injEq, List.cons.injEq] at hfacts
  obtain ⟨⟨rfl, rfl, rfl, -⟩, hnull, hfree, hmade⟩ := hfacts
  refine ⟨s₃, hrun, fun i => ?_, hnull, hfree, hmade⟩
  -- the map is that of the empty tree with the index 0 put in and taken out
  have hitems₀ : (State.empty : State ℕ).root.items = fun _ => none := by
    funext i
    simp [items, Root.view, State.empty, Root.empty]
  have hitems₁ : s₁.root.items =
      update (State.empty : State ℕ).root.items (0 : Fin (2 ^ 32)) (some 7) := by
    rcases hobeys₁.mapStep with ⟨h, -⟩ | ⟨-, -, h⟩ | ⟨h, -⟩
    · exact absurd h (by decide)
    · exact h
    · exact absurd h (by decide)
  have hitems₂ : s₂.root.items = s₁.root.items := by
    rcases hobeys₂.mapStep with ⟨h, -⟩ | ⟨h, -⟩ | ⟨-, -, h⟩
    · exact absurd h (by decide)
    · exact absurd h (by decide)
    · exact h
  have hitems₃ : s₃.root.items = update s₂.root.items (0 : Fin (2 ^ 32)) none := hobeys₃.mapStep.2
  rw [hitems₃, hitems₂, hitems₁, hitems₀, update_idem]
  simp [update_apply]

/-- The indices that lead through the slots of a way, from a tree of the height. -/
def OnWay : ℕ → List (Fin 64) → ℕ → Prop
  | h + 1, o :: way, i => offset i h = o ∧ OnWay h way i
  | _, [], _ => True
  | 0, _ :: _, _ => False

@[simp] theorem onWay_nil {h : ℕ} : OnWay h [] i := by cases h <;> trivial

theorem Sound.tag_iff_of_read {P : Set ℕ} {h : ℕ} {t : Tree ι} {tags : Fin 2 → Bool}
    {way : List (Fin 64)} {n : Node (Tree ι)} (ht : Sound P h t tags) (hread : t.read way = .node n)
    (tag : Fin 2) (o : Fin 64) : n.tags tag o = true ↔
      ∃ i ∈ P, OnWay h (way ++ [o]) i ∧ tagOf tag (view h t tags i) = true := by
  induction way generalizing P h t tags with
  | nil =>
    obtain rfl : t = .node n := by
      cases t <;> exact hread
    cases ht with
    | node height count slots summary =>
      rw [show n.tags tag o = n.tagsAt o tag from rfl, (slots o).tag_iff]
      constructor
      · rintro ⟨i, ⟨hi, rfl⟩, x, f, hview, hf⟩
        exact ⟨i, hi, ⟨rfl, onWay_nil⟩, tagOf_iff.mpr ⟨x, f, hview, hf⟩⟩
      · rintro ⟨i, hi, ⟨rfl, -⟩, htag⟩
        exact ⟨i, ⟨hi, rfl⟩, tagOf_iff.mp htag⟩
  | cons o' way ih =>
    cases ht with
    | null | item => simp [Tree.read] at hread
    | node height count slots summary =>
      rw [ih (slots o') hread]
      constructor
      · rintro ⟨i, ⟨hi, rfl⟩, hway, htag⟩
        exact ⟨i, hi, ⟨rfl, hway⟩, htag⟩
      · rintro ⟨i, hi, ⟨rfl, hway⟩, htag⟩
        exact ⟨i, ⟨hi, rfl⟩, hway, htag⟩

/-- In every state, each bit of a node and of the root says whether some item that is present below
it has the tag. No call meets a `BUG_ON`, and each does what it should to the items and their tags.
The nodes in the slab hold no item, no count and no tag; so they are all zero exactly if they have
no height, that is, if they were never part of a tree. -/
theorem radix_tree_tags_exact {short : Bool} {s : State ι} (h : Reachable short s) (call : Call ι)
    (hcall : s.Possible call) :
    (∃ s' reply, s.step call = some (s', reply) ∧ Obeys s.root call reply s'.root.view) ∧
      (∀ tag, s.root.tags tag = true ↔ ∃ i, tagOf tag (s.root.view i) = true) ∧
      (∀ way n, s.root.rnode.read way = .node n → ∀ tag o, n.tags tag o = true ↔
        ∃ i, OnWay s.root.height (way ++ [o]) i ∧ tagOf tag (s.root.view i) = true) ∧
      ∀ n ∈ s.slab.free, n.Blank ∧ (n = .zero ↔ n.height = 0) := by
  obtain ⟨hinv, -⟩ := h.inv
  obtain ⟨s', reply, heq, -, hobeys, -⟩ := hinv.step call hcall
  refine ⟨⟨s', reply, heq, hobeys⟩, fun tag => radixTreeTagged_iff tag hinv.sound,
    fun way n hread tag o => ?_, fun n hn => ⟨hinv.clean n hn, (hinv.clean n hn).eq_zero_iff⟩⟩
  rw [hinv.sound.tree.tag_iff_of_read hread]
  constructor
  · rintro ⟨i, hi, hway, htag⟩
    have hview : s.root.view i = view s.root.height s.root.rnode s.root.tags i := if_pos hi
    exact ⟨i, hway, hview ▸ htag⟩
  · rintro ⟨i, hway, htag⟩
    obtain ⟨x, f, hview, -⟩ := tagOf_iff.mp htag
    have hle := le_of_view_ne_none (hview ▸ some_ne_none _)
    rw [Root.view, if_pos hle] at htag
    exact ⟨i, hle, hway, htag⟩

/-- The bit of a slot, if there is a node. -/
def Tree.slotTag (tag : Fin 2) (o : Fin 64) : Tree ι → Bool
  | .node n => n.tags tag o
  | _ => false

/-- Two indices are inserted below two levels, and the first one is tagged: the bits of the root and
of the nodes on its way say so. Then it is deleted. -/
theorem radix_tree_tags_exact_tagged : ∃ (s : State ℕ) (n : Node (Tree ℕ)),
    s.root.tags 0 = true ∧ s.root.rnode.read [0] = .node n ∧ n.tags 0 1 = true ∧
    (∃ i, tagOf 0 (s.root.view i) = true) ∧
    (∃ i, OnWay s.root.height [0, 1] i ∧ tagOf 0 (s.root.view i) = true) ∧
    ∃ s' reply, s.step (.delete 1) = some (s', reply) ∧
      Obeys s.root (.delete 1) reply s'.root.view := by
  have hfacts : ((State.empty : State ℕ).run [.insert 1 7 [.fresh],
      .insert 64 8 [.fresh, .fresh]]).map (fun p => (radixTreeLookup 1 p.1.root,
        (p.1.step (.tagSet 1 0)).map fun r => (r.1.root.tags 0,
          (r.1.root.rnode.read [0]).slotTag 0 1))) = some (some (some 7), some (true, true)) := by
    decide +kernel
  obtain ⟨⟨s, replies⟩, hrun, heq⟩ := map_eq_some_iff.mp hfacts
  simp only [Prod.mk.injEq] at heq
  obtain ⟨hlookup, htag⟩ := heq
  obtain ⟨⟨s', reply⟩, hstep, hbits⟩ := map_eq_some_iff.mp htag
  simp only [Prod.mk.injEq] at hbits
  obtain ⟨hroot, hnode⟩ := hbits
  have hset : s.Possible (.tagSet 1 0) := ⟨7, hlookup⟩
  have hreach := (Reachable.empty.run (by simp [State.Possible]) hrun).step hset hstep
  obtain ⟨hdelete, htags, hnodes, -⟩ := radix_tree_tags_exact hreach (.delete 1) trivial
  cases hread : s'.root.rnode.read [0] with
  | node n =>
    rw [hread] at hnode
    exact ⟨s', n, hroot, hread, hnode, (htags 0).mp hroot, (hnodes [0] n hread 0 1).mp hnode,
      hdelete⟩
  | null | item x =>
    rw [hread] at hnode
    cases hnode

/-- A node goes back to the slab with the height that it had. -/
theorem freed_node_keeps_height :
    ((State.empty : State ℕ).run [.insert 1 7 [.fresh], .delete 1]).map
        (fun p => (p.2, p.1.slab.free.map Node.height)) =
      some ([.error 0, .item (some 7)], [1]) := by
  decide +kernel

end AndroidKernel.RadixTree
