import AndroidKernel.RadixTree.Tags

/-!
# Deletion from a radix tree

`radix_tree_delete` clears the tags of the item, empties its slot and frees the nodes that are left
with nothing, then takes off root nodes that only lead to their first slot.
-/

namespace AndroidKernel.RadixTree

open Function Root Climb

variable {ι : Type} {P : Set ℕ} {h index j : ℕ} {x : ι} {t : Tree ι} {tags f : Fin 2 → Bool}
  {n : Node (Tree ι)} {root root' : Root ι} {m m' : Slab ι}

theorem slotDown_spec (index : ℕ) (ht : Sound P h t tags) : ∃ s, slotDown index h t tags = some s ∧
      ((s.1 = .null ∧ view h t tags index = none) ∨
        ∃ x, s.1 = .item x ∧ view h t tags index = some (x, s.2)) := by
  induction h generalizing P t tags with
  | zero =>
    obtain ⟨rfl, -⟩ | ⟨x, rfl⟩ := ht.zero_cases
    · exact ⟨_, rfl, .inl ⟨rfl, rfl⟩⟩
    · exact ⟨_, rfl, .inr ⟨x, rfl, rfl⟩⟩
  | succ h ih =>
    obtain ⟨rfl, -⟩ | ⟨n, rfl⟩ := ht.succ_cases
    · exact ⟨_, rfl, .inl ⟨rfl, rfl⟩⟩
    · exact ih (ht.node_inv.2.2.1 (offset index h))

theorem clearTag_spec (tag : Fin 2) (hroot : root.Sound) (hview : root.view index = some (x, f)) :
    ∃ root', clearTag index root tag = some root' ∧
      root.Changed index (some (x, update f tag false)) root' := by
  have hle := le_of_view_ne_none (hview ▸ Option.some_ne_none _)
  obtain ⟨s, hs, ⟨-, hnone⟩ | ⟨y, -, hsome⟩⟩ := slotDown_spec index hroot.tree
  · rw [Root.view, if_pos hle, hnone] at hview
    cases hview
  · obtain ⟨rfl, rfl⟩ : x = y ∧ f = s.2 := by
      rw [Root.view, if_pos hle, hsome] at hview
      simpa [eq_comm] using hview
    cases htag : s.2 tag with
    | true =>
      obtain ⟨root', heq, hch⟩ := radixTreeTagClear_spec tag hroot index
      rw [hview, Option.map_some] at hch
      exact ⟨root', by simp [clearTag, hs, htag, heq], hch⟩
    | false =>
      refine ⟨root, by simp [clearTag, hs, htag], hroot, ?_, rfl, rfl, id⟩
      rw [← htag, update_eq_self, ← hview, update_eq_self]

theorem clearTags_spec (hroot : root.Sound) (hview : root.view index = some (x, f)) :
    ∃ root', clearTags index root = some root' ∧ root.Changed index (some (x, untagged)) root' := by
  obtain ⟨root₁, heq₁, h₁⟩ := clearTag_spec 0 hroot hview
  have hview₁ : root₁.view index = some (x, update f 0 false) := by rw [h₁.view, update_self]
  obtain ⟨root₂, heq₂, h₂⟩ := clearTag_spec 1 h₁.sound hview₁
  refine ⟨root₂, ?_, h₂.sound, ?_, h₂.height.trans h₁.height, h₂.nodes.trans h₁.nodes,
    h₂.full ∘ h₁.full⟩
  · simp [clearTags, List.finRange_succ, heq₁, heq₂]
  · have hboth : update (update f 0 false) 1 false = untagged := by
      funext tag
      fin_cases tag <;> rfl
    rw [h₂.view, h₁.view, hboth, update_idem]

namespace Climb

/-- The tree below the slot. -/
def tree : Climb ι → Tree ι
  | .clear _ => .null
  | .ended n => .node n
  | .endedBelow n => .node n

/-- Whether a node waits to be freed. -/
def pending : Climb ι → ℤ
  | .clear (some _) => 1
  | _ => 0

end Climb

/-- What emptying the slot of an index comes to, below some slot above it. -/
structure Removed (P : Set ℕ) (index h : ℕ) (t : Tree ι) (tags : Fin 2 → Bool) (m : Slab ι)
    (r : Climb ι) (m' : Slab ι) : Prop where
  sound : Sound P h r.tree tags
  view : ∀ j, view h r.tree tags j =
    if j ≡ index [MOD 64 ^ h] then none else view h t tags j
  clean : m'.Clean
  held : m'.held + nodes h t = m.held + nodes h r.tree + r.pending
  full : Full h t → Full h r.tree
  toFree : ∀ n, r = .clear (some n) → n.Blank

theorem Slab.Clean.freeNode {r : Option (Node (Tree ι))} (hm : m.Clean)
    (hr : ∀ n, r = some n → n.Blank) :
    (m.freeNode r).Clean ∧ (m.freeNode r).held = m.held - (clear r).pending := by
  cases r with
  | none => exact ⟨hm, by simp [Slab.freeNode, pending]⟩
  | some n => exact hm.nodeFree (fun o _ => (hr n rfl).slots o) fun tag o _ => (hr n rfl).tags tag o

theorem Sound.replace {slot : Tree ι} {o : Fin 64} (hn : Sound P (h + 1) (.node n) tags)
    (hslot : Sound (P ∩ {i | offset i h = o}) h slot (n.tagsAt o))
    (hnull : slot.isNull = (n.slots o).isNull) :
    Sound P (h + 1) (.node (n.setSlot o slot)) tags := by
  have hused := used_setSlot (n := n) (o := o) (t := slot)
  rw [hnull] at hused
  have := hn.setSlot (c := n.count) hslot (by rw [hn.node_inv.2.1]; omega)
  exact this

/-- A node that counts nothing has nothing in it, and nothing in it is tagged. -/
theorem Sound.blank (hn : Sound P (h + 1) (.node n) tags) (hzero : n.count = 0) :
    n.Blank ∧ tags = untagged := by
  have hnull (o : Fin 64) : n.slots o = .null := by
    by_contra ho
    exact used_ne_zero_iff.mpr ⟨o, Tree.isNull_of_ne ho⟩ (hn.node_inv.2.1 ▸ hzero)
  have huntagged (o : Fin 64) : n.tagsAt o = untagged :=
    (hn.node_inv.2.2.1 o).null_tags (by rw [hnull o]; rfl)
  refine ⟨⟨hzero, hnull, fun tag o => congrFun (huntagged o) tag⟩, funext fun tag => ?_⟩
  by_contra htag
  obtain ⟨o, ho⟩ := (hn.node_inv.2.2.2 tag).mp (by simpa [untagged] using htag)
  have := congrFun (huntagged o) tag
  simp [Node.tagsAt, ho, untagged] at this

section

variable {r : Climb ι} (hrem : Removed (P ∩ {i | offset i h = offset index h}) index h
  (n.slots (offset index h)) (n.tagsAt (offset index h)) m r m')
include hrem

/-- The map of the node with what is left in the slot. -/
theorem view_removed (j : ℕ) : view (h + 1) (.node (n.setSlot (offset index h) r.tree)) tags j =
    if j ≡ index [MOD 64 ^ (h + 1)] then none else view (h + 1) (.node n) tags j := by
  simp only [view_setSlot, modEq_succ_iff, hrem.view]
  by_cases ho : offset j h = offset index h
  · simp [ho, view_node]
  · simp [ho]

theorem full_removed (hf : Full (h + 1) (.node n)) (o : Fin 64) :
    Full h ((n.setSlot (offset index h) r.tree).slots o) := by
  by_cases ho : o = offset index h
  · subst ho
    simpa using hrem.full (hf.2 _)
  · simpa [update_of_ne ho] using hf.2 o

variable (ht : Sound P (h + 1) (.node n) tags) (hslot : (n.slots (offset index h)).isNull = false)
include ht hslot

/-- The loop ended below: the node is the old one with another tree in the slot. -/
theorem removed_below {child : Node (Tree ι)} (hchild : r.tree = .node child)
    (hp : r.pending = 0) :
    Removed P index (h + 1) (.node n) tags m
      (.endedBelow (n.setSlot (offset index h) (.node child))) m' := by
  have hnull : r.tree.isNull = (n.slots (offset index h)).isNull := by
    rw [hslot, hchild]
    rfl
  have hnodes := nodes_setSlot (h := h) (n := n) (o := offset index h) (t := r.tree)
  have hheld := hrem.held
  rw [← hchild]
  refine ⟨ht.replace hrem.sound hnull, view_removed hrem, hrem.clean, ?_, fun hf =>
    ⟨⟨offset index h, by simp [hchild, Tree.isNull]⟩, full_removed hrem hf⟩, by simp⟩
  change m'.held + _ = m.held + (nodes (h + 1) (.node (n.setSlot (offset index h) r.tree)) : ℤ) + 0
  omega

/-- The slot is empty now: the node stays, or waits to be freed when it is left with nothing. -/
theorem removed_clear {toFree : Option (Node (Tree ι))} (hr : r = .clear toFree) :
    let n₁ : Node (Tree ι) := { n.setSlot (offset index h) .null with count := n.count - 1 }
    Removed P index (h + 1) (.node n) tags m
      (if n₁.count ≠ 0 then .ended n₁ else .clear (some n₁)) (m'.freeNode toFree) := by
  intro n₁
  subst hr
  obtain ⟨hclean, hfreed⟩ := hrem.clean.freeNode (r := toFree) fun n hn =>
    hrem.toFree n (by rw [hn])
  have hcount := ht.node_inv.2.1
  have hused := used_setSlot (n := n) (o := offset index h) (t := .null)
  have hnodes := nodes_setSlot (h := h) (n := n) (o := offset index h) (t := .null)
  have hheld := hrem.held
  simp only [Climb.tree, hslot, Tree.isNull_null, Bool.not_true, Bool.not_false,
    Bool.toNat_true, Bool.toNat_false, nodes_null] at hused hnodes hheld
  have hn₁used : n.count - 1 = (n.setSlot (offset index h) .null).used := by omega
  have hsound : Sound P (h + 1) (.node n₁) tags := ht.setSlot hrem.sound hn₁used
  have hn₁nodes : nodes (h + 1) (.node n₁) =
      nodes (h + 1) (.node (n.setSlot (offset index h) .null)) := rfl
  by_cases hzero : n₁.count = 0
  · obtain ⟨hblank, htags⟩ := hsound.blank hzero
    rw [if_neg (not_not.mpr hzero)]
    refine ⟨?_, fun j => ?_, hclean, ?_, fun _ => full_null, ?_⟩
    · rw [htags]
      exact .null _ _
    · rw [← view_removed hrem]
      change view (h + 1) .null tags j = view (h + 1) (.node n₁) tags j
      rw [view_null, view_node, hblank.slots, view_null]
    · have hone : nodes (h + 1) (.node n₁) = 1 := by simp [nodes, hblank.slots]
      simp only [Climb.tree, nodes_null, Climb.pending]
      omega
    · rintro _ ⟨⟩
      exact hblank
  · rw [if_pos hzero]
    refine ⟨hsound, view_removed hrem, hclean, ?_, fun hf => ⟨?_, full_removed hrem hf⟩, by simp⟩
    · change (m'.freeNode toFree).held + _ = m.held + (nodes (h + 1) (.node n₁) : ℤ) + 0
      omega
    · exact used_ne_zero_iff.mp (hsound.node_inv.2.1 ▸ hzero)

end

/-- The last loop of `radix_tree_delete`: by induction on the height, following the loop upwards. -/
theorem removeDown_spec (ht : Sound P h t tags) (hm : m.Clean)
    (hview : view h t tags index = some (x, untagged)) :
    ∃ r m', removeDown index h t m = some (r, m') ∧ Removed P index h t tags m r m' := by
  induction h generalizing P t tags with
  | zero =>
    obtain ⟨rfl, -⟩ | ⟨y, rfl⟩ := ht.zero_cases
    · simp at hview
    · obtain ⟨rfl, rfl⟩ : y = x ∧ tags = untagged := by simpa using hview
      refine ⟨.clear none, m, rfl, .null _ _, fun j => ?_, hm, by simp [nodes, Climb.pending],
        ?_, ?_⟩
      · simp [Climb.tree, Nat.modEq_one]
      · exact fun _ => trivial
      · simp
  | succ h ih =>
    obtain ⟨rfl, -⟩ | ⟨n, rfl⟩ := ht.succ_cases
    · simp at hview
    obtain ⟨r, m₁, heq, hrem⟩ := ih (ht.node_inv.2.2.1 (offset index h)) hview
    have hslot : (n.slots (offset index h)).isNull = false :=
      Tree.isNull_of_ne fun hs => by simp [view_node, hs] at hview
    cases r with
    | ended child | endedBelow child =>
      exact ⟨_, m₁, by simp [removeDown, heq], removed_below hrem ht hslot rfl rfl⟩
    | clear toFree =>
      refine ⟨_, m₁.freeNode toFree, ?_, removed_clear hrem ht hslot rfl⟩
      simp only [removeDown, heq, Option.bind_eq_bind, Option.bind_some]

theorem Removed.map {r : Climb ι} (hroot : root.Sound) (hle : index ≤ radixTreeMaxindex root.height)
    (hrem : Removed root.span index root.height root.rnode root.tags m r m') :
    ({ root with rnode := r.tree } : Root ι).Sound ∧
      ({ root with rnode := r.tree } : Root ι).view = update root.view index none :=
  ⟨⟨hroot.height_le, hrem.sound⟩, hroot.view_eq_update hle hrem.view⟩

theorem radixTreeShrink_spec (hroot : root.Sound) (hm : m.Clean)
    (hnull : root.rnode.isNull = false) :
    ∃ height rnode m', radixTreeShrink root.height root.rnode m = some (height, rnode, m') ∧
      Kept root m { root with height := height, rnode := rnode } m' ∧
      (root.Full → { root with height := height, rnode := rnode }.Full) := by
  induction hh : root.height generalizing root m with
  | zero => exact ⟨0, root.rnode, m, rfl, hh ▸ ⟨hroot, hm, rfl, rfl⟩, fun hf => hh ▸ hf⟩
  | succ h ih =>
    have htree := hroot.tree
    rw [hh] at htree
    obtain ⟨hr, -⟩ | ⟨n, hr⟩ := htree.succ_cases
    · simp [hr] at hnull
    rw [hr] at htree
    obtain ⟨-, hcount, hslots, hsummary⟩ := htree.node_inv
    have hstay (heq : radixTreeShrink (h + 1) root.rnode m = some (h + 1, .node n, m)) :
        ∃ height rnode m', radixTreeShrink (h + 1) root.rnode m = some (height, rnode, m') ∧
          Kept root m { root with height := height, rnode := rnode } m' ∧
          (root.Full → { root with height := height, rnode := rnode }.Full) :=
      ⟨h + 1, .node n, m, heq, hh ▸ hr ▸ ⟨hroot, hm, rfl, rfl⟩, fun hf => hh ▸ hr ▸ hf⟩
    by_cases hone : n.count ≠ 1
    · exact hstay (by simp [hr, radixTreeShrink, hone])
    by_cases hfirst : (n.slots 0).isNull = true
    · exact hstay (by simp [hr, radixTreeShrink, hfirst])
    have hlower (i : ℕ) := le_maxindex_iff (i := i) (h := h) (by have := hroot.height_le; omega)
    have hupper (i : ℕ) := le_maxindex_iff (i := i) (h := h + 1) (hh ▸ hroot.height_le)
    -- the first slot is the only one in use
    have hrest (o : Fin 64) (ho : o ≠ 0) : n.slots o = .null := by
      have hused := used_setSlot (n := n) (o := 0) (t := .null)
      simp only [hfirst, Tree.isNull_null, Bool.not_true, Bool.not_false, Bool.toNat_true,
        Bool.toNat_false] at hused
      by_contra hs
      refine absurd ?_ (used_ne_zero_iff.mpr ⟨o, ?_⟩ : (n.setSlot 0 .null).used ≠ 0)
      · omega
      · simp [update_of_ne ho, Tree.isNull_of_ne hs]
    have huntagged (tag : Fin 2) (o : Fin 64) (ho : o ≠ 0) : n.tags tag o = false :=
      congrFun ((hslots o).null_tags (by rw [hrest o ho]; rfl)) tag
    have htags : root.tags = n.tagsAt 0 := by
      funext tag
      refine Bool.eq_iff_iff.mpr ((hsummary tag).trans ⟨?_, fun h0 => ⟨0, h0⟩⟩)
      rintro ⟨o, ho⟩
      by_cases h0 : o = 0
      · exact h0 ▸ ho
      · simp [huntagged tag o h0] at ho
    obtain ⟨hclean, hheld⟩ := hm.nodeFree hrest huntagged
    have hsound : ({ root with height := h, rnode := n.slots 0 } : Root ι).Sound := by
      refine ⟨by have := hroot.height_le; simp only; omega, ?_⟩
      simp only [htags]
      refine (hslots 0).mono fun i hi => ?_
      obtain ⟨hlt, hlt32⟩ := (hupper i).mp (hh ▸ hi.1)
      exact (hlower i).mpr ⟨(offset_eq_zero_iff hlt).mp hi.2, hlt32⟩
    have hview : ({ root with height := h, rnode := n.slots 0 } : Root ι).view = root.view := by
      funext i
      simp only [Root.view, hh, hr, view_node]
      by_cases hi : i ≤ radixTreeMaxindex (h + 1)
      · obtain ⟨hlt, hlt32⟩ := (hupper i).mp hi
        by_cases h0 : offset i h = 0
        · rw [if_pos ((hlower i).mpr ⟨(offset_eq_zero_iff hlt).mp h0, hlt32⟩), if_pos hi, h0, htags]
        · rw [if_pos hi, hrest _ h0, view_null, if_neg fun hle =>
            h0 ((offset_eq_zero_iff hlt).mpr ((hlower i).mp hle).1)]
      · rw [if_neg hi, if_neg fun hle => hi ((hupper i).mpr
          (((hlower i).mp hle).imp_left fun hlt => by omega))]
    have hnodes : root.nodes = nodes h (n.slots 0) + 1 := by
      have hsum := Finset.sum_eq_single (f := fun o => nodes h (n.slots o)) (s := Finset.univ) 0
        (fun o _ ho => by simp [hrest o ho]) (by simp)
      simp only [Root.nodes, hh, hr, nodes, hsum]
      omega
    obtain ⟨height, rnode, m', heq, hkept, hfull⟩ := ih hsound hclean (by simpa using hfirst) rfl
    refine ⟨height, rnode, m', ?_, ⟨hkept.sound, hkept.clean, hkept.view.trans hview, ?_⟩,
      fun hf => hfull ⟨?_, fun hnull => absurd hnull hfirst⟩⟩
    · rw [hr, radixTreeShrink, if_neg hone, if_neg hfirst]
      exact heq
    · have := hkept.held
      simp only [Root.nodes] at this hnodes ⊢
      omega
    · have := hf.tree
      rw [hh, hr] at this
      exact this.2 0

/-- `radix_tree_delete` -/
theorem radixTreeDelete_spec (hroot : root.Sound) (hm : m.Clean) (index : ℕ) :
    ∃ root' m', radixTreeDelete index root m = some ((root.view index).map Prod.fst, root', m') ∧
      root'.Sound ∧ m'.Clean ∧ m'.held + root.nodes = m.held + root'.nodes ∧
      root'.view = update root.view index none ∧ (root.Full → root'.Full) := by
  by_cases hle : index ≤ radixTreeMaxindex root.height
  swap
  · have hview : root.view index = none := if_neg hle
    refine ⟨root, m, by simp [radixTreeDelete, not_le.mp hle, hview], hroot, hm, rfl, ?_, id⟩
    rw [← hview, update_eq_self]
  have hview : root.view index = view root.height root.rnode root.tags index := if_pos hle
  cases hh : root.height with
  | zero =>
    have htree := hroot.tree
    rw [hh] at htree hle
    have hindex : index = 0 := Nat.le_zero.mp hle
    have hsound : ({ root with tags := fun _ => false, rnode := .null } : Root ι).Sound :=
      ⟨hroot.height_le, .null _ _⟩
    have hempty : ({ root with tags := fun _ => false, rnode := .null } : Root ι).view =
        update root.view index none := by
      funext j
      by_cases hj : j = index
      · simp [hj, Root.view]
      · have hgt : ¬j ≤ radixTreeMaxindex 0 := fun h0 => hj ((Nat.le_zero.mp h0).trans hindex.symm)
        simp [Root.view, hh, hgt, update_of_ne hj]
    refine ⟨_, m, ?_, hsound, hm, by simp [Root.nodes, hh, nodes], hempty,
      fun _ => ⟨full_null, fun _ => hh⟩⟩
    obtain ⟨hr, -⟩ | ⟨x, hr⟩ := htree.zero_cases
    all_goals simp [radixTreeDelete, hh, not_lt.mpr hle, hr, hview]
  | succ h =>
    obtain ⟨s, hs, ⟨hnull, hnone⟩ | ⟨x, hitem, hsome⟩⟩ := slotDown_spec index hroot.tree
    · obtain ⟨s₁, s₂⟩ := s
      obtain rfl : s₁ = .null := hnull
      rw [hnone] at hview
      refine ⟨root, m, ?_, hroot, hm, rfl, ?_, id⟩
      · rw [radixTreeDelete, if_neg (not_lt.mpr hle), if_neg (by omega), hs, hview]
        rfl
      · rw [← hview, update_eq_self]
    · obtain ⟨s₁, f⟩ := s
      obtain rfl : s₁ = .item x := hitem
      rw [hsome] at hview
      obtain ⟨root₁, hclear, hch⟩ := clearTags_spec hroot hview
      have hle₁ : index ≤ radixTreeMaxindex root₁.height := hch.height ▸ hle
      have hview₁ : view root₁.height root₁.rnode root₁.tags index = some (x, untagged) := by
        have := congrFun hch.view index
        rwa [update_self, Root.view, if_pos hle₁] at this
      obtain ⟨r, m₁, hremove, hrem⟩ := removeDown_spec hch.sound.tree hm hview₁
      obtain ⟨hsound, hmap⟩ := hrem.map hch.sound hle₁
      rw [hch.view, update_idem] at hmap
      have hstart : radixTreeDelete index root m = deleteEnd x root₁ (r, m₁) := by
        rw [radixTreeDelete, if_neg (not_lt.mpr hle), if_neg (by omega), hs]
        simp [hclear, hremove]
      rw [hstart, hview]
      have hheld := hrem.held
      have hnodes : nodes root₁.height root₁.rnode = root.nodes := hch.nodes
      cases r with
      | clear toFree =>
        obtain ⟨hclean, hfreed⟩ := hrem.clean.freeNode (r := toFree) fun n hn =>
          hrem.toFree n (by rw [hn])
        refine ⟨_, _, rfl, ⟨by simp, .null _ _⟩, hclean, ?_, ?_, fun _ => ⟨full_null, fun _ => rfl⟩⟩
        · simp only [Climb.tree, nodes_null] at hheld
          simp only [Root.nodes, nodes_null] at hnodes ⊢
          omega
        · rw [← hmap]
          funext j
          simp [Root.view, Climb.tree]
      | endedBelow n =>
        refine ⟨_, m₁, rfl, hsound, hrem.clean, ?_, hmap, fun hf =>
          ⟨hrem.full (hch.full hf).tree, fun hnull => by simp at hnull⟩⟩
        change m₁.held + _ = m.held + (nodes root₁.height (Climb.endedBelow n).tree : ℤ)
        simp only [Climb.pending] at hheld
        omega
      | ended n =>
        obtain ⟨height, rnode, m', hshrink, hkept, hfull⟩ := radixTreeShrink_spec hsound hrem.clean
          rfl
        refine ⟨_, m', by simp [deleteEnd, show radixTreeShrink root₁.height (.node n) m₁ = _ from
          hshrink], hkept.sound, hkept.clean, ?_, hkept.view.trans hmap, fun hf => hfull
          ⟨hrem.full (hch.full hf).tree, fun hnull => by simp [Climb.tree] at hnull⟩⟩
        have hkheld := hkept.held
        simp only [Root.nodes, Climb.pending] at hkheld hheld hnodes ⊢
        omega

end AndroidKernel.RadixTree
