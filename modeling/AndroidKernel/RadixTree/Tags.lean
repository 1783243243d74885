import AndroidKernel.RadixTree.Root

/-!
# Tags

Setting and clearing a tag keeps the bits above an item as they should be: each sums up the bits
below it.
-/

namespace AndroidKernel.RadixTree

open Function Node Root Option

variable {ι : Type} {P : Set ℕ} {h index j : ℕ} {x : ι} {t t' slot : Tree ι} {tags f : Fin 2 → Bool}
  {tag : Fin 2} {n : Node (Tree ι)} {o : Fin 64} {b : Bool} {root root' : Root ι}

theorem Node.putTag_tagsAt (n : Node (Tree ι)) (tag : Fin 2) (o : Fin 64) (b : Bool)
    (o' : Fin 64) : (n.putTag tag o b).tagsAt o' =
      if o' = o then update (n.tagsAt o) tag b else n.tagsAt o' := by
  funext tag'
  by_cases ho : o' = o
  · subst ho
    by_cases htag : tag' = tag <;> simp [tagsAt, putTag_tags, htag]
  · simp [tagsAt, putTag_tags, ho]

/-- A tree is changed below a slot, and the tags of the slot with it. -/
structure Retagged (P : Set ℕ) (h : ℕ) (t t' : Tree ι) (tags' : Fin 2 → Bool) : Prop where
  sound : Sound P h t' tags'
  nodes : nodes h t' = nodes h t
  isNull : t'.isNull = t.isNull
  full : Full h t → Full h t'

theorem view_retag (b : Bool) : view (h + 1) (.node ((n.putTag tag o b).setSlot o t)) tags j =
    if offset j h = o then view h t (update (n.tagsAt o) tag b) j
    else view (h + 1) (.node n) tags j := by
  rw [view_setSlot]
  split_ifs with ho
  · rw [putTag_tagsAt, if_pos rfl]
  · rw [view_node, view_node, putTag_tagsAt, if_neg ho]
    rfl

theorem Retagged.node {tags' : Fin 2 → Bool} (hn : Sound P (h + 1) (.node n) tags)
    (hslot : Retagged (P ∩ {i | offset i h = o}) h (n.slots o) slot
      (update (n.tagsAt o) tag b))
    (hsummary : ∀ tag', tags' tag' = true ↔ ∃ o', (n.putTag tag o b).tags tag' o' = true) :
    Retagged P (h + 1) (.node n) (.node ((n.putTag tag o b).setSlot o slot)) tags' := by
  obtain ⟨height, count, slots, -⟩ := hn.node_inv
  have hused := used_setSlot (n := n.putTag tag o b) (o := o) (t := slot)
  have hnodes := nodes_setSlot (h := h) (n := n.putTag tag o b) (o := o) (t := slot)
  simp only [putTag_slots, hslot.isNull] at hused
  simp only [putTag_slots, hslot.nodes] at hnodes
  refine ⟨.node height (count.trans ?_) (fun o' => ?_) hsummary, Nat.add_right_cancel hnodes, rfl,
    fun hfull => ⟨?_, fun o' => ?_⟩⟩
  · exact (Nat.add_right_cancel hused).symm
  · rw [setSlot_tagsAt, putTag_tagsAt, setSlot_slots]
    by_cases ho : o' = o
    · subst ho
      simpa using hslot.sound
    · simpa [ho] using slots o'
  · obtain ⟨⟨o', ho'⟩, -⟩ := hfull
    by_cases ho : o' = o
    · subst ho
      exact ⟨o', by simpa [hslot.isNull] using ho'⟩
    · exact ⟨o', by simpa [update_of_ne ho] using ho'⟩
  · by_cases ho : o' = o
    · subst ho
      simpa using hslot.full (hfull.2 o')
    · simpa [update_of_ne ho] using hfull.2 o'

/-- `radix_tree_tag_set` below a slot. -/
theorem tagSetDown_spec (tag : Fin 2) (ht : Sound P h t tags)
    (hview : view h t tags index = some (x, f)) :
    ∃ t', tagSetDown index tag h t = some (x, t') ∧ Retagged P h t t' (update tags tag true) ∧
      ∀ j, view h t' (update tags tag true) j =
        if j ≡ index [MOD 64 ^ h] then some (x, update f tag true)
        else view h t tags j := by
  induction h generalizing P t tags with
  | zero =>
    obtain ⟨rfl, -⟩ | ⟨y, rfl⟩ := ht.zero_cases
    · simp at hview
    · obtain ⟨rfl, rfl⟩ : y = x ∧ tags = f := by simpa using hview
      cases ht with
      | item hP =>
        exact ⟨.item y, rfl, ⟨.item hP y _, rfl, rfl, id⟩, fun j => by simp [Nat.modEq_one]⟩
  | succ h ih =>
    obtain ⟨rfl, -⟩ | ⟨n, rfl⟩ := ht.succ_cases
    · simp at hview
    · obtain ⟨slot, heq, hre, hnew⟩ := ih (ht.node_inv.2.2.1 (offset index h)) hview
      refine ⟨_, by simp [tagSetDown, heq], hre.node ht fun tag' => ?_, fun j => ?_⟩
      · simp only [putTag_tags, update_apply]
        by_cases htag : tag' = tag
        · simp only [htag, if_true, true_and, true_iff]
          exact ⟨offset index h, by simp⟩
        · simpa [htag] using ht.node_inv.2.2.2 tag'
      · simp only [view_retag, modEq_succ_iff, hnew]
        by_cases ho : offset j h = offset index h
        · simp [ho, view_node]
        · simp only [ho, if_false, false_and]
          rfl

/-- The tags of a slot once `radix_tree_tag_clear` is done below it. -/
def clearedIf (up : Bool) (tag : Fin 2) (tags : Fin 2 → Bool) : Fin 2 → Bool :=
  if up then update tags tag false else tags

theorem update_tagsAt_self (n : Node (Tree ι)) (o : Fin 64) (tag : Fin 2) :
    update (n.tagsAt o) tag (n.tags tag o) = n.tagsAt o :=
  update_eq_self tag (n.tagsAt o)

theorem Node.putTag_self (n : Node (Tree ι)) (tag : Fin 2) (o : Fin 64) :
    n.putTag tag o (n.tags tag o) = n := by
  simp [putTag]

/-- `radix_tree_tag_clear` below a slot. -/
theorem tagClearDown_spec (tag : Fin 2) (index : ℕ) (ht : Sound P h t tags) :
    ∃ t' up, tagClearDown index tag h t = some ((view h t tags index).map Prod.fst, t', up) ∧
      Retagged P h t t' (clearedIf up tag tags) ∧
      ∀ j, view h t' (clearedIf up tag tags) j =
        if j ≡ index [MOD 64 ^ h] then
          (view h t tags index).map fun r => (r.1, update r.2 tag false)
        else view h t tags j := by
  induction h generalizing P t tags with
  | zero =>
    obtain ⟨rfl, rfl⟩ | ⟨y, rfl⟩ := ht.zero_cases
    · exact ⟨.null, false, rfl, ⟨ht, rfl, rfl, id⟩, fun j => by simp⟩
    · cases ht with
      | item hP =>
        refine ⟨.item y, true, rfl, ⟨.item hP y _, rfl, rfl, id⟩, fun j => ?_⟩
        simp [Nat.modEq_one, clearedIf]
  | succ h ih =>
    obtain ⟨rfl, rfl⟩ | ⟨n, rfl⟩ := ht.succ_cases
    · exact ⟨.null, false, rfl, ⟨ht, rfl, rfl, id⟩, fun j => by simp⟩
    · obtain ⟨slot, up, heq, hre, hnew⟩ := ih (ht.node_inv.2.2.1 (offset index h))
      have hsummary := ht.node_inv.2.2.2
      -- what the node becomes when the slot's bit is `b` in the end
      have key (b : Bool) (tags' : Fin 2 → Bool)
          (hb : clearedIf up tag (n.tagsAt (offset index h)) =
            update (n.tagsAt (offset index h)) tag b)
          (hs : ∀ tag', tags' tag' = true ↔
            ∃ o', (n.putTag tag (offset index h) b).tags tag' o' = true) :
          Retagged P (h + 1) (.node n)
              (.node ((n.putTag tag (offset index h) b).setSlot (offset index h) slot)) tags' ∧
            ∀ j, view (h + 1)
              (.node ((n.putTag tag (offset index h) b).setSlot (offset index h) slot)) tags' j =
              if j ≡ index [MOD 64 ^ (h + 1)] then
                (view (h + 1) (.node n) tags index).map fun r => (r.1, update r.2 tag false)
              else view (h + 1) (.node n) tags j := by
        rw [hb] at hre hnew
        refine ⟨hre.node ht hs, fun j => ?_⟩
        simp only [view_retag, modEq_succ_iff, hnew]
        by_cases ho : offset j h = offset index h
        · simp [ho, view_node]
        · simp only [ho, if_false, false_and]
          rfl
      by_cases hstop : up = false ∨ n.tags tag (offset index h) = false
      · obtain ⟨hre', hnew'⟩ := key (n.tags tag (offset index h)) tags (by
            rw [update_tagsAt_self]
            rcases hstop with rfl | hbit
            · rfl
            · cases up
              · rfl
              · simpa [clearedIf, hbit] using update_tagsAt_self n (offset index h) tag) (by
            rw [putTag_self]
            exact hsummary)
        rw [putTag_self] at hre' hnew'
        refine ⟨_, false, ?_, hre', hnew'⟩
        simp only [tagClearDown, heq, view_node]
        rcases hstop with rfl | hbit
        · simp
        · simp [hbit]
      · obtain ⟨hup, hbit⟩ : up = true ∧ n.tags tag (offset index h) = true := by
          simpa using hstop
        subst hup
        have hany : ((n.setSlot (offset index h) slot).putTag tag (offset index h) false).anyTagSet
            tag = true ↔ ∃ o', (n.putTag tag (offset index h) false).tags tag o' = true := by
          simp only [anyTagSet, decide_eq_true_eq]
          rfl
        obtain ⟨hre', hnew'⟩ := key false (clearedIf
          (!((n.setSlot (offset index h) slot).putTag tag (offset index h) false).anyTagSet tag)
            tag tags) rfl (fun tag' => by
              by_cases htag : tag' = tag
              · subst htag
                rw [← hany]
                cases hset : ((n.setSlot (offset index h) slot).putTag tag' (offset index h)
                    false).anyTagSet tag' with
                | true => simpa [clearedIf] using (hsummary tag').mpr ⟨_, hbit⟩
                | false => simp [clearedIf]
              · have hother : clearedIf (!((n.setSlot (offset index h) slot).putTag tag
                    (offset index h) false).anyTagSet tag) tag tags tag' = tags tag' := by
                  unfold clearedIf
                  split_ifs
                  · exact update_of_ne htag _ _
                  · rfl
                rw [hother, hsummary]
                simp [putTag_tags, htag])
        refine ⟨_, _, ?_, hre', hnew'⟩
        simp only [tagClearDown, heq, view_node]
        simp [hbit]
        rfl

/-- The bit of a tag at an index. -/
def tagOf (tag : Fin 2) (r : Option (ι × (Fin 2 → Bool))) : Bool := r.any fun r => r.2 tag

theorem tagOf_iff {r : Option (ι × (Fin 2 → Bool))} :
    tagOf tag r = true ↔ ∃ x f, r = some (x, f) ∧ f tag = true := by
  cases r with
  | none => simp [tagOf]
  | some r => exact ⟨fun h => ⟨r.1, r.2, rfl, h⟩, by rintro ⟨x, f, ⟨⟩, h⟩; exact h⟩

/-- `radix_tree_tag_get` below a node. -/
theorem tagGetDown_spec (tag : Fin 2) (index : ℕ) (hn : Sound P (h + 1) (.node n) tags) :
    tagGetDown index tag (h + 1) (.node n) =
      some (tagOf tag (view (h + 1) (.node n) tags index)) := by
  induction h generalizing n tags P with
  | zero =>
    have hslot := hn.node_inv.2.2.1 (offset index 0)
    obtain ⟨hnull, htags⟩ | ⟨x, hitem⟩ := hslot.zero_cases
    · have hbit : n.tags tag (offset index 0) = false := congrFun htags tag
      simp [tagGetDown, view_node, hnull, hbit, tagOf]
    · simp [tagGetDown, view_node, hitem, tagOf, tagsAt]
  | succ h ih =>
    have hslot := hn.node_inv.2.2.1 (offset index (h + 1))
    obtain ⟨hnull, -⟩ | ⟨n', hnode⟩ := hslot.succ_cases
    · simp [tagGetDown, view_node, hnull, tagOf]
    · rw [hnode] at hslot
      rw [tagGetDown, view_node (h := h + 1), hnode]
      simpa using ih hslot

/-- A call changed the entry of one index, and took or gave back no node. -/
structure Root.Changed (root : Root ι) (index : ℕ) (v : Option (ι × (Fin 2 → Bool)))
    (root' : Root ι) : Prop where
  sound : root'.Sound
  view : root'.view = update root.view index v
  height : root'.height = root.height
  nodes : root'.nodes = root.nodes
  full : root.Full → root'.Full

theorem Retagged.changed {v : Option (ι × (Fin 2 → Bool))} (hroot : root.Sound)
    (hle : index ≤ radixTreeMaxindex root.height)
    (hre : Retagged root.span root.height root.rnode t tags)
    (hview : ∀ j, view root.height t tags j =
      if j ≡ index [MOD 64 ^ root.height] then v
      else view root.height root.rnode root.tags j) :
    root.Changed index v { root with rnode := t, tags := tags } := by
  refine ⟨⟨hroot.height_le, hre.sound⟩, hroot.view_eq_update hle hview, rfl, hre.nodes,
    fun hfull => ⟨hre.full hfull.tree, ?_⟩⟩
  rw [hre.isNull]
  exact hfull.height

theorem Root.le_of_view_ne_none (h : root.view index ≠ none) :
    index ≤ radixTreeMaxindex root.height := by
  by_contra hle
  exact h (if_neg hle)

section

variable (tag : Fin 2) (hroot : root.Sound)
include hroot

/-- `radix_tree_tag_set` on an index that is present. -/
theorem radixTreeTagSet_spec (hview : root.view index = some (x, f)) :
    ∃ root', radixTreeTagSet index tag root = some (some x, root') ∧
      root.Changed index (some (x, update f tag true)) root' := by
  have hle := le_of_view_ne_none (hview ▸ some_ne_none _)
  rw [Root.view, if_pos hle] at hview
  have hnull : root.rnode.isNull = false :=
    Tree.isNull_of_ne fun hr => by simp [hr] at hview
  obtain ⟨t', heq, hre, hnew⟩ := tagSetDown_spec tag hroot.tree hview
  refine ⟨_, ?_, hre.changed hroot hle hnew⟩
  simp [radixTreeTagSet, not_lt.mpr hle, hnull, heq]

/-- `radix_tree_tag_clear` -/
theorem radixTreeTagClear_spec (index : ℕ) :
    ∃ root', radixTreeTagClear index tag root = some ((root.view index).map Prod.fst, root') ∧
      root.Changed index ((root.view index).map fun r => (r.1, update r.2 tag false))
        root' := by
  by_cases hle : index ≤ radixTreeMaxindex root.height
  · obtain ⟨t', up, heq, hre, hnew⟩ := tagClearDown_spec tag index hroot.tree
    have hview : root.view index = view root.height root.rnode root.tags index := if_pos hle
    rw [← hview] at heq hnew
    refine ⟨_, ?_, hre.changed hroot hle hnew⟩
    simp [radixTreeTagClear, not_lt.mpr hle, heq, clearedIf]
  · have hview : root.view index = none := if_neg hle
    refine ⟨root, by simp [radixTreeTagClear, not_le.mp hle, hview], hroot, ?_, rfl, rfl, id⟩
    rw [hview, map_none, ← hview, update_eq_self]

/-- `radix_tree_tag_get` -/
theorem radixTreeTagGet_spec (index : ℕ) :
    radixTreeTagGet index tag root = some (tagOf tag (root.view index)) := by
  cases hset : root.tags tag with
  | false =>
    -- the bit at the root says that no index has the tag
    have hnot : tagOf tag (root.view index) = false := by
      by_contra htag
      obtain ⟨x, f, hr, hf⟩ := tagOf_iff.mp (by simpa using htag)
      have hle := le_of_view_ne_none (hr ▸ some_ne_none _)
      rw [Root.view, if_pos hle] at hr
      have := hroot.tree.tag_iff.mpr ⟨index, hle, x, f, hr, hf⟩
      simp [hset] at this
    simp [radixTreeTagGet, hset, hnot]
  | true =>
    have htree := hroot.tree
    unfold radixTreeTagGet Root.view
    cases hh : root.height with
    | zero =>
      have hmax : radixTreeMaxindex 0 = 0 := rfl
      rw [hh] at htree
      obtain ⟨hrnode, -⟩ | ⟨x, hrnode⟩ := htree.zero_cases
      · simp [hset, hrnode, tagOf]
      · by_cases hi : index = 0 <;> simp [hset, hrnode, hmax, hi, tagOf]
    | succ h =>
      rw [hh] at htree
      obtain ⟨hrnode, -⟩ | ⟨n, hrnode⟩ := htree.succ_cases
      · simp [hset, hrnode, tagOf]
      · rw [hrnode] at htree
        by_cases hi : index > radixTreeMaxindex (h + 1)
        · simp [hset, hrnode, htree.node_inv.1, hi, not_le.mpr hi, tagOf]
        · simp [hset, hrnode, htree.node_inv.1, hi, not_lt.mp hi, tagGetDown_spec tag index htree]

/-- `radix_tree_tagged` -/
theorem radixTreeTagged_iff :
    radixTreeTagged tag root = true ↔ ∃ index, tagOf tag (root.view index) = true := by
  rw [radixTreeTagged, hroot.tree.tag_iff]
  constructor
  · rintro ⟨i, hi, x, f, hview, htag⟩
    have hview' : root.view i = some (x, f) := (if_pos hi).trans hview
    exact ⟨i, tagOf_iff.mpr ⟨x, f, hview', htag⟩⟩
  · rintro ⟨i, hi⟩
    obtain ⟨x, f, hr, hf⟩ := tagOf_iff.mp hi
    have hle := le_of_view_ne_none (hr ▸ some_ne_none _)
    rw [Root.view, if_pos hle] at hr
    exact ⟨i, hle, x, f, hr, hf⟩

end

end AndroidKernel.RadixTree
