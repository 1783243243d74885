import AndroidKernel.RadixTree.Sound

/-!
# Insertion into a radix tree

What `radix_tree_insert` does below a slot, and what `radix_tree_extend` does at the root. A failed
allocation may leave new nodes behind, but the map is the same.
-/

namespace AndroidKernel.RadixTree

open Digits Function Node

variable {ι : Type} {P : Set ℕ} {h index j : ℕ} {x : ι} {t t' slot : Tree ι} {tags : Fin 2 → Bool}
  {n : Node (Tree ι)} {o : Fin 64} {m m' : Slab ι} {error : ℤ}

theorem Sound.node_inv (ht : Sound P (h + 1) (.node n) tags) : n.height = h + 1 ∧ n.count = n.used ∧
    (∀ o, Sound (P ∩ {i | offset i h = o}) h (n.slots o) (n.tagsAt o)) ∧
    ∀ tag, tags tag = true ↔ ∃ o, n.tags tag o = true := by
  cases ht with
  | node height count slots summary => exact ⟨height, count, slots, summary⟩

/-- Below a sound slot of height `h + 1` is nothing or a node. -/
theorem Sound.succ_cases (ht : Sound P (h + 1) t tags) :
    (t = .null ∧ tags = untagged) ∨ ∃ n, t = .node n := by
  cases ht with
  | null => exact .inl ⟨rfl, rfl⟩
  | node => exact .inr ⟨_, rfl⟩

theorem Sound.zero_cases (ht : Sound P 0 t tags) :
    (t = .null ∧ tags = untagged) ∨ ∃ x, t = .item x := by
  cases ht with
  | null => exact .inl ⟨rfl, rfl⟩
  | item => exact .inr ⟨_, rfl⟩

section

variable (hn : Sound P (h + 1) (.node n) tags)
  (ht : Sound (P ∩ {i | offset i h = o}) h t (n.tagsAt o))
include hn ht

/-- A sound tree with another sound tree in one of its slots, and the count set right. -/
theorem Sound.setSlot {c : ℕ} (hc : c = (n.setSlot o t).used) :
    Sound P (h + 1) (.node { n.setSlot o t with count := c }) tags := by
  obtain ⟨height, -, slots, summary⟩ := hn.node_inv
  refine .node height hc (fun o' => ?_) summary
  change Sound _ h (update n.slots o t o') (n.tagsAt o')
  by_cases ho : o' = o
  · subst ho
    simpa using ht
  · simpa [update_of_ne ho] using slots o'

theorem Sound.link (hkeep : (n.slots o).isNull = false → t.isNull = false) :
    Sound P (h + 1) (.node (n.link o t)) tags := by
  refine hn.setSlot ht ?_
  have hused := used_setSlot (n := n) (o := o) (t := t)
  have hcount := hn.node_inv.2.1
  cases hold : (n.slots o).isNull <;> cases hnew : t.isNull <;>
    simp only [hold, hnew, Bool.not_true, Bool.not_false, Bool.and_true, Bool.and_false,
      Bool.false_eq_true, if_true, if_false, Bool.toNat_true, Bool.toNat_false] at hused hkeep ⊢ <;>
    first | omega | simp at hkeep

end

theorem view_link : view (h + 1) (.node (n.link o t)) tags j =
    if offset j h = o then view h t (n.tagsAt o) j else view (h + 1) (.node n) tags j :=
  view_setSlot

theorem nodes_link : nodes (h + 1) (.node (n.link o t)) + nodes h (n.slots o) =
    nodes (h + 1) (.node n) + nodes h t :=
  nodes_setSlot

theorem Node.Blank.sound (hn : n.Blank) (P : Set ℕ) (h : ℕ) :
    Sound P (h + 1) (.node { n with height := h + 1 }) untagged := by
  refine .node rfl ?_ (fun o => ?_) fun tag => ?_
  · simp [used, hn.slots, hn.count, Tree.isNull]
  · have htags : tagsAt { n with height := h + 1 } o = untagged := by
      funext tag
      exact hn.tags tag o
    rw [htags]
    simpa [hn.slots o] using Sound.null _ h
  · simp [untagged, hn.tags]

/-- What an insertion below a slot comes to. -/
structure Inserted (P : Set ℕ) (index : ℕ) (x : ι) (h : ℕ) (t : Tree ι) (tags : Fin 2 → Bool)
    (m : Slab ι) (error : ℤ) (t' : Tree ι) (m' : Slab ι) : Prop where
  sound : Sound P h t' tags
  clean : m'.Clean
  held : m'.held + nodes h t = m.held + nodes h t'
  keeps : t.isNull = false → t'.isNull = false
  full : FullBelow h t → error ≠ enomem → Full h t' ∧ t'.isNull = false
  outcome :
    (error = eexist ∧ view h t tags index ≠ none ∧ ∀ j, view h t' tags j = view h t tags j) ∨
    (error = 0 ∧ view h t tags index = none ∧ ∀ j, view h t' tags j =
      if j ≡ index [MOD 64 ^ h] then some (x, untagged) else view h t tags j) ∨
    (error = enomem ∧ view h t tags index = none ∧ ∀ j, view h t' tags j = view h t tags j)

theorem Inserted.link (hn : Sound P (h + 1) (.node n) tags)
    (hins : Inserted (P ∩ {i | offset i h = offset index h}) index x h (n.slots (offset index h))
      (n.tagsAt (offset index h)) m error slot m') :
    Inserted P index x (h + 1) (.node n) tags m error (.node (n.link (offset index h) slot))
      m' where
  sound := hn.link hins.sound hins.keeps
  clean := hins.clean
  held := by
    have hnodes := nodes_link (h := h) (n := n) (o := offset index h) (t := slot)
    have := hins.held
    omega
  keeps _ := rfl
  full hfull herror := by
    obtain ⟨hslot, hnull⟩ := hins.full (hfull (offset index h)).below herror
    refine ⟨⟨⟨offset index h, by simpa [Node.link] using hnull⟩, fun o => ?_⟩, rfl⟩
    by_cases ho : o = offset index h
    · subst ho
      simpa [Node.link] using hslot
    · simpa [Node.link, update_of_ne ho] using hfull o
  outcome := by
    have hview (j : ℕ) : view (h + 1) (.node (n.link (offset index h) slot)) tags j =
        if offset j h = offset index h then view h slot (n.tagsAt (offset index h)) j
        else view (h + 1) (.node n) tags j := view_link
    rcases hins.outcome with ⟨rfl, hsome, hsame⟩ | ⟨rfl, hnone, hnew⟩ | ⟨rfl, hnone, hsame⟩
    · refine .inl ⟨rfl, hsome, fun j => ?_⟩
      rw [hview]
      split_ifs with ho
      · rw [hsame, view_node, ho]
      · rfl
    · refine .inr (.inl ⟨rfl, hnone, fun j => ?_⟩)
      simp only [hview, modEq_succ_iff]
      by_cases ho : offset j h = offset index h
      · simp [ho, hnew, view_node]
      · simp [ho]
    · refine .inr (.inr ⟨rfl, hnone, fun j => ?_⟩)
      rw [hview]
      split_ifs with ho
      · rw [hsame, view_node, ho]
      · rfl

/-- `radix_tree_insert` below a slot: by induction on the height, following the loop. -/
theorem insertDown_spec (x : ι) (ht : Sound P h t tags) (hm : m.Clean) (hindex : index ∈ P) :
    ∃ error t' m', insertDown index x h t tags m = some (error, t', m') ∧
      Inserted P index x h t tags m error t' m' := by
  induction h generalizing P t tags m with
  | zero =>
    obtain ⟨rfl, rfl⟩ | ⟨y, rfl⟩ := ht.zero_cases
    · refine ⟨0, .item x, m, by simp [insertDown, Tree.isNull, untagged], ?_⟩
      refine ⟨.item ⟨index, hindex⟩ x _, hm, rfl, fun _ => rfl, fun _ _ => ⟨trivial, rfl⟩,
        .inr (.inl ⟨rfl, rfl, fun j => ?_⟩)⟩
      simp [Nat.modEq_one]
    · refine ⟨eexist, .item y, m, by simp [insertDown, Tree.isNull], ?_⟩
      exact ⟨ht, hm, rfl, id, fun _ _ => ⟨trivial, rfl⟩, .inl ⟨rfl, by simp, fun _ => rfl⟩⟩
  | succ h ih =>
    obtain ⟨rfl, rfl⟩ | ⟨n, rfl⟩ := ht.succ_cases
    · obtain ⟨hclean, ⟨hnone, hheld⟩ | ⟨n, hsome, hblank, hheld⟩⟩ := hm.nodeAlloc
      · refine ⟨enomem, .null, m.nodeAlloc.2, by simp [insertDown, childNode, hnone], ht, hclean,
          ?_, id, fun _ hne => absurd rfl hne, .inr (.inr ⟨rfl, by simp, fun _ => rfl⟩)⟩
        rw [hheld]
      · -- the new node holds nothing, so that the insertion goes on below it
        have hnode := hblank.sound P h
        obtain ⟨error, slot, m', heq, hins⟩ := ih (hnode.node_inv.2.2.1 (offset index h)) hclean
          ⟨hindex, rfl⟩
        have hlink := Inserted.link hnode hins
        have hempty (j : ℕ) :
            view (h + 1) (.node { n with height := h + 1 }) untagged j = none := by
          rw [view_node, hblank.slots, view_null]
        refine ⟨error, _, m', by simp [insertDown, childNode, hsome, heq], hlink.sound, hlink.clean,
          ?_, fun _ => rfl, fun _ herror => hlink.full (fun o => ?_) herror, ?_⟩
        · have hone : nodes (h + 1) (.node { n with height := h + 1 }) = 1 := by
            simp [nodes, hblank.slots]
          have := hlink.held
          rw [hone, hheld] at this
          simp only [nodes_null]
          omega
        · simp [hblank.slots]
        · simpa [hempty, view_null] using hlink.outcome
    · obtain ⟨error, slot, m', heq, hins⟩ := ih (ht.node_inv.2.2.1 (offset index h)) hm
        ⟨hindex, rfl⟩
      exact ⟨error, _, m', by simp [insertDown, childNode, heq], Inserted.link ht hins⟩

end AndroidKernel.RadixTree
