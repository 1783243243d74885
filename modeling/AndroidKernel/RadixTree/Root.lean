import AndroidKernel.RadixTree.Insert
import Mathlib.Tactic.IntervalCases

/-!
# Insertion and lookup at the root

The root of a radix tree grows as far as an index needs. The indices it can hold are those up to
`radix_tree_maxindex` of its height.
-/

namespace AndroidKernel.RadixTree

open Digits Function RadixTree

variable {ι : Type} {h index i j : ℕ} {x : ι} {root root' : Root ι} {n : Node (Tree ι)}
  {tags : Fin 2 → Bool} {m m' : Slab ι} {P : Set ℕ}

theorem le_maxindex_iff (hh : h ≤ 6) : i ≤ radixTreeMaxindex h ↔ i < 64 ^ h ∧ i < 2 ^ 32 := by
  interval_cases h <;> simp only [radixTreeMaxindex, mapShift] <;> norm_num <;> omega

theorem modEq_iff_of_le (hh : h ≤ 6) (hi : i ≤ radixTreeMaxindex h)
    (hj : j ≤ radixTreeMaxindex h) : i ≡ j [MOD 64 ^ h] ↔ i = j :=
  ⟨eq_of_modEq ((le_maxindex_iff hh).mp hi).1 ((le_maxindex_iff hh).mp hj).1, fun h => by rw [h]⟩

/-- The indices that lead to the tree of a root. -/
def Root.span (root : Root ι) : Set ℕ := {i | i ≤ radixTreeMaxindex root.height}

/-- The item of an index with its tags. -/
def Root.view (root : Root ι) (i : ℕ) : Option (ι × (Fin 2 → Bool)) :=
  if i ≤ radixTreeMaxindex root.height then
    RadixTree.view root.height root.rnode root.tags i
  else none

/-- The root and its tree are right. -/
structure Root.Sound (root : Root ι) : Prop where
  height_le : root.height ≤ 6
  tree : RadixTree.Sound root.span root.height root.rnode root.tags

theorem Root.Sound.view_eq_update {t : Tree ι} {v : Option (ι × (Fin 2 → Bool))}
    (hroot : root.Sound) (hle : index ≤ radixTreeMaxindex root.height)
    (hview : ∀ j, RadixTree.view root.height t tags j = if j ≡ index [MOD 64 ^ root.height] then v
      else RadixTree.view root.height root.rnode root.tags j) :
    Root.view { root with rnode := t, tags := tags } = update root.view index v := by
  funext j
  simp only [Root.view, update_apply]
  by_cases hj : j ≤ radixTreeMaxindex root.height
  · have hiff := modEq_iff_of_le hroot.height_le hj hle
    simp [hj, hview, hiff]
  · have hne : j ≠ index := fun heq => hj (heq ▸ hle)
    simp [hj, hne]

/-- Every node has something below it, and a root without a tree has no height. -/
structure Root.Full (root : Root ι) : Prop where
  tree : RadixTree.Full root.height root.rnode
  height : root.rnode.isNull = true → root.height = 0

/-- How many nodes the tree of a root has. -/
def Root.nodes (root : Root ι) : ℕ := RadixTree.nodes root.height root.rnode

theorem offset_eq_zero_iff (hi : i < 64 ^ (h + 1)) : offset i h = 0 ↔ i < 64 ^ h := by
  rw [Fin.ext_iff, offset_val]
  exact digit_eq_zero_iff hi

theorem Node.Blank.above_slots (hn : n.Blank) (t : Tree ι) (o : Fin 64) :
    (n.above h t tags).slots o = if o = 0 then t else .null := by
  simp only [Node.above, Node.setSlot_slots, update_apply, hn.slots]

theorem Node.Blank.above_tagsAt (hn : n.Blank) (t : Tree ι) (o : Fin 64) :
    (n.above h t tags).tagsAt o = if o = 0 then tags else untagged := by
  funext tag
  by_cases ho : o = 0
  · simp [Node.above, Node.tagsAt, hn.tags, ho]
  · simp [Node.above, Node.tagsAt, hn.tags, ho, untagged]

theorem Root.Sound.raise (hroot : root.Sound) (hn : n.Blank) (hheight : root.height < 6)
    (hnull : root.rnode.isNull = false) :
    (root.raise n).Sound ∧ (root.raise n).view = root.view ∧
      (root.raise n).nodes = root.nodes + 1 := by
  have hlower (i : ℕ) := le_maxindex_iff (i := i) hroot.height_le
  have hupper (i : ℕ) := le_maxindex_iff (i := i) (h := root.height + 1) (by omega)
  have hused : ∀ f : Tree ι → ℕ, f .null = 0 →
      ∑ o, f ((n.above (root.height + 1) root.rnode root.tags).slots o) = f root.rnode := by
    intro f hf
    simp [hn.above_slots, apply_ite f, hf]
  refine ⟨⟨hheight, .node rfl ?_ (fun o => ?_) fun tag => ?_⟩, ?_, ?_⟩
  · have := hused (fun t => (!t.isNull).toNat) rfl
    simp only [hnull, Bool.not_false, Bool.toNat_true] at this
    exact this.symm
  · rw [hn.above_slots, hn.above_tagsAt]
    by_cases ho : o = 0
    · simp only [ho, if_true]
      refine hroot.tree.mono fun i hi => ?_
      obtain ⟨hlt, hlt32⟩ := (hlower i).mp hi
      exact ⟨(hupper i).mpr ⟨by omega, hlt32⟩, (offset_eq_zero_iff (by omega)).mpr hlt⟩
    · simpa [ho] using Sound.null _ _
  · have htags (o : Fin 64) : (n.above (root.height + 1) root.rnode root.tags).tags tag o =
        (if o = 0 then root.tags else untagged) tag := congrFun (hn.above_tagsAt root.rnode o) tag
    constructor
    · intro htag
      exact ⟨0, (htags 0).trans htag⟩
    · rintro ⟨o, ho⟩
      have := htags o
      rw [ho] at this
      split_ifs at this
      · exact this.symm
      · cases this
  · funext i
    by_cases hi : i ≤ radixTreeMaxindex (root.height + 1)
    · obtain ⟨hlt, hlt32⟩ := (hupper i).mp hi
      have hzero := offset_eq_zero_iff hlt
      simp only [Root.view, Root.raise, hi, if_true, view_node, hn.above_slots, hn.above_tagsAt,
        hzero, hlower, hlt32, and_true]
      split_ifs
      · rfl
      · exact view_null
    · have hnot : ¬i ≤ radixTreeMaxindex root.height := fun hle =>
        hi ((hupper i).mpr (((hlower i).mp hle).imp_left fun hlt => by omega))
      simp [Root.view, Root.raise, hi, hnot]
  · have := hused (RadixTree.nodes root.height) nodes_null
    simp only [Root.nodes, Root.raise, RadixTree.nodes, this]
    omega

theorem Root.Full.raise (hroot : root.Full) (hn : n.Blank) (hnull : root.rnode.isNull = false) :
    (root.raise n).Full := by
  refine ⟨⟨⟨0, by simpa [hn.above_slots] using hnull⟩, fun o => ?_⟩, fun h => by cases h⟩
  rw [hn.above_slots]
  split_ifs
  · exact hroot.tree
  · exact full_null

/-- What holds of the root and the slab after a part of a call that keeps the map. -/
structure Kept (root : Root ι) (m : Slab ι) (root' : Root ι) (m' : Slab ι) : Prop where
  sound : root'.Sound
  clean : m'.Clean
  view : root'.view = root.view
  held : m'.held + root.nodes = m.held + root'.nodes

theorem extendLoop_spec (k : ℕ) (hroot : root.Sound) (hm : m.Clean) (hheight : root.height + k ≤ 6)
    (hnull : root.rnode.isNull = false) :
    ∃ error root' m', extendLoop k root m = (error, root', m') ∧ Kept root m root' m' ∧
      (root.Full → root'.Full) ∧
      (error = enomem ∨ error = 0 ∧ root'.height = root.height + k) := by
  induction k generalizing root m with
  | zero => exact ⟨0, root, m, rfl, ⟨hroot, hm, rfl, rfl⟩, id, .inr ⟨rfl, rfl⟩⟩
  | succ k ih =>
    obtain ⟨hclean, ⟨hnone, hheld⟩ | ⟨n, hsome, hblank, hheld⟩⟩ := hm.nodeAlloc
    · refine ⟨enomem, root, m.nodeAlloc.2, ?_, ⟨hroot, hclean, rfl, by rw [hheld]⟩, id, .inl rfl⟩
      unfold extendLoop
      split
      · simp_all
      · simp_all
    · obtain ⟨hsound, hview, hnodes⟩ := hroot.raise hblank (by omega) hnull
      obtain ⟨error, root', m', heq, hkept, hfull, hor⟩ := ih hsound hclean
        (by simp only [Root.raise]; omega) rfl
      refine ⟨error, root', m', ?_, ⟨hkept.sound, hkept.clean, hkept.view.trans hview, ?_⟩,
        fun hf => hfull (hf.raise hblank hnull), hor.imp_right ?_⟩
      · unfold extendLoop
        split
        · simp_all
        · simp_all
      · have := hkept.held
        omega
      · rintro ⟨rfl, hh⟩
        exact ⟨rfl, by simp only [hh, Root.raise]; omega⟩

theorem findHeight_spec (hindex : index < 2 ^ 32) (k : ℕ) (hh : h ≤ 6) (hk : 6 ≤ h + k) :
    h ≤ findHeight index k h ∧ findHeight index k h ≤ 6 ∧
      index ≤ radixTreeMaxindex (findHeight index k h) := by
  induction k generalizing h with
  | zero =>
    obtain rfl : h = 6 := by omega
    exact ⟨le_rfl, le_rfl, (le_maxindex_iff le_rfl).mpr ⟨by omega, hindex⟩⟩
  | succ k ih =>
    unfold findHeight
    split_ifs with hgt
    · have hlt : h ≠ 6 := by
        rintro rfl
        exact absurd ((le_maxindex_iff le_rfl).mpr ⟨by omega, hindex⟩) (not_le.mpr hgt)
      obtain ⟨h₁, h₂, h₃⟩ := ih (h := h + 1) (by omega) (by omega)
      exact ⟨by omega, h₂, h₃⟩
    · exact ⟨le_rfl, hh, by omega⟩

theorem extend_spec (hroot : root.Sound) (hm : m.Clean) (hindex : index < 2 ^ 32)
    (hgt : index > radixTreeMaxindex root.height) :
    ∃ error root' m', radixTreeExtend index root m = (error, root', m') ∧ Kept root m root' m' ∧
      (root.Full → FullBelow root'.height root'.rnode ∧ (error = enomem → root'.Full)) ∧
      (error = enomem ∨ error = 0 ∧ index ≤ radixTreeMaxindex root'.height) := by
  have hlt : root.height < 6 := by
    refine lt_of_le_of_ne hroot.height_le fun heq => ?_
    rw [heq] at hgt
    exact absurd ((le_maxindex_iff le_rfl).mpr ⟨by omega, hindex⟩) (not_le.mpr hgt)
  obtain ⟨h₁, h₂, h₃⟩ := findHeight_spec (h := root.height + 1) hindex 6 hlt (by omega)
  cases hnull : root.rnode.isNull with
  | true =>
    have hrnode : root.rnode = .null := by
      cases hr : root.rnode <;> simp_all [Tree.isNull]
    have htags : root.tags = untagged := hroot.tree.null_tags hnull
    refine ⟨0, { root with height := findHeight index 6 (root.height + 1) }, m,
      by simp [radixTreeExtend, hnull], ⟨⟨h₂, ?_⟩, hm, ?_, ?_⟩, fun _ => ⟨?_, fun h0 => ?_⟩,
      .inr ⟨rfl, h₃⟩⟩
    · simpa [hrnode, htags] using Sound.null _ _
    · funext i
      simp [Root.view, hrnode]
    · simp [Root.nodes, hrnode]
    · simp only [hrnode]
      exact full_null.below
    · cases h0
  | false =>
    obtain ⟨error, root', m', heq, hkept, hfull, hor⟩ := extendLoop_spec
      (findHeight index 6 (root.height + 1) - root.height) hroot hm (by omega) hnull
    refine ⟨error, root', m', by simp [radixTreeExtend, hnull, heq], hkept,
      fun hf => ⟨(hfull hf).tree.below, fun _ => hfull hf⟩, hor.imp_right ?_⟩
    rintro ⟨rfl, hheight⟩
    rw [hheight, Nat.add_sub_cancel' (by omega)]
    exact ⟨rfl, h₃⟩

/-- What an insertion comes to: the index was there, or it was not and is now, or memory was short
and the map is the same. -/
structure Root.Inserted (root : Root ι) (m : Slab ι) (index : ℕ) (x : ι) (error : ℤ)
    (root' : Root ι) (m' : Slab ι) : Prop where
  sound : root'.Sound
  clean : m'.Clean
  held : m'.held + root.nodes = m.held + root'.nodes
  outcome : (error = eexist ∧ root.view index ≠ none ∧ root'.view = root.view) ∨
    (error = 0 ∧ root.view index = none ∧
      root'.view = update root.view index (some (x, untagged))) ∨
    (error = enomem ∧ root.view index = none ∧ root'.view = root.view)

theorem insert_within (x : ι) (hroot : root.Sound) (hm : m.Clean)
    (hle : index ≤ radixTreeMaxindex root.height) :
    ∃ error rnode m', insertDown index x root.height root.rnode root.tags m =
        some (error, rnode, m') ∧
      root.Inserted m index x error { root with rnode := rnode } m' ∧
      (FullBelow root.height root.rnode → error ≠ enomem → { root with rnode := rnode }.Full) := by
  obtain ⟨error, rnode, m', heq, hins⟩ := insertDown_spec x hroot.tree hm hle
  refine ⟨error, rnode, m', heq, ⟨⟨hroot.height_le, hins.sound⟩, hins.clean, hins.held, ?_⟩,
    fun hbelow herror => ?_⟩
  · have hin : root.view index = RadixTree.view root.height root.rnode root.tags index := if_pos hle
    have hsame (hall : ∀ j, view root.height rnode root.tags j =
        view root.height root.rnode root.tags j) :
        Root.view { root with rnode := rnode } = root.view := by
      funext j
      simp only [Root.view, hall]
    rcases hins.outcome with ⟨rfl, hsome, hall⟩ | ⟨rfl, hnone, hnew⟩ | ⟨rfl, hnone, hall⟩
    · exact .inl ⟨rfl, hin ▸ hsome, hsame hall⟩
    · refine .inr (.inl ⟨rfl, hin ▸ hnone, ?_⟩)
      exact hroot.view_eq_update hle hnew
    · exact .inr (.inr ⟨rfl, hin ▸ hnone, hsame hall⟩)
  · obtain ⟨htree, hnull⟩ := hins.full hbelow herror
    exact ⟨htree, fun h => by simp [hnull] at h⟩

/-- `radix_tree_insert` -/
theorem radixTreeInsert_spec (x : ι) (hroot : root.Sound) (hm : m.Clean) (hindex : index < 2 ^ 32) :
    ∃ error root' m', radixTreeInsert index x root m = some (error, root', m') ∧
      root.Inserted m index x error root' m' ∧ (root.Full → error ≠ enomem → root'.Full) := by
  by_cases hgt : index > radixTreeMaxindex root.height
  · have hnone : root.view index = none := if_neg (by omega)
    obtain ⟨error, root₁, m₁, hext, hkept, hfull, rfl | ⟨rfl, hle⟩⟩ :=
      extend_spec hroot hm hindex hgt
    · refine ⟨enomem, root₁, m₁, ?_, ⟨hkept.sound, hkept.clean, hkept.held,
        .inr (.inr ⟨rfl, hnone, hkept.view⟩)⟩, fun _ hne => absurd rfl hne⟩
      simp [radixTreeInsert, hgt, hext, enomem]
    · obtain ⟨error, rnode, m', heq, hins, hfull'⟩ := insert_within x hkept.sound hkept.clean hle
      refine ⟨error, { root₁ with rnode := rnode }, m', ?_, ⟨hins.sound, hins.clean, ?_, ?_⟩,
        fun hf => hfull' (hfull hf).1⟩
      · simp [radixTreeInsert, hgt, hext, heq]
      · have h₁ := hkept.held
        have h₂ := hins.held
        omega
      · simpa [hkept.view] using hins.outcome
  · obtain ⟨error, rnode, m', heq, hins, hfull⟩ := insert_within x hroot hm (not_lt.mp hgt)
    exact ⟨error, { root with rnode := rnode }, m', by simp [radixTreeInsert, hgt, heq], hins,
      fun hf => hfull hf.tree.below⟩

theorem lookupDown_spec (index : ℕ) (hn : Sound P (h + 1) (.node n) tags) (way : List (Fin 64)) :
    ∃ r, lookupDown index (h + 1) n way = some r ∧
      r.map Prod.snd = (view (h + 1) (.node n) tags index).map Prod.fst ∧
      ∀ w ∈ r, ∃ w', w.1 = way ++ w' ∧ (Tree.node n).read w' = .item w.2 := by
  induction h generalizing n tags P way with
  | zero =>
    unfold lookupDown
    obtain ⟨hslot, -⟩ | ⟨x, hslot⟩ := (hn.node_inv.2.2.1 (offset index 0)).zero_cases
    · exact ⟨none, by simp [hslot], by simp [view_node, hslot], by simp⟩
    · refine ⟨some (way ++ [offset index 0], x), by simp [hslot], by simp [view_node, hslot], ?_⟩
      rintro w ⟨⟩
      exact ⟨[offset index 0], rfl, by simp [Tree.read, hslot]⟩
  | succ h ih =>
    unfold lookupDown
    have hchild := hn.node_inv.2.2.1 (offset index (h + 1))
    obtain ⟨hslot, -⟩ | ⟨n', hslot⟩ := hchild.succ_cases
    · exact ⟨none, by simp [hslot], by simp [view_node, hslot], by simp⟩
    · rw [hslot] at hchild
      obtain ⟨r, heq, hview, hway⟩ := ih hchild (way ++ [offset index (h + 1)])
      refine ⟨r, by simp [hslot, heq], ?_, fun w hw => ?_⟩
      · rw [hview, view_node (h := h + 1), hslot]
      · obtain ⟨w', hw', hread⟩ := hway w hw
        exact ⟨offset index (h + 1) :: w', by simp [hw'], by simpa [Tree.read, hslot] using hread⟩

/-- `radix_tree_lookup_element`: the item of the index and the slot that holds it. -/
theorem lookupElement_spec (hroot : root.Sound) (index : ℕ) :
    ∃ r, radixTreeLookupElement index root = some r ∧
      r.map Prod.snd = (root.view index).map Prod.fst ∧
      ∀ w ∈ r, root.rnode.read w.1 = .item w.2 := by
  unfold radixTreeLookupElement Root.view
  cases hh : root.height with
  | zero =>
    have htree := hroot.tree
    rw [hh] at htree
    obtain ⟨hrnode, -⟩ | ⟨x, hrnode⟩ := htree.zero_cases
    · exact ⟨none, by simp [hrnode], by simp [hrnode], by simp⟩
    · have hmax : radixTreeMaxindex 0 = 0 := rfl
      by_cases hi : index > 0
      · exact ⟨none, by simp [hrnode, hi], by simp [hmax, Nat.ne_of_gt hi], by simp⟩
      · refine ⟨some ([], x), by simp [hrnode, hi], ?_, ?_⟩
        · simp [hrnode, hmax, show index ≤ 0 by omega]
        · rintro w ⟨⟩
          exact hrnode
  | succ h =>
    have htree := hroot.tree
    rw [hh] at htree
    obtain ⟨hrnode, -⟩ | ⟨n, hrnode⟩ := htree.succ_cases
    · exact ⟨none, by simp [hrnode], by simp [hrnode], by simp⟩
    · rw [hrnode] at htree
      have hheight := htree.node_inv.1
      by_cases hi : index > radixTreeMaxindex (h + 1)
      · exact ⟨none, by simp [hrnode, hheight, hi], by simp [hi], by simp⟩
      · obtain ⟨r, heq, hview, hway⟩ := lookupDown_spec index htree []
        refine ⟨r, by simp [hrnode, hheight, hi, heq], ?_, fun w hw => ?_⟩
        · rw [hview, if_pos (by omega), hrnode]
        · obtain ⟨w', hw', hread⟩ := hway w hw
          rw [hw', hrnode, List.nil_append, hread]

end AndroidKernel.RadixTree
