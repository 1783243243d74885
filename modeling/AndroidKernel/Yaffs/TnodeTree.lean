import AndroidKernel.Yaffs.Tnode

/-!
# The map of a yaffs file

The tree of tnodes stands for a map from chunks to chunk groups. Loading an entry changes the map at
one chunk, and adding or pruning tnodes does not change it.
-/

namespace AndroidKernel.Yaffs

open Digits Function List Nat

variable {g : Geometry} {fs fs' : FileStructure} {l id i j : ℕ} {tn tn' : Tnode} {words : Words}
  {child : Fin 8 → Tnode}

/-- The chunk group of a chunk: that of its tnode of level 0, or zero if there is none. -/
def chunkGroup (g : Geometry) (fs : FileStructure) (chunkId : ℕ) : Option (BitVec 32) :=
  (findLevel0Tnode fs chunkId).bind fun
    | .null => some 0
    | .level0 words => some (getChunkGroup g words chunkId)
    | .internal _ => none

/-- The chunk groups under a tnode of the given level. -/
def view (g : Geometry) : ℕ → Tnode → ℕ → BitVec 32
  | 0, .level0 words, i => getChunkGroup g words i
  | l + 1, .internal child, i => view g l (child (slot l i)) i
  | _, _, _ => 0

/-- The tnodes are of the kind that their level says. -/
def Sound : ℕ → Tnode → Prop
  | 0, tn => tn = .null ∨ ∃ words, tn = .level0 words
  | l + 1, tn => tn = .null ∨ ∃ child, tn = .internal child ∧ ∀ i, Sound l (child i)

/-- The way to the first chunk is there. -/
def Rooted : ℕ → Tnode → Prop
  | 0, tn => tn ≠ .null
  | l + 1, tn => ∃ child, tn = .internal child ∧ Rooted l (child firstSlot)

/-- The tree is in order. -/
structure Intact (fs : FileStructure) : Prop where
  le : fs.topLevel ≤ maxLevel
  sound : Sound fs.topLevel fs.top
  rooted : Rooted fs.topLevel fs.top

/-- The map that the tree stands for. -/
def mapOf (g : Geometry) (fs : FileStructure) (i : ℕ) : BitVec 32 :=
  if i ≤ maxChunkId ∧ i / 16 < 8 ^ fs.topLevel then view g fs.topLevel fs.top i else 0

section Slots

theorem slot_val (l i : ℕ) : (slot l i).val = digit 8 l (i / 16) := by
  have hpow : 2 ^ (4 + l * 3) = 16 * 8 ^ l := by
    rw [pow_add, Nat.mul_comm l, pow_mul]
    rfl
  have hand : i / 2 ^ (4 + l * 3) &&& 7 = i / 2 ^ (4 + l * 3) % 8 := and_two_pow_sub_one_eq_mod _ 3
  change i >>> (4 + l * 3) &&& 7 = digit 8 l (i / 16)
  rw [digit, shiftRight_eq_div_pow, hand, hpow, Nat.div_div_eq_div_mul]

/-- Two chunks take the same way down when their tnodes of level 0 have the same digits. -/
theorem modEq_succ_iff (l i j : ℕ) : i / 16 ≡ j / 16 [MOD 8 ^ (l + 1)] ↔
    slot l i = slot l j ∧ i / 16 ≡ j / 16 [MOD 8 ^ l] := by
  rw [modEq_succ (by decide), Fin.ext_iff, slot_val, slot_val]

theorem tallness_le_iff {n : ℕ} (hi : i < 8 ^ n) (l : ℕ) : tallness n i ≤ l ↔ i < 8 ^ l := by
  induction n generalizing i l with
  | zero =>
    have hzero : i = 0 := by simpa using hi
    simp [tallness, hzero]
  | succ n ih =>
    rw [tallness]
    by_cases hzero : i = 0
    · simp [hzero]
    · have hshift : i >>> 3 = i / 8 := shiftRight_eq_div_pow i 3
      have hlt : i / 8 < 8 ^ n := Nat.div_lt_of_lt_mul (by rwa [← pow_succ'])
      rw [if_neg hzero, hshift]
      cases l with
      | zero =>
        simp only [pow_zero]
        omega
      | succ l => rw [add_le_add_iff_right, ih hlt, div_lt_iff_lt_mul (by decide), pow_succ]

theorem requiredTallness_le_iff (hi : i ≤ maxChunkId) (l : ℕ) :
    requiredTallness i ≤ l ↔ i / 16 < 8 ^ l := by
  have hshift : i >>> 4 = i / 16 := shiftRight_eq_div_pow i 4
  rw [requiredTallness, hshift, tallness_le_iff]
  have hmax : maxChunkId = 1048575 := rfl
  omega

end Slots

section Views

variable (g)

theorem view_null (l i : ℕ) : view g l .null i = 0 := by
  cases l <;> rfl

theorem sound_null (l : ℕ) : Sound l .null := by
  cases l <;> exact .inl rfl

theorem sound_blank (l : ℕ) : Sound l (.blank l) := by
  cases l with
  | zero => exact .inr ⟨_, rfl⟩
  | succ l => exact .inr ⟨_, rfl, fun _ => sound_null l⟩

theorem view_blank (l i : ℕ) : view g l (.blank l) i = 0 := by
  cases l with
  | zero => exact getChunkGroup_of_zero (fun _ _ => rfl) i
  | succ l => exact view_null g l i

theorem isNull_iff : tn.isNull = true ↔ tn = .null := by
  cases tn <;> simp [Tnode.isNull]

/-- The way down ends at the tnode with the entry of the chunk, or where there is none. -/
theorem findDown_spec (id : ℕ) (h : Sound l tn) : ∃ r, findDown id l tn = some r ∧ Sound 0 r ∧
      ∀ i, i / 16 ≡ id / 16 [MOD 8 ^ l] → view g 0 r i = view g l tn i := by
  induction l generalizing tn with
  | zero => exact ⟨tn, rfl, h, fun _ _ => rfl⟩
  | succ l ih =>
    rcases h with rfl | ⟨child, rfl, hchild⟩
    · exact ⟨.null, rfl, sound_null 0, fun i _ => by rw [view_null, view_null]⟩
    · obtain ⟨r, hfind, hr, hview⟩ := ih (hchild (slot l id))
      refine ⟨r, hfind, hr, fun i hi => ?_⟩
      obtain ⟨hslot, hlow⟩ := (modEq_succ_iff l i id).mp hi
      rw [hview i hlow, view, hslot]

theorem chunkGroup_eq (h : Intact fs) (id : ℕ) : chunkGroup g fs id = some (mapOf g fs id) := by
  have hle := h.le
  rw [chunkGroup, findLevel0Tnode, if_neg (Nat.not_lt.mpr hle), mapOf]
  by_cases hid : id > maxChunkId
  · rw [if_pos hid, if_neg fun hand => Nat.not_le.mpr hid hand.1]
    rfl
  · have htall := requiredTallness_le_iff (Nat.not_lt.mp hid) fs.topLevel
    rw [if_neg hid]
    by_cases hreq : requiredTallness id > fs.topLevel
    · rw [if_pos hreq, if_neg fun hand => Nat.not_le.mpr hreq (htall.mpr hand.2)]
      rfl
    · rw [if_neg hreq, if_pos ⟨Nat.not_lt.mp hid, htall.mp (Nat.not_lt.mp hreq)⟩]
      obtain ⟨r, hfind, hr, hview⟩ := findDown_spec g id h.sound
      rw [hfind, ← hview id rfl]
      rcases hr with rfl | ⟨words, rfl⟩
      · rfl
      · rfl

end Views

section Loading

theorem modifyDown_spec (g : Geometry) (id : ℕ) (f : Words → Words) (h : Sound l tn)
    (hfind : findDown id l tn = some (.level0 words)) :
    Sound l (modifyDown id f l tn) ∧ (Rooted l tn → Rooted l (modifyDown id f l tn)) ∧
      ∀ i, view g l (modifyDown id f l tn) i =
        if i / 16 ≡ id / 16 [MOD 8 ^ l] then getChunkGroup g (f words) i else view g l tn i := by
  induction l generalizing tn with
  | zero =>
    obtain rfl := Option.some_inj.mp hfind
    refine ⟨.inr ⟨_, rfl⟩, fun _ => by simp [modifyDown, Rooted], fun i => ?_⟩
    rw [if_pos (by rw [pow_zero]; exact modEq_one)]
    rfl
  | succ l ih =>
    rcases h with rfl | ⟨child, rfl, hchild⟩
    · cases hfind
    · obtain ⟨hsound, hrooted, hview⟩ := ih (hchild (slot l id)) hfind
      refine ⟨.inr ⟨_, rfl, fun x => ?_⟩, ?_, fun i => ?_⟩
      · by_cases hx : x = slot l id
        · rw [hx, update_self]
          exact hsound
        · rw [update_of_ne hx]
          exact hchild x
      · rintro ⟨c, hc, hroot⟩
        cases hc
        refine ⟨_, rfl, ?_⟩
        by_cases hx : firstSlot = slot l id
        · rw [hx, update_self]
          exact hrooted (hx ▸ hroot)
        · rw [update_of_ne hx]
          exact hroot
      · rw [modifyDown, view]
        by_cases hx : slot l i = slot l id
        · rw [hx, update_self, hview]
          simp [modEq_succ_iff, hx, view]
        · rw [update_of_ne hx, if_neg fun hmod => hx ((modEq_succ_iff l i id).mp hmod).1]
          rfl

end Loading

section Adding

variable {rest allocs : List Bool} {passed : Option Words} {r : Bool × Tnode}

/-- What the way down with missing tnodes added gives: the entries are as before, but for those of a
passed tnode. -/
structure Added (g : Geometry) (passed : Option Words) (id l : ℕ) (tn : Tnode) (r : Bool × Tnode) :
    Prop where
  sound : Sound l r.2
  rooted : Rooted l tn → Rooted l r.2
  present : r.1 = true → ∃ words, findDown id l r.2 = some (.level0 words)
  same : ∀ i, view g l r.2 i =
    match passed with
    | some words =>
      if r.1 = true ∧ i / 16 ≡ id / 16 [MOD 8 ^ l] then getChunkGroup g words i else view g l tn i
    | none => view g l tn i

theorem orNew_spec (g : Geometry) (h : Sound l tn) (heq : orNew l tn allocs = (some tn', rest)) :
    Sound l tn' ∧ tn' ≠ .null ∧ (Rooted l tn → Rooted l tn') ∧
      ∀ i, view g l tn' i = view g l tn i := by
  unfold orNew at heq
  split_ifs at heq with hnull halloc
  · obtain rfl := isNull_iff.mp hnull
    obtain ⟨rfl, -⟩ : Tnode.blank l = tn' ∧ allocs.tail = rest := by simpa using heq
    refine ⟨sound_blank l, ?_, fun hroot => ?_, fun i => by rw [view_blank, view_null]⟩
    · cases l <;> simp [Tnode.blank]
    · cases l with
      | zero => exact absurd rfl hroot
      | succ l =>
        obtain ⟨c, hc, -⟩ := hroot
        cases hc
  · simp at heq
  · obtain ⟨rfl, -⟩ : tn = tn' ∧ allocs = rest := by simpa using heq
    exact ⟨h, fun he => hnull (isNull_iff.mpr he), id, fun _ => rfl⟩

theorem Added.lift (hchild : ∀ x, Sound l (child x))
    (h : Added g passed id l (child (slot l id)) r) :
    Added g passed id (l + 1) (.internal child)
      (r.1, .internal (update child (slot l id) r.2)) where
  sound := by
    refine .inr ⟨_, rfl, fun x => ?_⟩
    by_cases hx : x = slot l id
    · rw [hx, update_self]
      exact h.sound
    · rw [update_of_ne hx]
      exact hchild x
  rooted := by
    rintro ⟨c, hc, hroot⟩
    cases hc
    refine ⟨_, rfl, ?_⟩
    by_cases hx : firstSlot = slot l id
    · rw [hx, update_self]
      exact h.rooted (hx ▸ hroot)
    · rw [update_of_ne hx]
      exact hroot
  present hr := by
    obtain ⟨words, hfind⟩ := h.present hr
    refine ⟨words, ?_⟩
    rw [findDown, update_self]
    exact hfind
  same i := by
    have hsame := h.same i
    simp only [view]
    by_cases hx : slot l i = slot l id
    · rw [hx, update_self, hsame]
      simp [modEq_succ_iff, hx]
    · rw [update_of_ne hx]
      cases passed with
      | none => rfl
      | some words =>
        simp only
        rw [if_neg fun hand => hx ((modEq_succ_iff l i id).mp hand.2).1]

theorem Added.of_orNew (htn : Sound l tn) (heq : orNew l tn allocs = (some tn', rest))
    (h : Added g passed id l tn' r) : Added g passed id l tn r := by
  obtain ⟨-, -, hroot, hview⟩ := orNew_spec g htn heq
  refine ⟨h.sound, fun hr => h.rooted (hroot hr), h.present, fun i => ?_⟩
  rw [h.same i]
  cases passed <;> simp only [hview]

theorem Added.refl (passed : Option Words) (h : Sound l tn) :
    Added g passed id l tn (false, tn) := by
  refine ⟨h, fun hr => hr, fun hr => (nomatch hr), fun i => ?_⟩
  cases passed with
  | none => rfl
  | some words => exact (if_neg fun hand => Bool.false_ne_true hand.1).symm

theorem addDown_spec (g : Geometry) (passed : Option Words) (id : ℕ) (h : Sound (l + 1) tn)
    (hne : tn ≠ .null) (allocs : List Bool) :
    ∃ r, addDown passed id (l + 1) tn allocs = some r ∧ Added g passed id (l + 1) tn r := by
  induction l generalizing tn allocs with
  | zero =>
    obtain ⟨child, rfl, hchild⟩ := h.resolve_left hne
    have hx := hchild (slot 0 id)
    rw [addDown]
    cases passed with
    | some words =>
      refine ⟨_, rfl, Added.lift hchild ⟨.inr ⟨_, rfl⟩, fun _ => ?_, fun _ => ⟨words, rfl⟩, ?_⟩⟩
      · simp [Rooted]
      · intro i
        exact (if_pos ⟨rfl, by rw [pow_zero]; exact modEq_one⟩).symm
    | none =>
      cases hnew : orNew 0 (child (slot 0 id)) allocs with
      | mk c rest =>
        rw [childAt, hnew]
        cases c with
        | none => exact ⟨_, rfl, .refl _ (.inr ⟨_, rfl, hchild⟩)⟩
        | some tn' =>
          obtain ⟨hs, hne', -, -⟩ := orNew_spec g hx hnew
          obtain ⟨words, rfl⟩ := hs.resolve_left hne'
          refine ⟨_, rfl, Added.lift hchild (.of_orNew hx hnew
            ⟨hs, fun _ => hne', fun _ => ⟨words, rfl⟩, fun _ => rfl⟩)⟩
  | succ l ih =>
    obtain ⟨child, rfl, hchild⟩ := h.resolve_left hne
    have hx := hchild (slot (l + 1) id)
    rw [addDown, childAt]
    cases hnew : orNew (l + 1) (child (slot (l + 1) id)) allocs with
    | mk c rest =>
      cases c with
      | none => exact ⟨_, rfl, .refl _ (.inr ⟨_, rfl, hchild⟩)⟩
      | some tn' =>
        obtain ⟨hs, hne', -, -⟩ := orNew_spec g hx hnew
        obtain ⟨r, hadd, hr⟩ := ih hs hne' rest
        simp only [hadd, Option.map_some]
        exact ⟨_, rfl, Added.lift hchild (.of_orNew hx hnew hr)⟩

theorem Rooted.ne_null (h : Rooted l tn) : tn ≠ .null := by
  cases l with
  | zero => exact h
  | succ l =>
    obtain ⟨child, rfl, -⟩ := h
    exact fun hnull => by cases hnull

theorem Intact.taller (h : Intact fs) (hlt : fs.topLevel < maxLevel) :
    Intact ⟨fs.topLevel + 1, .internal (update (fun _ => .null) firstSlot fs.top)⟩ where
  le := hlt
  sound := by
    refine .inr ⟨_, rfl, fun x => ?_⟩
    by_cases hx : x = firstSlot
    · rw [hx, update_self]
      exact h.sound
    · rw [update_of_ne hx]
      exact sound_null _
  rooted := ⟨_, rfl, by rw [update_self]; exact h.rooted⟩

theorem slot_eq_firstSlot_iff (hi : i / 16 < 8 ^ (l + 1)) :
    slot l i = firstSlot ↔ i / 16 < 8 ^ l := by
  rw [Fin.ext_iff, slot_val, ← digit_eq_zero_iff hi]
  rfl

theorem mapOf_taller (g : Geometry) (fs : FileStructure) :
    mapOf g ⟨fs.topLevel + 1, .internal (update (fun _ => .null) firstSlot fs.top)⟩ =
      mapOf g fs := by
  funext i
  have hpow : 8 ^ fs.topLevel < 8 ^ (fs.topLevel + 1) :=
    Nat.pow_lt_pow_right (by decide) (lt_succ_self _)
  simp only [mapOf, view]
  by_cases hi : i ≤ maxChunkId ∧ i / 16 < 8 ^ (fs.topLevel + 1)
  · rw [if_pos hi]
    by_cases hx : slot fs.topLevel i = firstSlot
    · rw [hx, update_self, if_pos ⟨hi.1, (slot_eq_firstSlot_iff hi.2).mp hx⟩]
    · rw [update_of_ne hx, view_null,
        if_neg fun hand => hx ((slot_eq_firstSlot_iff hi.2).mpr hand.2)]
  · rw [if_neg hi, if_neg fun hand => hi ⟨hand.1, hand.2.trans hpow⟩]

theorem grow_spec (g : Geometry) (n : ℕ) (h : Intact fs) (hn : fs.topLevel + n ≤ maxLevel)
    (allocs : List Bool) :
    Intact (grow n fs allocs).2.1 ∧ mapOf g (grow n fs allocs).2.1 = mapOf g fs ∧
      ((grow n fs allocs).1 = true → (grow n fs allocs).2.1.topLevel = fs.topLevel + n) := by
  induction n generalizing fs allocs with
  | zero => exact ⟨h, rfl, fun _ => rfl⟩
  | succ n ih =>
    rw [grow]
    split_ifs
    · obtain ⟨hintact, hmap, hlevel⟩ := ih (h.taller (by omega)) (by simp only; omega) allocs.tail
      refine ⟨hintact, hmap.trans (mapOf_taller g fs), fun ht => ?_⟩
      rw [hlevel ht]
      simp only
      omega
    · exact ⟨h, rfl, fun hf => by cases hf⟩

/-- What `yaffs_AddOrFindLevel0Tnode` does to the map: nothing, or it puts the entries of the passed
tnode in place. -/
def mapAdded (g : Geometry) (passed : Option Words) (id : ℕ) (ok : Bool) (m : ℕ → BitVec 32)
    (i : ℕ) : BitVec 32 :=
  match passed with
  | some words => if ok = true ∧ i / 16 = id / 16 then getChunkGroup g words i else m i
  | none => m i

section

variable (g : Geometry) (passed : Option Words)

theorem mapAdded_false (id : ℕ) (m : ℕ → BitVec 32) : mapAdded g passed id false m = m := by
  funext i
  cases passed with
  | none => rfl
  | some words => simp [mapAdded]

theorem addTall_spec (h : Intact fs) (hid : id ≤ maxChunkId) (htall : id / 16 < 8 ^ fs.topLevel)
    (allocs : List Bool) :
    ∃ ok fs', addTall g id passed allocs fs = some (ok, fs') ∧ Intact fs' ∧
      fs'.topLevel = fs.topLevel ∧
      (ok = true → ∃ words, findDown id fs'.topLevel fs'.top = some (.level0 words)) ∧
      mapOf g fs' = mapAdded g passed id ok (mapOf g fs) := by
  obtain ⟨level, top⟩ := fs
  have hne := h.rooted.ne_null
  have hmax : maxChunkId = 1048575 := rfl
  cases level with
  | zero =>
    obtain ⟨old, hold⟩ := h.sound.resolve_left hne
    simp only at hold
    subst hold
    cases passed with
    | none => exact ⟨true, _, rfl, h, rfl, fun _ => ⟨old, rfl⟩, rfl⟩
    | some words =>
      refine ⟨true, _, rfl, ⟨h.le, .inr ⟨_, rfl⟩, fun hnull => by cases hnull⟩, rfl,
        fun _ => ⟨_, rfl⟩, ?_⟩
      funext i
      simp only [pow_zero, lt_one_iff] at htall
      simp only [mapOf, mapAdded, view, htall, true_and, pow_zero, lt_one_iff]
      by_cases hi : i / 16 = 0
      · rw [if_pos ⟨by omega, hi⟩, if_pos hi]
        exact getChunkGroup_congr (fun k hk => if_pos hk) i
      · rw [if_neg fun hand => hi hand.2, if_neg hi, if_neg fun hand => hi hand.2]
  | succ l =>
    obtain ⟨r, hadd, hr⟩ := addDown_spec g passed id h.sound hne allocs
    refine ⟨r.1, ⟨l + 1, r.2⟩, ?_, ⟨h.le, hr.sound, hr.rooted h.rooted⟩, rfl, hr.present, ?_⟩
    · simp [addTall, hadd]
    · funext i
      simp only [mapOf, mapAdded, hr.same i]
      simp only at htall
      by_cases hi : i ≤ maxChunkId ∧ i / 16 < 8 ^ (l + 1)
      · rw [if_pos hi, if_pos hi]
        cases passed with
        | none => rfl
        | some words =>
          have hiff : i / 16 ≡ id / 16 [MOD 8 ^ (l + 1)] ↔ i / 16 = id / 16 :=
            ⟨eq_of_modEq hi.2 htall, fun heq => by rw [heq]⟩
          simp only [hiff]
      · rw [if_neg hi, if_neg hi]
        cases passed with
        | none => rfl
        | some words =>
          exact (if_neg fun hand : r.1 = true ∧ i / 16 = id / 16 =>
            hi ⟨by omega, hand.2 ▸ htall⟩).symm

theorem addOrFind_spec (h : Intact fs) (id : ℕ) (allocs : List Bool) :
    ∃ ok fs', addOrFindLevel0Tnode g id passed allocs fs = some (ok, fs') ∧ Intact fs' ∧
      (ok = true → ∃ words, findLevel0Tnode fs' id = some (.level0 words)) ∧
      mapOf g fs' = mapAdded g passed id ok (mapOf g fs) := by
  have hmax : maxChunkId = 1048575 := rfl
  have hlevel : maxLevel = 6 := rfl
  rw [addOrFindLevel0Tnode, if_neg (Nat.not_lt.mpr h.le)]
  by_cases hid : id > maxChunkId
  · rw [if_pos hid]
    exact ⟨false, fs, rfl, h, fun hf => (nomatch hf), (mapAdded_false g passed id _).symm⟩
  · rw [if_neg hid]
    have hid' := Nat.not_lt.mp hid
    have hreq : requiredTallness id ≤ maxLevel := by
      rw [requiredTallness_le_iff hid', hlevel]
      omega
    have hle := h.le
    obtain ⟨hintact, hmap, hgrown⟩ :=
      grow_spec g (requiredTallness id - fs.topLevel) h (by omega) allocs
    cases hr : grow (requiredTallness id - fs.topLevel) fs allocs with
    | mk grown r =>
      obtain ⟨fs₁, rest⟩ := r
      rw [hr] at hintact hmap hgrown
      simp only at hintact hmap hgrown
      cases grown with
      | false =>
        exact ⟨false, fs₁, rfl, hintact, fun hf => (nomatch hf),
          hmap.trans (mapAdded_false g passed id _).symm⟩
      | true =>
        have htall : requiredTallness id ≤ fs₁.topLevel := by
          rw [hgrown rfl]
          omega
        obtain ⟨ok, fs', hadd, hintact', hsame, hpresent, hmap'⟩ :=
          addTall_spec g passed hintact hid'
          ((requiredTallness_le_iff hid' _).mp htall) rest
        refine ⟨ok, fs', hadd, hintact', fun hok => ?_, hmap ▸ hmap'⟩
        obtain ⟨words, hfind⟩ := hpresent hok
        refine ⟨words, ?_⟩
        rw [findLevel0Tnode, if_neg (Nat.not_lt.mpr hintact'.le), if_neg hid,
          if_neg (by rw [hsame]; exact Nat.not_lt.mpr htall), hfind]

end

end Adding

section Pruning

section

variable (g : Geometry)

/-- Pruning keeps the entries, and the way to the first chunk unless that may be deleted too. -/
theorem pruneWorker_spec (h : Sound l tn) (del0 : Bool) : Sound l (pruneWorker g l tn del0) ∧
      (del0 = false → Rooted l tn → Rooted l (pruneWorker g l tn del0)) ∧
      ∀ i, view g l (pruneWorker g l tn del0) i = view g l tn i := by
  induction l generalizing tn del0 with
  | zero =>
    rcases h with rfl | ⟨words, rfl⟩
    · exact ⟨.inl rfl, fun _ hr => hr, fun _ => rfl⟩
    · simp only [pruneWorker]
      split_ifs with hempty
      · rw [Bool.and_eq_true, all_eq_true] at hempty
        refine ⟨.inl rfl, fun hdel => ?_, fun i => ?_⟩
        · rw [hdel] at hempty
          exact absurd hempty.2 Bool.false_ne_true
        · refine (getChunkGroup_of_zero (fun k hk => ?_) i).symm
          exact beq_iff_eq.mp (hempty.1 k (List.mem_range.mpr hk))
      · exact ⟨.inr ⟨_, rfl⟩, fun _ hr => hr, fun _ => rfl⟩
  | succ l ih =>
    rcases h with rfl | ⟨child, rfl, hchild⟩
    · exact ⟨.inl rfl, fun _ hr => hr, fun _ => rfl⟩
    · simp only [pruneWorker]
      split_ifs with hempty
      · rw [Bool.and_eq_true, all_eq_true] at hempty
        refine ⟨.inl rfl, fun hdel => ?_, fun i => ?_⟩
        · rw [hdel] at hempty
          exact absurd hempty.2 Bool.false_ne_true
        · have hnull := isNull_iff.mp (hempty.1 (slot l i) (mem_finRange _))
          rw [view_null, view, ← (ih (hchild (slot l i)) _).2.2 i, hnull, view_null]
      · refine ⟨.inr ⟨_, rfl, fun x => (ih (hchild x) _).1⟩, ?_,
          fun i => (ih (hchild (slot l i)) _).2.2 i⟩
        rintro hdel ⟨c, hc, hroot⟩
        cases hc
        refine ⟨_, rfl, ?_⟩
        simp only [if_true]
        exact (ih (hchild firstSlot) del0).2.1 hdel hroot

theorem mapOf_shorter (hnull : ∀ x, x ≠ firstSlot → child x = .null) :
    mapOf g ⟨l + 1, .internal child⟩ = mapOf g ⟨l, child firstSlot⟩ := by
  have hchild : child = update (fun _ => .null) firstSlot (child firstSlot) := by
    funext x
    by_cases hx : x = firstSlot
    · rw [hx, update_self]
    · rw [update_of_ne hx, hnull x hx]
  conv_lhs => rw [hchild]
  exact mapOf_taller g ⟨l, child firstSlot⟩

theorem shrink_spec (h : Intact ⟨l, tn⟩) :
    ∃ fs, shrink l tn = some fs ∧ Intact fs ∧ mapOf g fs = mapOf g ⟨l, tn⟩ := by
  induction l generalizing tn with
  | zero => exact ⟨_, rfl, h, rfl⟩
  | succ l ih =>
    obtain ⟨child, heq, hroot⟩ := h.rooted
    simp only at heq
    subst heq
    obtain ⟨c, hc, hsound⟩ := h.sound.resolve_left fun hnull => by cases hnull
    cases hc
    rw [shrink]
    split_ifs with hothers
    · rw [all_eq_true] at hothers
      have hnull (x : Fin 8) (hx : x ≠ firstSlot) : child x = .null := by
        have := hothers x (mem_finRange x)
        simp only [hx, decide_false, Bool.false_or] at this
        exact isNull_iff.mp this
      obtain ⟨fs, hshrink, hintact, hmap⟩ := ih ⟨(le_succ l).trans h.le, hsound firstSlot, hroot⟩
      exact ⟨fs, hshrink, hintact, hmap.trans (mapOf_shorter g hnull).symm⟩
    · exact ⟨_, rfl, h, rfl⟩

theorem prune_spec (h : Intact fs) :
    ∃ fs', pruneFileStructure g fs = some fs' ∧ Intact fs' ∧ mapOf g fs' = mapOf g fs := by
  rw [pruneFileStructure]
  split_ifs
  · obtain ⟨hsound, hrooted, hview⟩ := pruneWorker_spec g h.sound false
    have hpruned : Intact ⟨fs.topLevel, pruneWorker g fs.topLevel fs.top false⟩ :=
      ⟨h.le, hsound, hrooted rfl h.rooted⟩
    obtain ⟨fs', hshrink, hintact, hmap⟩ := shrink_spec g hpruned
    refine ⟨fs', hshrink, hintact, hmap.trans ?_⟩
    funext i
    simp only [mapOf, hview]
  · exact ⟨fs, rfl, h, rfl⟩

end

end Pruning

section Loads

theorem Intact.find_of_tall (h : Intact fs) (hid : id ≤ maxChunkId)
    (htall : id / 16 < 8 ^ fs.topLevel) :
    findLevel0Tnode fs id = findDown id fs.topLevel fs.top := by
  rw [findLevel0Tnode, if_neg (Nat.not_lt.mpr h.le), if_neg (Nat.not_lt.mpr hid),
    if_neg (Nat.not_lt.mpr ((requiredTallness_le_iff hid _).mpr htall))]

theorem loadChunk_spec (g : Geometry) (h : Intact fs) (id : ℕ) (val : BitVec 32) :
    ∃ fs', loadChunk g id val fs = some fs' ∧ Intact fs' ∧
      ((findLevel0Tnode fs id = some .null ∧ fs' = fs) ∨
        mapOf g fs' = update (mapOf g fs) id (val >>> g.chunkGroupBits &&& g.tnodeMask)) := by
  by_cases hthere : id ≤ maxChunkId ∧ id / 16 < 8 ^ fs.topLevel
  · have hfound := h.find_of_tall hthere.1 hthere.2
    obtain ⟨r, hfind, hr, hold⟩ := findDown_spec g id h.sound
    rw [loadChunk, hfound, hfind]
    rcases hr with rfl | ⟨words, rfl⟩
    · exact ⟨fs, rfl, h, .inl ⟨rfl, rfl⟩⟩
    · obtain ⟨hsound, hrooted, hview⟩ := modifyDown_spec g id
        (fun words => loadLevel0Tnode g words id val) h.sound hfind
      refine ⟨⟨fs.topLevel, modifyDown id (fun words => loadLevel0Tnode g words id val) fs.topLevel
        fs.top⟩, rfl, ⟨h.le, hsound, hrooted h.rooted⟩, .inr ?_⟩
      funext i
      by_cases hi : i = id
      · subst hi
        rw [update_self, mapOf, if_pos hthere, hview, if_pos (Nat.ModEq.refl _),
          getChunkGroup_load, if_pos rfl]
      · rw [update_of_ne hi]
        simp only [mapOf, hview]
        by_cases hin : i ≤ maxChunkId ∧ i / 16 < 8 ^ fs.topLevel
        · rw [if_pos hin, if_pos hin]
          by_cases hmod : i / 16 ≡ id / 16 [MOD 8 ^ fs.topLevel]
          · have hblock := eq_of_modEq hin.2 hthere.2 hmod
            rw [if_pos hmod, getChunkGroup_load, if_neg (by omega)]
            exact hold i hmod
          · rw [if_neg hmod]
        · rw [if_neg hin, if_neg hin]
  · have hnull : findLevel0Tnode fs id = some .null := by
      rw [findLevel0Tnode, if_neg (Nat.not_lt.mpr h.le)]
      by_cases hid : id > maxChunkId
      · rw [if_pos hid]
      · have htall := requiredTallness_le_iff (Nat.not_lt.mp hid) fs.topLevel
        rw [if_neg hid, if_pos (Nat.lt_of_not_le fun hle =>
          hthere ⟨Nat.not_lt.mp hid, htall.mp hle⟩)]
    refine ⟨fs, ?_, h, .inl ⟨hnull, rfl⟩⟩
    rw [loadChunk, hnull]
    rfl

end Loads

/-- The calls on the tree of a file. -/
inductive TnodeOp
  | add (chunkId : ℕ) (passed : Option Words) (allocs : List Bool)
  | load (chunkId : ℕ) (val : BitVec 32)
  | prune

/-- The tree after a call. -/
def TnodeOp.exec (g : Geometry) (fs : FileStructure) : TnodeOp → Option FileStructure
  | .add chunkId passed allocs => (addOrFindLevel0Tnode g chunkId passed allocs fs).map Prod.snd
  | .load chunkId val => loadChunk g chunkId val fs
  | .prune => pruneFileStructure g fs

/-- The tree after some calls, from that of a new file. -/
def tnodeRun (g : Geometry) (ops : List TnodeOp) : Option FileStructure :=
  ops.foldlM (fun fs op => op.exec g fs) ⟨0, .blank 0⟩

/-- The tree stands for the map `m`, and every call acts on the map as it should. -/
structure Mapped (g : Geometry) (fs : FileStructure) (m : ℕ → BitVec 32) : Prop where
  denotes (i : ℕ) : chunkGroup g fs i = some (m i)
  top : fs.top ≠ .null
  tall (i : ℕ) : m i ≠ 0 → requiredTallness i ≤ fs.topLevel
  absent (id : ℕ) : findLevel0Tnode fs id = some .null → ∀ i, i / 16 = id / 16 → m i = 0
  load (id : ℕ) (val : BitVec 32) :
    ∃ fs', loadChunk g id val fs = some fs' ∧ (findLevel0Tnode fs id ≠ some .null →
      val >>> g.chunkGroupBits &&& g.tnodeMask = val >>> g.chunkGroupBits →
      ∀ i, chunkGroup g fs' i = some (update m id (val >>> g.chunkGroupBits) i))
  add (id : ℕ) (passed : Option Words) (allocs : List Bool) :
    ∃ ok fs', addOrFindLevel0Tnode g id passed allocs fs = some (ok, fs') ∧
      (ok = true → findLevel0Tnode fs' id ≠ some .null) ∧
      ∀ i, chunkGroup g fs' i = some (mapAdded g passed id ok m i)
  prune : ∃ fs', pruneFileStructure g fs = some fs' ∧ ∀ i, chunkGroup g fs' i = some (m i)

section Runs

section

variable (g : Geometry) (h : Intact fs)
include h

theorem Intact.mapped : Mapped g fs (mapOf g fs) where
  denotes := chunkGroup_eq g h
  top := h.rooted.ne_null
  tall i hi := by
    by_contra hlt
    refine hi (if_neg fun hand => hlt ((requiredTallness_le_iff hand.1 _).mpr hand.2))
  absent id hnull i hi := by
    by_cases hin : i ≤ maxChunkId ∧ i / 16 < 8 ^ fs.topLevel
    · have hmax : maxChunkId = 1048575 := rfl
      obtain ⟨r, hfind, -, hview⟩ := findDown_spec g id h.sound
      rw [h.find_of_tall (by omega) (hi ▸ hin.2), hfind] at hnull
      obtain rfl := Option.some_inj.mp hnull
      rw [mapOf, if_pos hin, ← hview i (by rw [hi])]
      rfl
    · exact if_neg hin
  load id val := by
    obtain ⟨fs', hload, hintact, hcase⟩ := loadChunk_spec g h id val
    refine ⟨fs', hload, fun hfound hval i => ?_⟩
    rw [chunkGroup_eq g hintact, (hcase.resolve_left fun hand => hfound hand.1), hval]
  add id passed allocs := by
    obtain ⟨ok, fs', hadd, hintact, hpresent, hmap⟩ := addOrFind_spec g passed h id allocs
    refine ⟨ok, fs', hadd, fun hok => ?_, fun i => by rw [chunkGroup_eq g hintact, hmap]⟩
    obtain ⟨words, hfind⟩ := hpresent hok
    rw [hfind]
    exact fun heq => by cases heq
  prune := by
    obtain ⟨fs', hprune, hintact, hmap⟩ := prune_spec g h
    exact ⟨fs', hprune, fun i => by rw [chunkGroup_eq g hintact, hmap]⟩

theorem Intact.exec (op : TnodeOp) : ∃ fs', op.exec g fs = some fs' ∧ Intact fs' := by
  cases op with
  | add id passed allocs =>
    obtain ⟨ok, fs', hadd, hintact, -⟩ := addOrFind_spec g passed h id allocs
    exact ⟨fs', by rw [TnodeOp.exec, hadd]; rfl, hintact⟩
  | load id val =>
    obtain ⟨fs', hload, hintact, -⟩ := loadChunk_spec g h id val
    exact ⟨fs', hload, hintact⟩
  | prune =>
    obtain ⟨fs', hprune, hintact, -⟩ := prune_spec g h
    exact ⟨fs', hprune, hintact⟩

theorem Intact.run (ops : List TnodeOp) :
    ∃ fs', ops.foldlM (fun fs op => op.exec g fs) fs = some fs' ∧ Intact fs' := by
  induction ops generalizing fs with
  | nil => exact ⟨fs, rfl, h⟩
  | cons op ops ih =>
    obtain ⟨fs₁, hexec, h₁⟩ := h.exec g op
    obtain ⟨fs', hrun, h'⟩ := ih h₁
    refine ⟨fs', ?_, h'⟩
    rw [foldlM_cons, hexec]
    exact hrun

end

end Runs

/-- For every width and chunk-group setting and every sequence of calls: the tree stands for a total
map from chunks to chunk groups. Loading a value that fits changes one chunk; adding tnodes changes
none, but that a passed tnode puts its entries in place of the 16 that were there; pruning and
failed allocations change none. Where no tnode of level 0 is found its entries are zero, the tree is
tall enough for every entry that is not, and there is always a top. -/
theorem tnodes_denote_map (g : Geometry) (ops : List TnodeOp) :
    ∃ fs, tnodeRun g ops = some fs ∧ Mapped g fs (mapOf g fs) := by
  have hnew : Intact ⟨0, .blank 0⟩ := ⟨zero_le _, sound_blank 0, fun hnull => by cases hnull⟩
  obtain ⟨fs, hrun, hintact⟩ := hnew.run g ops
  exact ⟨fs, hrun, hintact.mapped g⟩

/-- Entries of 16 bits, and chunks without groups. -/
def sixteenBits : Geometry := ⟨16, 0, le_rfl, by decide, rfl⟩

/-- A passed tnode with entries changes the map. -/
theorem passed_tnode_changes_map : ∃ fs, addOrFindLevel0Tnode sixteenBits 0 (some fun _ => 1) []
    ⟨0, .blank 0⟩ = some (true, fs) ∧ chunkGroup sixteenBits ⟨0, .blank 0⟩ 0 = some 0 ∧
      chunkGroup sixteenBits fs 0 = some 1 :=
  ⟨_, rfl, by decide, by decide⟩

end AndroidKernel.Yaffs
