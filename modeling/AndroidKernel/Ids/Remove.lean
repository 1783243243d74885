import AndroidKernel.Ids.GetNew

/-!
# Ids found, replaced and removed

`idr_find` gives the pointer of an id, `idr_replace` puts another in its place, and `idr_remove`
takes an id out. A layer that loses its last entry goes, and so does a top layer with nothing but
its first.
-/

namespace AndroidKernel.Ids

open Digits Function Nat Layer Finset

variable {ι : Type} {h i j l id : ℕ} {b : Bool} {p : Layer (Slot ι)} {s : Slot ι} {idp : Idr ι}
  {ptr : Option ι}

section Find

/-- The loop of `idr_find` ends at the pointer of the id. -/
theorem findDown_spec (id : ℕ) (hs : Sound h s b) :
    ∃ t, findDown id h s = some t ∧ t.toPtr = some (view h s b id).join := by
  induction hs with
  | unused h =>
    refine ⟨.null, by cases h <;> rfl, ?_⟩
    rw [view_null_false]
    rfl
  | null => exact ⟨.null, rfl, rfl⟩
  | ptr x => exact ⟨.ptr x, rfl, rfl⟩
  | @layer h p b layer count ary full ih =>
    obtain ⟨t, hfind, ht⟩ := ih (offset id h)
    refine ⟨t, ?_, ht⟩
    rw [findDown, if_neg (not_not.mpr layer)]
    exact hfind

/-- `idr_find` gives the pointer of the id. -/
theorem idrFind_spec (h : idp.Intact) (hi : i < 2 ^ 31) :
    idrFind i idp = some (idp.map i).join := by
  rcases h.tree with htop | ⟨p, b, htop, hp⟩
  · rw [idrFind, htop, map_of_null htop]
    rfl
  · have hl := hp.height_eq
    simp only [idrFind, htop, mod_eq_of_lt hi]
    rw [one_shiftLeft, mul_comm, shift_eq, ← hl]
    by_cases hge : 32 ^ idp.layers ≤ i
    · rw [if_pos hge, Idr.map, if_neg (Nat.not_lt.mpr hge)]
      rfl
    · obtain ⟨t, hfind, ht⟩ := findDown_spec i hp
      rw [if_neg hge, hfind, map_of_lt idp hp htop (Nat.lt_of_not_le hge)]
      exact ht

end Find

section Replace

theorem Sound.toPtr (hs : Sound 0 s true) : ∃ x, s.toPtr = some x := by
  cases hs with
  | null => exact ⟨none, rfl⟩
  | ptr x => exact ⟨some x, rfl⟩

/-- What `idr_replace` did below an entry. -/
structure Replaced (id : ℕ) (ptr : Option ι) (h : ℕ) (s : Slot ι) (b : Bool)
    (r : Except ℤ (Option ι)) (s' : Slot ι) : Prop where
  sound : Sound h s' b
  null : s'.isNull = s.isNull
  outcome : (r = .error enoent ∧ view h s b id = none ∧ ∀ j, view h s' b j = view h s b j) ∨
    ∃ x, r = .ok x ∧ view h s b id = some x ∧
      ∀ j, view h s' b j = if j ≡ id [MOD 32 ^ h] then some ptr else view h s b j

theorem replaceDown_spec (id : ℕ) (ptr : Option ι) (hs : Sound (l + 1) s b) :
    ∃ r s', replaceDown id ptr l s = some (r, s') ∧ Replaced id ptr (l + 1) s b r s' := by
  induction l generalizing s b with
  | zero =>
    cases hs with
    | unused => exact ⟨_, _, rfl, .unused _, rfl, .inl ⟨rfl, rfl, fun _ => rfl⟩⟩
    | @layer _ p _ layer count ary full =>
      have ho := ary (offset id 0)
      cases hbit : p.bitmap (offset id 0) with
      | false =>
        refine ⟨_, _, by simp [replaceDown, hbit], .layer layer count ary full, rfl,
          .inl ⟨rfl, ?_, fun _ => rfl⟩⟩
        rw [view_layer, hbit]
        rfl
      | true =>
        rw [hbit] at ho
        obtain ⟨x, hx⟩ := ho.toPtr
        have hput : p.Put (offset id 0) (.ofPtr ptr) true (p.setAry (offset id 0) (.ofPtr ptr)) :=
          ⟨rfl, by rw [← hbit, update_eq_self]; rfl, rfl⟩
        refine ⟨.ok x, .layer (p.setAry (offset id 0) (.ofPtr ptr)),
          by simp [replaceDown, hbit, hx],
          ?_, rfl, .inr ⟨x, rfl, ?_, fun j => ?_⟩⟩
        · rw [full]
          exact hput.sound (.layer layer count ary full) (.ofPtr ptr) (by
            simp only [occupied, hbit]
            rfl)
        · rw [view_layer, hbit]
          exact hx
        · rw [hput.view (f := b)]
          simp only [modEq_succ_iff, pow_zero, modEq_one, and_true]
          simp [view]
  | succ l ih =>
    cases hs with
    | unused => exact ⟨_, _, rfl, .unused _, rfl, .inl ⟨rfl, rfl, fun _ => rfl⟩⟩
    | @layer _ p _ layer count ary full =>
      obtain ⟨r, s', heq, hrep⟩ := ih (ary (offset id (l + 1)))
      have hput : p.Put (offset id (l + 1)) s' (p.bitmap (offset id (l + 1)))
          (p.setAry (offset id (l + 1)) s') :=
        ⟨rfl, (update_eq_self _ _).symm, rfl⟩
      refine ⟨r, .layer (p.setAry (offset id (l + 1)) s'), by simp [replaceDown, heq], ?_, rfl, ?_⟩
      · rw [full]
        exact hput.sound (.layer layer count ary full) hrep.sound (by
          simp only [occupied, hrep.null]
          rfl)
      · rcases hrep.outcome with ⟨rfl, hnone, hsame⟩ | ⟨x, rfl, hx, hview⟩
        · refine .inl ⟨rfl, hnone, fun j => ?_⟩
          rw [hput.view (f := b)]
          split_ifs with ho
          · rw [hsame, view_layer, ho]
          · rfl
        · refine .inr ⟨x, rfl, hx, fun j => ?_⟩
          rw [hput.view (f := b), hview]
          simp only [modEq_succ_iff (h := l + 1)]
          by_cases ho : offset j (l + 1) = offset id (l + 1)
          · rw [if_pos ho, view_layer, ho]
            simp
          · rw [if_neg ho, if_neg fun hj => ho hj.1]

/-- `idr_replace` puts the pointer in the place of the old one and returns that, or fails when the
id is free. -/
theorem idrReplace_spec (ptr : Option ι) (h : idp.Intact) (hi : i < 2 ^ 31) :
    ∃ r idp', idrReplace i ptr idp = some (r, idp') ∧ idp'.Intact ∧
      (((∃ e, r = .error e) ∧ idp.map i = none ∧ idp'.map = idp.map) ∨
        ∃ x, r = .ok x ∧ idp.map i = some x ∧ idp'.map = update idp.map i (some ptr)) := by
  rcases h.tree with htop | ⟨p, b, htop, hp⟩
  · exact ⟨.error einval, idp, by rw [idrReplace, htop], h, .inl ⟨⟨_, rfl⟩, map_of_null htop, rfl⟩⟩
  · have hl := hp.height_eq
    simp only [idrReplace, htop, mod_eq_of_lt hi]
    rw [one_shiftLeft, mul_comm, shift_eq, ← hl]
    by_cases hge : 32 ^ idp.layers ≤ i
    · rw [if_pos hge]
      refine ⟨_, _, rfl, h, .inl ⟨⟨_, rfl⟩, ?_, rfl⟩⟩
      rw [Idr.map, if_neg (Nat.not_lt.mpr hge)]
    · have hlt := Nat.lt_of_not_le hge
      obtain ⟨r, s', heq, hrep⟩ := replaceDown_spec i ptr (hl ▸ hp)
      rw [if_neg hge, heq]
      rw [← hl] at hrep
      obtain ⟨p', rfl⟩ : ∃ p', s' = .layer p' := by
        have hs' := hrep.sound
        have hnull := hrep.null
        rw [hl] at hs'
        cases hs' with
        | unused => cases hnull
        | layer => exact ⟨_, rfl⟩
      refine ⟨r, { idp with top := .layer p' }, rfl,
        ⟨h.layers_le, .inr ⟨p', b, rfl, hrep.sound⟩, h.clean⟩, ?_⟩
      rw [map_of_lt idp hp htop hlt]
      rcases hrep.outcome with ⟨rfl, hnone, hsame⟩ | ⟨x, rfl, hx, hview⟩
      · refine .inl ⟨⟨_, rfl⟩, hnone, funext fun j => ?_⟩
        by_cases hj : j < 32 ^ idp.layers
        · rw [map_of_lt { idp with top := .layer p' } hrep.sound rfl hj, hsame,
            map_of_lt idp hp htop hj]
        · rw [Idr.map, Idr.map, if_neg hj, if_neg hj]
      · exact .inr ⟨x, rfl, hx, map_update hp htop hrep.sound hlt hview⟩

end Replace

section Remove

variable {p' : Layer (Slot ι)}

/-- What `sub_remove` did below an entry: the id is gone, and nothing else. -/
structure Removed (id : ℕ) (h : ℕ) (s : Slot ι) (b : Bool) (r : Slot ι × Removal) : Prop where
  sound : Sound h r.1 false
  shape : (r.2 = .emptied ∧ r.1 = .null) ∨ (r.2 = .kept ∧ ∃ p, r.1 = .layer p)
  view : ∀ j, view h r.1 false j = if j ≡ id [MOD 32 ^ h] then none else Ids.view h s b j

theorem Layer.Put.isFull_eq_false {o : Fin 32} (hput : p.Put o s false p') : p'.isFull = false := by
  rw [← Bool.not_eq_true]
  intro hfull
  have hbit := isFull_iff.mp hfull o
  rw [hput.bitmap, update_self] at hbit
  cases hbit

theorem Layer.Put.released (hput : p.Put (offset id l) .null false p')
    (hp : Sound (l + 1) (.layer p) b) (hcount : p'.count = p.count)
    (hused : occupied (p.ary (offset id l)) (p.bitmap (offset id l)) = 1)
    (hview : ∀ j, j ≡ id [MOD 32 ^ l] ∨
      Ids.view l (p.ary (offset id l)) (p.bitmap (offset id l)) j = none) :
    Removed id (l + 1) (.layer p) b p'.release := by
  have hput' : p.Put (offset id l) .null false { p' with count := p'.count - 1 } :=
    ⟨hput.ary, hput.bitmap, hput.layer⟩
  have hsound := hput'.sound hp (.unused l) (by
    rw [hused, hcount]
    simp [occupied])
  rw [hput'.isFull_eq_false] at hsound
  have hgone (j : ℕ) : Ids.view (l + 1) (.layer { p' with count := p'.count - 1 }) false j =
      if j ≡ id [MOD 32 ^ (l + 1)] then none else Ids.view (l + 1) (.layer p) b j := by
    rw [hput'.view (f := b)]
    simp only [modEq_succ_iff]
    by_cases ho : offset j l = offset id l
    · rw [if_pos ho, view_null_false]
      split_ifs with hmod
      · rfl
      · rw [view_layer, ho, (hview j).resolve_left fun h => hmod ⟨ho, h⟩]
    · rw [if_neg ho, if_neg fun h => ho h.1]
  simp only [release]
  split_ifs with hzero
  · refine ⟨.unused _, .inl ⟨rfl, rfl⟩, fun j => ?_⟩
    rw [← hgone, hsound.view_of_count hzero]
    rfl
  · exact ⟨hsound, .inr ⟨rfl, _, rfl⟩, hgone⟩

/-- The loops of `sub_remove` take an id out of a tree. -/
theorem removeDown_spec (hs : Sound (l + 1) s b) (hid : view (l + 1) s b id ≠ none) :
    ∃ r, removeDown id l s = some r ∧ Removed id (l + 1) s b r := by
  induction l generalizing s b with
  | zero =>
    cases hs with
    | unused => exact absurd rfl hid
    | @layer _ p _ layer count ary full =>
      have hbit : p.bitmap (offset id 0) = true := by
        by_contra hnot
        exact hid (by rw [view_layer, Bool.eq_false_iff.mpr hnot]; rfl)
      refine ⟨((p.setBit (offset id 0) false).setAry (offset id 0) .null).release,
        by rw [removeDown, if_pos hbit], ?_⟩
      have hput : p.Put (offset id 0) .null false
          ((p.setBit (offset id 0) false).setAry (offset id 0) .null) := ⟨rfl, rfl, rfl⟩
      exact hput.released (.layer layer count ary full) rfl (by simp [occupied, hbit])
        fun j => .inl (modEq_one)
  | succ l ih =>
    cases hs with
    | unused => exact absurd rfl hid
    | @layer _ p _ layer count ary full =>
      obtain ⟨⟨t, r⟩, heq, hrem⟩ := ih (ary (offset id (l + 1))) hid
      have hchild : occupied (p.ary (offset id (l + 1))) (p.bitmap (offset id (l + 1))) = 1 := by
        cases hary : p.ary (offset id (l + 1)) with
        | null => exact absurd (by rw [view_layer, hary]; rfl) hid
        | ptr | layer => simp [occupied]
      rcases hrem.shape with ⟨hr, ht⟩ | ⟨hr, q, ht⟩
      · obtain rfl : r = .emptied := hr
        obtain rfl : t = .null := ht
        have hput : p.Put (offset id (l + 1)) .null false
            ((p.setBit (offset id (l + 1)) false).setAry (offset id (l + 1)) .null) :=
              ⟨rfl, rfl, rfl⟩
        refine ⟨_, by rw [removeDown]; simp only [setBit, heq]; rfl,
          hput.released (.layer layer count ary full) rfl hchild fun j => ?_⟩
        have hj := hrem.view j
        by_cases hmod : j ≡ id [MOD 32 ^ (l + 1)]
        · exact .inl hmod
        · rw [if_neg hmod] at hj
          exact .inr hj.symm
      · obtain rfl : r = .kept := hr
        obtain rfl : t = .layer q := ht
        have hput : p.Put (offset id (l + 1)) (.layer q) false
            ((p.setBit (offset id (l + 1)) false).setAry (offset id (l + 1)) (.layer q)) :=
          ⟨rfl, rfl, rfl⟩
        refine ⟨(.layer
          ((p.setBit (offset id (l + 1)) false).setAry (offset id (l + 1)) (.layer q)),
          .kept), by rw [removeDown]; simp only [setBit, heq]; rfl, ?_, .inr ⟨rfl, _, rfl⟩,
          fun j => ?_⟩
        · have hsound := hput.sound (.layer layer count ary full) hrem.sound (by
            rw [hchild]
            rfl)
          rwa [hput.isFull_eq_false] at hsound
        · rw [hput.view (f := b), hrem.view]
          simp only [modEq_succ_iff (h := l + 1)]
          by_cases ho : offset j (l + 1) = offset id (l + 1)
          · rw [if_pos ho, view_layer, ho]
            simp
          · rw [if_neg ho, if_neg fun hj => ho hj.1]

/-- `sub_remove` takes out an id that is in the tree. -/
theorem subRemove_spec (h : idp.Intact) (hid : idp.map id ≠ none) :
    ∃ idp', subRemove id idp = some idp' ∧ idp'.Intact ∧ idp'.map = update idp.map id none := by
  rcases h.tree with htop | ⟨p, b, htop, hp⟩
  · exact absurd (map_of_null htop) hid
  · have hlt : id < 32 ^ idp.layers := by
      by_contra hge
      exact hid (if_neg hge)
    have hl := hp.height_eq
    have hview : view idp.layers (.layer p) b id ≠ none := by rwa [← map_of_lt idp hp htop hlt]
    have hl' : idp.layers - 1 = p.layer := by omega
    obtain ⟨⟨t, r⟩, heq, hrem⟩ := removeDown_spec (hl ▸ hp) (hl ▸ hview)
    rw [← hl] at hrem
    rcases hrem.shape with ⟨hr, ht⟩ | ⟨hr, q, ht⟩
    · obtain rfl : r = .emptied := hr
      obtain rfl : t = .null := ht
      refine ⟨⟨.null, 0, idp.idFree⟩, by simp [subRemove, htop, hl', heq],
        ⟨zero_le _, .inl rfl, h.clean⟩, funext fun j => ?_⟩
      rw [map_of_null rfl]
      by_cases hji : j = id
      · rw [hji, update_self]
      · rw [update_of_ne hji]
        by_cases hj : j < 32 ^ idp.layers
        · have hnone := hrem.view j
          rw [view_null_false, if_neg fun hmod => hji (eq_of_modEq hj hlt hmod)] at hnone
          rw [map_of_lt idp hp htop hj, ← hnone]
        · rw [Idr.map, if_neg hj]
    · obtain rfl : r = .kept := hr
      obtain rfl : t = .layer q := ht
      exact ⟨{ idp with top := .layer q }, by simp [subRemove, htop, hl', heq],
        ⟨h.layers_le, .inr ⟨q, false, rfl, hrem.sound⟩, h.clean⟩,
        map_update hp htop hrem.sound hlt hrem.view⟩

theorem Sound.single (hp : Sound (l + 1) (.layer p) b) (hcount : p.count = 1)
    (hzero : (p.ary 0).isNull = false) (o : Fin 32) (ho : o ≠ 0) :
    p.ary o = .null ∧ p.bitmap o = false := by
  cases hp with
  | layer layer count ary full =>
    have hused : p.used = 1 := by omega
    have hsum := add_sum_erase univ (fun o => occupied (p.ary o) (p.bitmap o)) (mem_univ 0)
    have hfirst : occupied (p.ary 0) (p.bitmap 0) = 1 := by simp [occupied, hzero]
    have hrest : ∑ o ∈ univ.erase 0, occupied (p.ary o) (p.bitmap o) = 0 := by
      rw [used] at hused
      simp only [hfirst] at hsum
      omega
    have hocc := sum_eq_zero_iff.mp hrest o (mem_erase.mpr ⟨ho, mem_univ o⟩)
    exact occupied_eq_zero_iff.mp hocc

theorem shrink_spec (h : idp.Intact) : (shrink idp).Intact ∧ (shrink idp).map = idp.map := by
  rcases h.tree with htop | ⟨p, b, htop, hp⟩
  · simp only [shrink, htop]
    exact ⟨h, trivial⟩
  · simp only [shrink, htop]
    split_ifs with hone
    · obtain ⟨hcount, hlayers, hnull⟩ := hone
      have hl := hp.height_eq
      obtain ⟨k, hk⟩ : ∃ k, p.layer = k + 1 := Nat.exists_eq_add_one.mpr (by omega)
      rw [hk] at hl
      rw [hl] at hp
      have hsingle := hp.single hcount hnull
      have hfirst : Sound (k + 1) (p.ary 0) (p.bitmap 0) := by
        cases hp with
        | layer layer count ary full => exact ary 0
      obtain ⟨q, hq⟩ : ∃ q, p.ary 0 = .layer q := by
        generalize p.ary 0 = t, p.bitmap 0 = f at hfirst hnull
        cases hfirst with
        | unused => cases hnull
        | layer => exact ⟨_, rfl⟩
      rw [hq] at hfirst ⊢
      have hle := h.layers_le
      refine ⟨⟨by simp only; omega, .inr ⟨q, p.bitmap 0, rfl, ?_⟩, h.clean⟩, funext fun j => ?_⟩
      · simp only [hl]
        exact hfirst
      · have hlt : 32 ^ (k + 1) < 32 ^ (k + 2) :=
          Nat.pow_lt_pow_right (by decide) (lt_succ_self _)
        simp only [Idr.map, htop, hl, Nat.add_sub_cancel]
        by_cases hj : j < 32 ^ (k + 2)
        · have hiff : offset j (k + 1) = 0 ↔ j < 32 ^ (k + 1) := by
            rw [Fin.ext_iff, offset_val]
            exact digit_eq_zero_iff hj
          rw [if_pos hj, view_layer (p := p)]
          by_cases ho : offset j (k + 1) = 0
          · rw [if_pos (hiff.mp ho), ho, hq]
            rfl
          · obtain ⟨hary, hbit⟩ := hsingle _ ho
            rw [if_neg (hiff.not.mp ho), hary, hbit, view_null_false]
        · rw [if_neg hj, if_neg (by omega)]
    · exact ⟨h, rfl⟩

theorem trimFree_blank {free : List (Layer (Slot ι))} (hfree : ∀ q ∈ free, q.Blank) :
    ∀ q ∈ trimFree free, q.Blank := by
  induction free with
  | nil => exact hfree
  | cons p free ih =>
    rw [trimFree]
    split_ifs
    · exact ih fun q hq => hfree q (List.mem_cons_of_mem _ hq)
    · exact hfree

/-- `idr_remove` takes out an id that is there. -/
theorem idrRemove_spec (h : idp.Intact) (hid : idp.map id ≠ none) (hlt : id < 2 ^ 31) :
    ∃ idp', idrRemove id idp = some idp' ∧ idp'.Intact ∧ idp'.map = update idp.map id none := by
  obtain ⟨idp₁, heq, hintact, hmap⟩ := subRemove_spec h hid
  obtain ⟨hintact', hmap'⟩ := shrink_spec hintact
  refine ⟨{ shrink idp₁ with idFree := trimFree (shrink idp₁).idFree }, ?_,
    ⟨hintact'.layers_le, hintact'.tree, trimFree_blank hintact'.clean⟩, ?_⟩
  · rw [idrRemove, mod_eq_of_lt hlt, heq]
    rfl
  · rw [← hmap, ← hmap']
    rfl

theorem Sound.bitmap_of_free (hp : Sound (l + 1) (.layer p) b)
    (hid : view (l + 1) (.layer p) b id = none) : p.bitmap (offset id l) = false := by
  cases hp with
  | layer layer count ary full =>
    by_contra htrue
    rw [Bool.not_eq_false] at htrue
    exact Sound.mapped_of_full (htrue ▸ ary (offset id l)) id (by rwa [view_layer, htrue] at hid)

/-- The loops of `sub_remove` leave a tree alone that does not have the id. -/
theorem removeDown_absent (hs : Sound (l + 1) s b) (hid : view (l + 1) s b id = none) :
    removeDown id l s = some (s, .warned) := by
  induction l generalizing s b with
  | zero =>
    cases hs with
    | unused => rfl
    | @layer _ p _ layer count ary full =>
      have hbit := (Sound.layer layer count ary full).bitmap_of_free hid
      simp [removeDown, hbit]
  | succ l ih =>
    cases hs with
    | unused => rfl
    | @layer _ p _ layer count ary full =>
      have hbit := (Sound.layer layer count ary full).bitmap_of_free hid
      have hclear : p.setBit (offset id (l + 1)) false = p := by rw [setBit, ← hbit, update_eq_self]
      have hsame : p.setAry (offset id (l + 1)) (p.ary (offset id (l + 1))) = p := by
        rw [setAry, update_eq_self]
      simp [removeDown, hclear, ih (ary (offset id (l + 1))) hid, hsame]

/-- `sub_remove` leaves the tree alone if the id is one of its range that is free. -/
theorem subRemove_absent (h : idp.Intact) (hrange : idp.top = .null ∨ id < 32 ^ idp.layers)
    (hid : idp.map id = none) : subRemove id idp = some idp := by
  rcases h.tree with htop | ⟨p, b, htop, hp⟩
  · have hnull (l : ℕ) : removeDown id l (.null : Slot ι) = some (.null, .warned) := by
      cases l <;> rfl
    simp only [subRemove, htop, hnull]
    simp [← htop]
  · have hlt := hrange.resolve_left (by simp [htop])
    have hl := hp.height_eq
    have hl' : idp.layers - 1 = p.layer := by omega
    rw [map_of_lt idp hp htop hlt] at hid
    simp only [subRemove, htop, hl', removeDown_absent (hl ▸ hp) (hl ▸ hid)]
    simp [← htop]

/-- `sub_remove` looks at the digits of the id up to the top layer only. -/
theorem removeDown_congr {l id' : ℕ} (h : id ≡ id' [MOD 32 ^ (l + 1)]) (s : Slot ι) :
    removeDown id l s = removeDown id' l s := by
  induction l generalizing s with
  | zero => cases s <;> simp only [removeDown, (modEq_succ_iff.mp h).1]
  | succ l ih =>
    obtain ⟨hdigit, hlow⟩ := modEq_succ_iff.mp h
    cases s <;> simp only [removeDown, hdigit, ih hlow]

/-- So an id beyond the range of the tree is taken for the one that it agrees with below. -/
theorem Idr.Intact.idrRemove_mod (h : idp.Intact) (htop : idp.top ≠ .null) (hlt : id < 2 ^ 31) :
    idrRemove id idp = idrRemove (id % 32 ^ idp.layers) idp := by
  obtain ⟨p, b, htop', hp⟩ := h.tree.resolve_left htop
  have hl := hp.height_eq
  have hle := mod_le id (32 ^ idp.layers)
  rw [idrRemove, idrRemove, mod_eq_of_lt hlt, mod_eq_of_lt (hle.trans_lt hlt), subRemove, subRemove,
    removeDown_congr]
  rw [Nat.sub_add_cancel (by omega)]
  exact (mod_modEq _ _).symm

/-- The removal of a free id of the range leaves the map, and the tree but for the shrinking. -/
theorem Idr.Intact.idrRemove_free (h : idp.Intact) (hlt : id < 2 ^ 31)
    (hrange : idp.top = .null ∨ id < 32 ^ idp.layers) (hid : idp.map id = none) :
    ∃ idp', idrRemove id idp = some idp' ∧ idp'.map = idp.map ∧ idp'.top = (shrink idp).top ∧
      idp'.layers = (shrink idp).layers := by
  refine ⟨{ shrink idp with idFree := trimFree (shrink idp).idFree }, ?_, (shrink_spec h).2,
    rfl, rfl⟩
  rw [idrRemove, mod_eq_of_lt hlt, subRemove_absent h hrange hid]
  rfl

theorem shrink_eq_iff : (shrink idp).top = idp.top ∧ (shrink idp).layers = idp.layers ↔
    shrink idp = idp := by
  refine ⟨fun h => ?_, fun h => by rw [h]; exact ⟨rfl, rfl⟩⟩
  unfold shrink at h ⊢
  split at h
  · split_ifs at h ⊢
    · have hlayers : idp.layers - 1 = idp.layers := h.2
      omega
    · rfl
  · rfl

/-- `idr_remove` removes the binding of the id, and nothing else; if it has none, the tree stays. -/
def Idr.RemovesOnly (idp : Idr ι) (id : ℕ) : Prop :=
  ∃ idp', idrRemove id idp = some idp' ∧ idp'.map = update idp.map id none ∧
    (idp.map id = none → idp'.top = idp.top ∧ idp'.layers = idp.layers)

/-- `idr_remove` touches nothing else exactly if the id is bound, or the tree is empty, or the id is
free even without its digits above the top layer, and the top layer has not nothing but its first
entry, with which it goes. -/
theorem idr_remove_touches_nothing_else {idp : Idr ι} (h : idp.Intact) {id : ℕ}
    (hlt : id < 2 ^ 31) : idp.RemovesOnly id ↔ idp.map id ≠ none ∨ idp.top = .null ∨
      idp.map (id % 32 ^ idp.layers) = none ∧ shrink idp = idp := by
  by_cases hid : idp.map id = none
  swap
  · obtain ⟨idp', heq, -, hmap⟩ := idrRemove_spec h hid hlt
    exact iff_of_true ⟨idp', heq, hmap, fun hnone => absurd hnone hid⟩ (.inl hid)
  have hsame : update idp.map id none = idp.map := by rw [← hid, update_eq_self]
  rw [or_iff_right (not_not_intro hid)]
  by_cases htop : idp.top = .null
  · obtain ⟨idp', heq, hmap, htop', hlayers⟩ := h.idrRemove_free hlt (.inl htop) hid
    have hfirm : shrink idp = idp := by rw [shrink, htop]
    rw [hfirm] at htop' hlayers
    exact iff_of_true ⟨idp', heq, hmap.trans hsame.symm, fun _ => ⟨htop', hlayers⟩⟩ (.inl htop)
  rw [or_iff_right htop, Idr.RemovesOnly, h.idrRemove_mod htop hlt, hsame]
  have hmod : id % 32 ^ idp.layers < 2 ^ 31 := (mod_le _ _).trans_lt hlt
  by_cases hfree : idp.map (id % 32 ^ idp.layers) = none
  · obtain ⟨idp', heq, hmap, htop', hlayers⟩ := h.idrRemove_free hmod
      (.inr (Nat.mod_lt _ (Nat.pow_pos (by decide)))) hfree
    rw [and_iff_right hfree, ← shrink_eq_iff, ← htop', ← hlayers, heq]
    exact ⟨fun ⟨_, hsome, _, hstay⟩ => Option.some.inj hsome ▸ hstay hid,
      fun hstay => ⟨idp', rfl, hmap, fun _ => hstay⟩⟩
  · -- another id is taken out
    obtain ⟨idp', heq, -, hmap⟩ := idrRemove_spec h hfree hmod
    refine iff_of_false (fun ⟨idp₁, hsome, hmap₁, _⟩ => hfree ?_) (fun hboth => hfree hboth.1)
    obtain rfl := Option.some.inj (hsome.symm.trans heq)
    rw [← hmap₁, hmap, update_self]

/-- A tree with one layer, in which 0 is bound. -/
def oneId : Idr ℕ :=
  ⟨.layer ⟨fun o => o.val == 0, fun o => if o.val = 0 then .ptr 7 else .null, 1, 0⟩, 1, []⟩

theorem oneId_intact : oneId.Intact := by
  refine ⟨by decide, .inr ⟨_, false, rfl, .layer rfl (by decide) (fun o => ?_) (by decide)⟩,
    by simp [oneId]⟩
  by_cases ho : o.val = 0
  · simp only [ho, beq_self_eq_true, if_true]
    exact .ptr 7
  · simp only [ho, beq_eq_false_iff_ne.mpr ho, if_false]
    exact .unused 0

/-- 5 is free there, and 33 is free even without its upper digit. -/
theorem idr_remove_touches_nothing_else_oneId : oneId.RemovesOnly 5 ∧ oneId.RemovesOnly 33 :=
  ⟨(idr_remove_touches_nothing_else oneId_intact (by decide)).mpr (.inr (.inr ⟨rfl, rfl⟩)),
    (idr_remove_touches_nothing_else oneId_intact (by decide)).mpr (.inr (.inr ⟨rfl, rfl⟩))⟩

/-- 32 is not in the range of this tree, and free. Its removal takes out 0. -/
theorem idr_remove_beyond_range : oneId.map 32 = none ∧ idrFind 0 oneId = some (some 7) ∧
    (idrRemove 32 oneId).map (idrFind 0) = some (some none) := by
  decide +kernel

end Remove

end AndroidKernel.Ids
