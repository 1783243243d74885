import AndroidKernel.Ids.Search

/-!
# New ids

`idr_get_new_above` as a whole: the tree grows until the starting id fits, the search goes on in the
larger tree when the smaller is full, and the pointer is put at the least free id. As long as there
is a free id below `2 ^ 30` from the starting one on, a call gives it or fails for want of memory.
-/

namespace AndroidKernel.Ids

open Digits Function Idr Layer Nat

variable {ι : Type} {h i j l n built id start : ℕ} {b : Bool} {p new : Layer (Slot ι)}
  {s top : Slot ι} {idp idp' : Idr ι} {o : Fin 32} {way : List (Fin 32)}
  {free : List (Layer (Slot ι))}

/-- The pointer of an id. -/
def Idr.map (idp : Idr ι) (i : ℕ) : Option (Option ι) :=
  if i < 32 ^ idp.layers then view idp.layers idp.top false i else none

/-- The tree and the free layers are as they should be. -/
structure Idr.Intact (idp : Idr ι) : Prop where
  layers_le : idp.layers ≤ 6
  tree : idp.top = .null ∨ ∃ p b, idp.top = .layer p ∧ Sound idp.layers (.layer p) b
  clean : ∀ q ∈ idp.idFree, q.Blank

theorem map_of_null (htop : idp.top = .null) : idp.map i = none := by
  rw [map, htop, view_null_false, ite_self]

theorem view_flag (hp : Sound h (.layer p) b) (b' b'' : Bool) :
    view h (.layer p) b' i = view h (.layer p) b'' i := by
  cases hp with
  | layer => rfl

theorem map_of_lt (idp : Idr ι) (hp : Sound idp.layers (.layer p) b) (htop : idp.top = .layer p)
    (hi : i < 32 ^ idp.layers) : idp.map i = view idp.layers (.layer p) b i := by
  rw [map, if_pos hi, htop, view_flag hp]

section Growth

/-- What stands `k` layers below the new ones. -/
def Tower : ℕ → Slot ι → Slot ι → Prop
  | 0, s, top => s = top
  | k + 1, .layer p, top => Tower k (p.ary 0) top ∧ ∀ o, o ≠ 0 → p.ary o = .null
  | _ + 1, _, _ => False

theorem tearDown_tower (htower : Tower built s top) (hclean : ∀ q ∈ free, q.Blank) :
    (tearDown built s free).1 = top ∧ ∀ q ∈ (tearDown built s free).2, q.Blank := by
  induction built generalizing s free with
  | zero => exact ⟨htower, hclean⟩
  | succ k ih =>
    cases s with
    | null | ptr => exact htower.elim
    | layer p =>
      refine ih htower.1 fun q hq => ?_
      rcases List.mem_cons.mp hq with rfl | hq
      · refine ⟨rfl, fun o => ?_, fun _ => rfl⟩
        by_cases ho : o = 0
        · subst ho
          simp [setAry]
        · simp [setAry, update_of_ne ho, htower.2 o ho]
      · exact hclean q hq

/-- `above` puts the old tree into the first entry of a blank layer. -/
theorem above_put (hnew : new.Blank) : ({ new with layer := l } : Layer (Slot ι)).Put 0 (.layer p)
    p.isFull (new.above p (l + 1)) := by
  have hzero : new.bitmap = update new.bitmap 0 false := by rw [← hnew.bitmap 0, update_eq_self]
  by_cases hfull : p.isFull = true
  · rw [hfull, above, if_pos hfull]
    exact ⟨rfl, rfl, rfl⟩
  · rw [Bool.eq_false_iff.mpr hfull, above, if_neg hfull]
    exact ⟨rfl, hzero, rfl⟩

theorem above_count : (new.above p l).count = 1 := by
  simp only [above]
  split_ifs <;> rfl

theorem above_sound (hp : Sound (l + 1) (.layer p) b) (hnew : new.Blank) :
    Sound (l + 2) (.layer (new.above p (l + 2))) (new.above p (l + 2)).isFull ∧
      ∀ j < 32 ^ (l + 2), view (l + 2) (.layer (new.above p (l + 2))) false j =
        if j < 32 ^ (l + 1) then view (l + 1) (.layer p) false j else none := by
  have hblank : ({ new with layer := l + 1 } : Layer (Slot ι)).Blank :=
    ⟨hnew.count, hnew.ary, hnew.bitmap⟩
  have hput := above_put (l := l + 1) (p := p) hnew
  have hp' : Sound (l + 1) (.layer p) p.isFull := by
    cases hp with
    | layer layer count ary full => exact .layer layer count ary rfl
  have hsound := hblank.sound (h := l + 1) rfl
  constructor
  · refine hput.sound hsound hp' ?_
    rw [above_count]
    simp [hnew.count, hnew.ary, hnew.bitmap, occupied]
  · intro j hj
    rw [hput.view (f := false)]
    have hiff : offset j (l + 1) = 0 ↔ j < 32 ^ (l + 1) := by
      rw [Fin.ext_iff, offset_val]
      exact digit_eq_zero_iff hj
    simp only [hiff, view_flag hp p.isFull false]
    split_ifs
    · rfl
    · exact hsound.view_of_count hnew.count

/-- A tree that has grown for an id, and holds what it held. -/
structure Grown (id : ℕ) (map : ℕ → Option (Option ι)) (idp : Idr ι) : Prop where
  layers_le : idp.layers ≤ 6
  tree : ∃ p b, idp.top = .layer p ∧ Sound idp.layers (.layer p) b
  clean : ∀ q ∈ idp.idFree, q.Blank
  reach : id < 2 ^ 30 → id < 32 ^ idp.layers
  same : ∀ j, idp.map j = map j

theorem geInt_iff (hid : id < 2 ^ 31) :
    geInt id (1 <<< (idp.layers * idrBits)) = true ↔ 32 ^ idp.layers ≤ id := by
  rw [one_shiftLeft, mul_comm, shift_eq, geInt, decide_eq_true_eq]
  exact and_iff_right hid

theorem Layer.Blank.grown (hp : p.Blank) (hlayer : p.layer + 1 = idp.layers)
    (hle : idp.layers ≤ 6) (hclean : ∀ q ∈ idp.idFree, q.Blank)
    (hreach : id < 2 ^ 30 → id < 32 ^ idp.layers) :
    Grown id (fun _ => none) { idp with top := .layer p } := by
  have hsound : Sound idp.layers (.layer p) false := hlayer ▸ hp.sound rfl
  refine ⟨hle, ⟨p, false, rfl, hsound⟩, hclean, hreach, fun j => ?_⟩
  simp only [map]
  rw [← hlayer] at hsound ⊢
  rw [hsound.view_of_count hp.count, ite_self]

theorem buildUp_blank (idp : Idr ι) (hp : p.Blank) (hlayer : p.layer + 1 = idp.layers)
    (hn : idp.layers + n = 6) (hid : id < 2 ^ 31) (hclean : ∀ q ∈ idp.idFree, q.Blank) :
    (buildUp id n built p idp).1 = true ∧
      Grown id (fun _ => none) (buildUp id n built p idp).2 := by
  induction n generalizing p idp with
  | zero =>
    refine ⟨rfl, hp.grown hlayer hn.le hclean fun hlt => ?_⟩
    rw [show idp.layers = 6 from hn]
    exact hlt
  | succ n ih =>
    by_cases hgrow : 32 ^ idp.layers ≤ id
    · rw [buildUp, if_pos ((geInt_iff hid).mpr hgrow), if_pos hp.count]
      exact ih _ ⟨hp.count, hp.ary, hp.bitmap⟩ (by simp only; omega) (by simp only; omega) hclean
    · rw [buildUp, if_neg ((geInt_iff hid).not.mpr hgrow)]
      exact ⟨rfl, hp.grown hlayer (by omega) hclean fun _ => Nat.lt_of_not_le hgrow⟩

theorem map_above (hp : Sound idp.layers (.layer p) b) (hnew : new.Blank)
    (free : List (Layer (Slot ι))) (j : ℕ) :
    (⟨.layer (new.above p (idp.layers + 1)), idp.layers + 1, free⟩ : Idr ι).map j =
      ({ idp with top := .layer p } : Idr ι).map j := by
  have hl := hp.height_eq
  simp only [map, hl] at hp ⊢
  have hlt : 32 ^ (p.layer + 1) < 32 ^ (p.layer + 2) :=
    Nat.pow_lt_pow_right (by decide) (Nat.lt_succ_self _)
  by_cases hj : j < 32 ^ (p.layer + 2)
  · rw [if_pos hj, (above_sound hp hnew).2 j hj]
  · rw [if_neg hj, if_neg (by omega)]

/-- A tree that is not empty grows by new layers above it. When one of them is missing, the others
go back and the tree is as before. -/
theorem buildUp_tower (idp : Idr ι) (hp : Sound idp.layers (.layer p) b) (hcount : p.count ≠ 0)
    (htower : Tower built (.layer p) top) (hn : idp.layers + n = 6) (hid : id < 2 ^ 31)
    (hclean : ∀ q ∈ idp.idFree, q.Blank) :
    ((buildUp id n built p idp).1 = false ∧ (buildUp id n built p idp).2.top = top ∧
      ∀ q ∈ (buildUp id n built p idp).2.idFree, q.Blank) ∨
    (buildUp id n built p idp).1 = true ∧
      Grown id ({ idp with top := .layer p } : Idr ι).map (buildUp id n built p idp).2 := by
  induction n generalizing built p idp b with
  | zero =>
    refine .inr ⟨rfl, hn.le, ⟨p, b, rfl, hp⟩, hclean, fun hlt => ?_, fun _ => rfl⟩
    change id < 32 ^ idp.layers
    rw [show idp.layers = 6 from hn]
    exact hlt
  | succ n ih =>
    by_cases hgrow : 32 ^ idp.layers ≤ id
    · rw [buildUp, if_pos ((geInt_iff hid).mpr hgrow), if_neg hcount]
      cases hget : getFromFreeList idp.idFree with
      | none =>
        obtain ⟨htop, hblank⟩ := tearDown_tower htower hclean
        exact .inl ⟨rfl, htop, hblank⟩
      | some r =>
        obtain ⟨hnew, hfree⟩ := getFromFreeList_blank hclean hget
        have hsound : Sound (idp.layers + 1) (.layer (r.1.above p (idp.layers + 1)))
            (r.1.above p (idp.layers + 1)).isFull := by
          have hl := hp.height_eq
          rw [hl] at hp ⊢
          exact (above_sound hp hnew).1
        have hput := above_put (l := idp.layers) (p := p) hnew
        have htower' : Tower (built + 1) (.layer (r.1.above p (idp.layers + 1))) top := by
          refine ⟨?_, fun o ho => ?_⟩
          · rw [hput.ary, update_self]
            exact htower
          · rw [hput.ary, update_of_ne ho]
            exact hnew.ary o
        have hone : (r.1.above p (idp.layers + 1)).count ≠ 0 := by
          rw [above_count]
          decide
        have hih := ih { idp with layers := idp.layers + 1, idFree := r.2 } hsound hone
          htower' (by simp only; omega) hfree
        rcases hih with hfail | ⟨htrue, hgrown⟩
        · exact .inl hfail
        · exact .inr ⟨htrue, hgrown.layers_le, hgrown.tree, hgrown.clean, hgrown.reach,
            fun j => (hgrown.same j).trans (map_above hp hnew _ j)⟩
    · rw [buildUp, if_neg ((geInt_iff hid).not.mpr hgrow)]
      exact .inr ⟨rfl, by simp only; omega, ⟨p, b, rfl, hp⟩, hclean,
        fun _ => Nat.lt_of_not_le hgrow, fun _ => rfl⟩

/-- The first part of a round of `idr_get_empty_slot`: it fails with everything as it was, or the
tree has grown. -/
theorem Idr.Intact.build (h : idp.Intact) (hid : id < 2 ^ 31) :
    firstLayer idp = some none ∨ ∃ built p new, firstLayer idp = some (some (built, p, new)) ∧
      ∃ grown idp', buildUp id (maxLevel - 1 - new.layers) built p new = (grown, idp') ∧
        ((grown = false ∧ idp'.top = idp.top ∧ ∀ q ∈ idp'.idFree, q.Blank) ∨
          (grown = true ∧ Grown id idp.map idp')) := by
  have hle := h.layers_le
  rcases h.tree with htop | ⟨p, b, htop, hp⟩
  · have hmap : idp.map = fun _ => none := funext fun j => map_of_null htop
    simp only [firstLayer, htop]
    cases hget : getFromFreeList idp.idFree with
    | none => exact .inl rfl
    | some r =>
      obtain ⟨hblank, hclean⟩ := getFromFreeList_blank h.clean hget
      refine .inr ⟨1, { r.1 with layer := 0 }, ⟨.null, 1, r.2⟩, rfl, _, _, rfl, .inr ?_⟩
      rw [hmap]
      exact buildUp_blank ⟨.null, 1, r.2⟩ (n := maxLevel - 1 - 1)
         ⟨hblank.count, hblank.ary, hblank.bitmap⟩ rfl rfl hid hclean
  · refine .inr ⟨0, p, idp, by simp only [firstLayer, htop], _, _, rfl, ?_⟩
    have hn : idp.layers + (maxLevel - 1 - idp.layers) = 6 := by
      change idp.layers + (6 - idp.layers) = 6
      omega
    have hself : ({ idp with top := .layer p } : Idr ι) = idp := by rw [← htop]
    by_cases hcount : p.count = 0
    · right
      have hl := hp.height_eq
      have hp' : Sound (p.layer + 1) (.layer p) b := hl ▸ hp
      have hmap : idp.map = fun _ => none := by
        funext j
        rw [map, htop, hl, view_flag hp' false b, hp'.view_of_count hcount, ite_self]
      rw [hmap]
      exact buildUp_blank _ ⟨hcount, fun o => (hp'.empty_of_count hcount o).1,
        fun o => (hp'.empty_of_count hcount o).2⟩ hl.symm hn hid h.clean
    · have hbase : Tower 0 (.layer p) idp.top := htop.symm
      have htower := buildUp_tower idp hp hcount hbase hn hid h.clean
      rwa [hself] at htower

end Growth

section EmptySlot

/-- Where `idr_get_empty_slot` is, from `start` on in the tree with the given map. -/
structure SlotInv (map : ℕ → Option (Option ι)) (start : ℕ) (s : Idr ι × ℕ) : Prop where
  intact : s.1.Intact
  same : ∀ j, s.1.map j = map j
  le : start ≤ s.2
  taken : ∀ j, start ≤ j → j < s.2 → map j ≠ none

/-- `idr_get_empty_slot` ended: with the least free id from `start` on, or for want of memory. -/
structure SlotEnded (map : ℕ → Option (Option ι)) (start : ℕ) (r : Outcome × Idr ι) : Prop where
  intact : r.2.Intact
  same : ∀ j, r.2.map j = map j
  right : r.1 = .noMemory ∨ ∃ id way p b q, r.1 = .found id way ∧ start ≤ id ∧
    id < 32 ^ r.2.layers ∧ (∀ j, start ≤ j → j < id → map j ≠ none) ∧ r.2.top = .layer p ∧
    Sound r.2.layers (.layer p) b ∧ OnWay r.2.layers way id ∧ r.2.layers = way.length + 1 ∧
    (Slot.layer p).read way = .layer q ∧ q.bitmap (offset id 0) = false

theorem Grown.subAlloc {map : ℕ → Option (Option ι)} (h : Grown id map idp) (hid : id < 2 ^ 30)
    (hfree : ∃ i, id ≤ i ∧ i < 2 ^ 30 ∧ map i = none) (hle : start ≤ id)
    (htaken : ∀ j, start ≤ j → j < id → map j ≠ none) :
    ∃ v idp', subAlloc idp id = some (v, idp') ∧
      ((∃ id', v = .needToGrow id' ∧ SlotInv map start (idp', id') ∧ id < id' ∧ id' < 2 ^ 30) ∨
        (∀ id', v ≠ .needToGrow id') ∧ SlotEnded map start (v, idp')) := by
  obtain ⟨p, b, htop, hp⟩ := h.tree
  obtain ⟨v, s, heq, hend⟩ := subAlloc_spec (htop ▸ hp) htop h.layers_le h.clean (h.reach hid)
  refine ⟨v, _, heq, ?_⟩
  obtain ⟨p', hp'⟩ := hend.layer
  have hsound : Sound idp.layers (.layer p') b := hp' ▸ hend.sound
  have hview (j : ℕ) (hj : j < 32 ^ idp.layers) : view idp.layers idp.top b j = map j := by
    rw [← h.same, map_of_lt _ hp htop hj, htop]
  have hintact : ({ idp with top := s.top, idFree := s.free } : Idr ι).Intact :=
    ⟨h.layers_le, .inr ⟨p', b, hp', hsound⟩, hend.clean⟩
  have hsame (j : ℕ) : ({ idp with top := s.top, idFree := s.free } : Idr ι).map j = map j := by
    by_cases hj : j < 32 ^ idp.layers
    · rw [map_of_lt { idp with top := s.top, idFree := s.free } hsound hp' hj,
        ← hview j hj, ← hend.same, ← hp']
    · rw [← h.same, Idr.map, Idr.map, if_neg hj, if_neg hj]
  have hbelow (id' : ℕ) (hid' : id' ≤ 32 ^ idp.layers)
      (hview' : ∀ j, id ≤ j → j < id' → view idp.layers idp.top b j ≠ none) (j : ℕ)
      (hj : start ≤ j) (hj' : j < id') : map j ≠ none := by
    by_cases hjid : j < id
    · exact htaken j hj hjid
    · rw [← hview j (by omega)]
      exact hview' j (Nat.le_of_not_lt hjid) hj'
  have hright := hend.right
  cases v with
  | needToGrow id' =>
    obtain ⟨hgt, hid', hmapped⟩ := hright
    have hmapped := hbelow id' hid'.le hmapped
    refine .inl ⟨id', rfl, ⟨hintact, hsame, by omega, hmapped⟩, hgt, ?_⟩
    -- the free id lies behind the tree
    obtain ⟨i, hi, hi', hnone⟩ := hfree
    by_contra hge
    exact hmapped i (by omega) (by omega) hnone
  | found id' way =>
    obtain ⟨hle', hlt', hmapped, honWay, hlen, q, hread, hbit⟩ := hright
    refine .inr ⟨by simp, hintact, hsame, .inr ⟨id', way, p', b, q, rfl, by omega, hlt',
      hbelow id' hlt'.le hmapped, hp', hsound, honWay, hlen, hp' ▸ hread, hbit⟩⟩
  | nomoreSpace => exact hright.elim
  | noMemory => exact .inr ⟨by simp, hintact, hsame, .inl rfl⟩

/-- `idr_get_empty_slot` ends, with the least free id or for want of memory. -/
theorem idrGetEmptySlot_spec (h : idp.Intact)
    (hfree : ∃ i, start ≤ i ∧ i < 2 ^ 30 ∧ idp.map i = none) :
    ∃ r, idrGetEmptySlot idp start = some r ∧ SlotEnded idp.map start r := by
  obtain ⟨i, hi, hi', hnone⟩ := hfree
  have hbody (s : Idr ι × ℕ) (hs : SlotInv idp.map start s) :
      (∃ s', getEmptySlotStep s = some (.inl s') ∧ SlotInv idp.map start s' ∧
        2 ^ 30 - s'.2 < 2 ^ 30 - s.2) ∨
      ∃ r, getEmptySlotStep s = some (.inr r) ∧ SlotEnded idp.map start r := by
    have hid : s.2 ≤ i := by
      by_contra hlt
      exact hs.taken i hi (Nat.lt_of_not_le hlt) hnone
    rcases hs.intact.build (show s.2 < 2 ^ 31 by omega) with hfail | ⟨built, p, new, hfirst, hbuild⟩
    · exact .inr ⟨(.noMemory, s.1), by rw [getEmptySlotStep, hfail], hs.intact, hs.same, .inl rfl⟩
    · obtain ⟨grown, idp', hbuild, ⟨rfl, htop, hclean⟩ | ⟨rfl, hgrown⟩⟩ := hbuild
      · refine .inr ⟨(.noMemory, { idp' with layers := s.1.layers }), ?_, ⟨hs.intact.layers_le, ?_,
          hclean⟩, fun j => ?_, .inl rfl⟩
        · simp only [getEmptySlotStep, hfirst, hbuild]
          rfl
        · simpa [htop] using hs.intact.tree
        · rw [← hs.same, map, map, htop]
      · have hgrown' : Grown s.2 idp.map idp' := ⟨hgrown.layers_le, hgrown.tree, hgrown.clean,
          hgrown.reach, fun j => (hgrown.same j).trans (hs.same j)⟩
        obtain ⟨v, idp'', hsub, ⟨id', rfl, hinv, hlt, hlt'⟩ | ⟨hv, hend⟩⟩ :=
          hgrown'.subAlloc (by omega) ⟨i, hid, hi', hnone⟩ hs.le hs.taken
        · refine .inl ⟨(idp'', id'), ?_, hinv, by simp only; omega⟩
          simp only [getEmptySlotStep, hfirst, hbuild, hsub]
          rfl
        · refine .inr ⟨(v, idp''), ?_, hend⟩
          simp only [getEmptySlotStep, hfirst, hbuild, hsub]
          cases v with
          | needToGrow id' => exact absurd rfl (hv id')
          | found | nomoreSpace | noMemory => rfl
  exact loop_spec (SlotInv idp.map start) (fun s => 2 ^ 30 - s.2) (SlotEnded idp.map start) hbody
    ⟨h, fun _ => rfl, le_rfl, fun j hle hlt => absurd hle (not_le.mpr hlt)⟩
    (show _ < 2 ^ 32 by simp only; omega)

end EmptySlot

section Install

variable {ptr : Option ι}

theorem Sound.bit_of_free (hs : Sound h s b) (hfree : view h s b i = none) : b = false := by
  cases b with
  | false => rfl
  | true => exact absurd hfree (hs.mapped_of_full i)

/-- The pointer is put at a free id and the bits of the layers that become full are set: the tree
holds the pointer there, and what it held elsewhere. -/
theorem install_spec (ptr : Option ι) (hs : Sound h s b) (hlen : h = way.length + 1)
    (hway : OnWay h way id)
    (hread : s.read way = .layer p) (hbit : p.bitmap (offset id 0) = false) :
    ∃ q, (idrMarkFull id way (s.modify (fun p => p.install id ptr) way)) = (.layer q, q.isFull) ∧
      Sound h (.layer q) q.isFull ∧ ∀ j, view h (.layer q) q.isFull j =
        if j ≡ id [MOD 32 ^ h] then some ptr else view h s b j := by
  induction way generalizing h s b with
  | nil =>
    obtain rfl : h = 1 := hlen
    obtain rfl : s = .layer p := by
      cases s <;> exact hread
    have hput : p.Put (offset id 0) (.ofPtr ptr) true
        ((p.install id ptr).setBit (offset id 0) true) := ⟨rfl, rfl, rfl⟩
    have hnull : p.ary (offset id 0) = .null := by
      cases hs with
      | layer layer count ary full =>
        have ho := ary (offset id 0)
        rw [hbit] at ho
        generalize p.ary (offset id 0) = t at ho
        cases ho
        rfl
    refine ⟨_, rfl, hput.sound hs (.ofPtr ptr) ?_, fun j => ?_⟩
    · simp [install, setBit, occupied, hbit, hnull]
    · rw [hput.view (f := b)]
      simp only [modEq_succ_iff, pow_zero, modEq_one, and_true]
      simp [view]
  | cons o way ih =>
    cases hs with
    | unused | null | ptr => cases hread
    | @layer h q b layer count ary full =>
      obtain ⟨rfl, hway⟩ := hway
      obtain ⟨q', heq, hsound, hview⟩ := ih (ary (offset id h)) (by simpa using hlen) hway hread
      have hh : way.length + 1 = h := by simpa using hlen.symm
      have hfree : view h (q.ary (offset id h)) (q.bitmap (offset id h)) id = none := by
        obtain ⟨l, b', hlen', -, hread'⟩ := (ary (offset id h)).read hread
        obtain rfl : l = 0 := by omega
        rw [hread' id hway, view_layer, hbit]
        rfl
      have hbit' := (ary (offset id h)).bit_of_free hfree
      obtain ⟨r, hr⟩ := layer_of_read (s := q.ary (offset id h)) hread
      obtain ⟨q'', hmark, hput, hcount⟩ : ∃ q'', idrMarkFull id (offset id h :: way)
          ((Slot.layer q).modify (fun p => p.install id ptr) (offset id h :: way)) =
            (.layer q'', q''.isFull) ∧ q.Put (offset id h) (.layer q') q'.isFull q'' ∧
          q''.count = q.count := by
        simp only [Slot.modify, idrMarkFull, setAry, update_self, heq, hh, update_idem]
        by_cases hfull : q'.isFull = true
        · rw [if_pos hfull, hfull]
          exact ⟨_, rfl, ⟨rfl, rfl, rfl⟩, rfl⟩
        · rw [if_neg hfull, Bool.eq_false_iff.mpr hfull]
          refine ⟨{ q with ary := update q.ary (offset id h) (.layer q') }, ?_, ⟨rfl, ?_, rfl⟩, rfl⟩
          · have hnot : ¬isFull { q with ary := update q.ary (offset id h) (.layer q') } =
                true := fun hfull => by
              simpa [hbit'] using isFull_iff.mp hfull (offset id h)
            rw [Bool.eq_false_iff.mpr hnot]
          · rw [← hbit', update_eq_self]
      refine ⟨q'', hmark, hput.sound (.layer layer count ary full) hsound ?_, fun j => ?_⟩
      · rw [hcount]
        simp [occupied, hr]
      · rw [hput.view (f := b), hview]
        simp only [modEq_succ_iff]
        by_cases ho : offset j h = offset id h
        · rw [if_pos ho, view_layer, ho]
          simp
        · rw [if_neg ho, if_neg fun hj => ho hj.1]

theorem map_update {p' : Layer (Slot ι)} {b' : Bool} {v : Option (Option ι)}
    (hp : Sound idp.layers (.layer p) b) (htop : idp.top = .layer p)
    (hp' : Sound idp.layers (.layer p') b') (hid : id < 32 ^ idp.layers)
    (hview : ∀ j, view idp.layers (.layer p') b' j =
      if j ≡ id [MOD 32 ^ idp.layers] then v else view idp.layers (.layer p) b j) :
    ({ idp with top := .layer p' } : Idr ι).map = update idp.map id v := by
  funext j
  by_cases hj : j < 32 ^ idp.layers
  · rw [map_of_lt { idp with top := .layer p' } hp' rfl hj, hview]
    by_cases hji : j = id
    · subst hji
      rw [if_pos (ModEq.refl _), update_self]
    · rw [if_neg fun hmod => hji (eq_of_modEq hj hid hmod), update_of_ne hji,
        map_of_lt _ hp htop hj]
  · have hji : j ≠ id := fun heq => hj (heq ▸ hid)
    rw [update_of_ne hji, map, map, if_neg hj, if_neg hj]

/-- `idr_get_new_above` gives the least free id from the starting one on and puts the pointer there,
or fails for want of memory and leaves the map. -/
theorem idrGetNewAbove_spec (ptr : Option ι) (h : idp.Intact)
    (hfree : ∃ i, start ≤ i ∧ i < 2 ^ 30 ∧ idp.map i = none) :
    ∃ r idp', idrGetNewAbove ptr start idp = some (r, idp') ∧ idp'.Intact ∧
      ((r = .error eagain ∧ idp'.map = idp.map) ∨
        ∃ id, r = .ok id ∧ IsLeast {i | start ≤ i ∧ idp.map i = none} id ∧
          idp'.map = update idp.map id (some ptr)) := by
  obtain ⟨⟨v, idp'⟩, hslot, hend⟩ := idrGetEmptySlot_spec h hfree
  rcases hend.right with hv | ⟨id, way, p, b, q, hv, hle, hlt, hmapped, htop, hsound, honWay, hlen,
    hread, hbit⟩
  · obtain rfl : v = .noMemory := hv
    exact ⟨_, idp', by rw [idrGetNewAbove, hslot], hend.intact, .inl ⟨rfl, funext hend.same⟩⟩
  · obtain rfl : v = .found id way := hv
    simp only at hlt htop hsound honWay hlen
    obtain ⟨q', hmark, hsound', hview⟩ := install_spec ptr hsound hlen honWay hread hbit
    refine ⟨.ok id, { idp' with top := .layer q' }, ?_, ⟨hend.intact.layers_le, .inr ⟨q', _, rfl,
      hsound'⟩, hend.intact.clean⟩, .inr ⟨id, rfl, ⟨⟨hle, ?_⟩, fun j hj => ?_⟩, ?_⟩⟩
    · simp only [idrGetNewAbove, hslot, htop, hmark]
    · -- the bit of the id is clear
      obtain ⟨l, b', hlen', -, hread'⟩ := hsound.read hread
      obtain rfl : l = 0 := by omega
      rw [← hend.same, map_of_lt _ hsound htop hlt, hread' id honWay, view_layer, hbit]
      rfl
    · by_contra hlt'
      exact hmapped j hj.1 (Nat.lt_of_not_le hlt') hj.2
    · rw [map_update hsound htop hsound' hlt hview, funext hend.same]

end Install

end AndroidKernel.Ids
