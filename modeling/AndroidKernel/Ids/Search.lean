import AndroidKernel.Ids.Sound

/-!
# The search for a free id

`sub_alloc` never changes what a tree holds. It stops at the least free id from the starting one on,
or when the tree has none, or for want of memory.
-/

namespace AndroidKernel.Ids

open Digits List Nat Search

variable {ι : Type} {i j l id layers : ℕ} {b : Bool} {p : Layer (Slot ι)} {top : Slot ι}
  {s : Search ι} {n m : Fin 32}

section NextSpace

/-- The entry that `find_next_bit` gives is the next with space. -/
theorem nextSpace_some (h : p.nextSpace n = some m) :
    n ≤ m ∧ p.bitmap m = false ∧ ∀ o, n ≤ o → o < m → p.bitmap o = true := by
  obtain ⟨hm, k, hk, hget, hbefore⟩ := List.find?_eq_some_iff_getElem.mp h
  simp only [Bool.and_eq_true, decide_eq_true_eq, Bool.not_eq_true'] at hm
  refine ⟨hm.1, hm.2, fun o hn hlt => ?_⟩
  have hkm : k = m.val := by
    rw [← hget, getElem_finRange]
    rfl
  have ho := hbefore o.val (by omega)
  simpa [hn] using ho

theorem nextSpace_none (h : p.nextSpace n = none) (o : Fin 32) (hn : n ≤ o) :
    p.bitmap o = true := by
  have ho := List.find?_eq_none.mp h o (mem_finRange o)
  simpa [hn] using ho

end NextSpace

section Ids

/-- The first id behind the block of `id` at the place `l`. -/
theorem or_mask_add_one : (id ||| (1 <<< (idrBits * l) - 1)) + 1 = (id / 32 ^ l + 1) * 32 ^ l := by
  have hor : id ||| (2 ^ (idrBits * l) - 1) =
      2 ^ (idrBits * l) * (id / 2 ^ (idrBits * l)) + (2 ^ (idrBits * l) - 1) := by
    rw [two_pow_add_eq_or_of_lt (sub_lt (Nat.two_pow_pos _) Nat.one_pos)]
    apply eq_of_testBit_eq
    intro k
    simp only [testBit_or, testBit_two_pow_sub_one, testBit_two_pow_mul, testBit_div_two_pow]
    by_cases hk : k < idrBits * l
    · simp [hk]
    · simp [hk, Nat.sub_add_cancel (Nat.le_of_not_lt hk), Nat.le_of_not_lt hk]
  have hpos : 0 < 32 ^ l := Nat.pow_pos (by decide)
  rw [one_shiftLeft, hor, shift_eq, add_mul, mul_comm]
  omega

/-- The id with another digit at the place `l` and zeros below. -/
theorem xor_digit : ((id >>> (idrBits * l)) ^^^ (offset id l).val ^^^ m.val) <<< (idrBits * l) =
    id / 32 ^ (l + 1) * 32 ^ (l + 1) + m.val * 32 ^ l := by
  have hxor (x : ℕ) : x ^^^ x % 2 ^ 5 ^^^ m.val = x / 2 ^ 5 * 2 ^ 5 + m.val := by
    rw [Nat.mul_comm, two_pow_add_eq_or_of_lt m.isLt]
    apply eq_of_testBit_eq
    intro k
    simp only [testBit_xor, testBit_or, testBit_mod_two_pow, testBit_two_pow_mul,
      testBit_div_two_pow]
    by_cases hk : k < 5
    · simp [hk]
    · have hm : m.val.testBit k = false :=
        testBit_lt_two_pow
          (m.isLt.trans_le (Nat.pow_le_pow_right Nat.two_pos (Nat.le_of_not_lt hk)))
      simp [hk, hm, Nat.sub_add_cancel (Nat.le_of_not_lt hk), Nat.le_of_not_lt hk]
  have hoffset : (offset id l).val = (id >>> (idrBits * l)) % 2 ^ 5 := by
    rw [offset_val, digit, shiftRight_eq_div_pow, shift_eq]
    rfl
  calc _ = (id / 32 ^ l / 32 * 32 + m.val) * 32 ^ l := by
        rw [hoffset, hxor, shiftLeft_eq, shiftRight_eq_div_pow, shift_eq]
        rfl
    _ = _ := by
        rw [div_pow_succ, pow_succ]
        ring

theorem block_le (hid : id < 32 ^ layers) (hl : l ≤ layers) :
    (id / 32 ^ l + 1) * 32 ^ l ≤ 32 ^ layers := by
  obtain ⟨k, rfl⟩ := Nat.exists_eq_add_of_le' hl
  rw [pow_add] at hid ⊢
  have hdiv : id / 32 ^ l < 32 ^ k := Nat.div_lt_of_lt_mul (by rwa [Nat.mul_comm])
  exact mul_le_mul_right _ hdiv

theorem pow_layers_le (hl : layers ≤ 6) : 32 ^ layers ≤ 2 ^ 30 :=
  (Nat.pow_le_pow_right (by decide) hl).trans (by decide)

/-- The id that `goDown` goes on with. -/
theorem goDown_id (hid : id < 32 ^ layers) (hl : l + 1 ≤ layers) (hlayers : layers ≤ 6)
    (hm : offset id l ≤ m) :
    ∃ id', (if m ≠ offset id l then
        (((id >>> (idrBits * l)) ^^^ (offset id l).val ^^^ m.val) <<< (idrBits * l)) % 2 ^ 32
      else id) = id' ∧ id ≤ id' ∧ id' < 32 ^ layers ∧ id' / 32 ^ (l + 1) = id / 32 ^ (l + 1) ∧
      offset id' l = m ∧ ∀ j, id ≤ j → j < id' →
        j / 32 ^ (l + 1) = id / 32 ^ (l + 1) ∧ offset id l ≤ offset j l ∧ offset j l < m := by
  by_cases hmn : m = offset id l
  · refine ⟨id, if_neg (not_not.mpr hmn), le_rfl, hid, rfl, hmn.symm, fun j hle hlt => ?_⟩
    omega
  · have hblock := block_le hid hl
    have hbound := pow_layers_le hlayers
    have hlt : m.val * 32 ^ l < 32 ^ (l + 1) := by
      rw [pow_succ, mul_comm (32 ^ l)]
      exact Nat.mul_lt_mul_of_pos_right m.isLt (Nat.pow_pos (by decide))
    rw [add_mul, one_mul] at hblock
    have hdigit : digit 32 l id < m.val := by
      rw [← offset_val]
      exact lt_of_le_of_ne hm fun heq => hmn (Fin.ext heq.symm)
    have hnew := digit_block (k := id / 32 ^ (l + 1)) (h := l) m.isLt
    refine ⟨id / 32 ^ (l + 1) * 32 ^ (l + 1) + m.val * 32 ^ l, ?_,
      (lt_block_of_digit_lt (by decide) hdigit).le, by omega, hnew.1, ?_, ?_⟩
    · rw [if_pos hmn, xor_digit, mod_eq_of_lt (by omega)]
    · rw [Fin.ext_iff, offset_val, hnew.2]
    · intro j hle hj
      obtain ⟨hdiv, hlow, hhigh⟩ := digit_of_le_of_lt m.isLt.le hle hj
      rw [← offset_val, ← offset_val] at hlow
      rw [← offset_val] at hhigh
      exact ⟨hdiv, hlow, hhigh⟩

end Ids

section SubAlloc

variable {start : ℕ}

/-- What the loop of `sub_alloc` keeps, for a search from `start` in the tree `top`. -/
structure Search.Inv (layers : ℕ) (b : Bool) (top : Slot ι) (start : ℕ) (s : Search ι) : Prop where
  sound : Sound layers s.top b
  same : ∀ j, view layers s.top b j = view layers top b j
  clean : ∀ q ∈ s.free, q.Blank
  lt : s.id < 32 ^ layers
  le : start ≤ s.id
  taken : ∀ j, start ≤ j → j < s.id → view layers top b j ≠ none
  onWay : OnWay layers s.way s.id
  read : ∃ p, s.top.read s.way = .layer p

/-- What `sub_alloc` returns is right: the least free id from `start` on with the way to its layer,
or the end of a tree with no such id. -/
def Outcome.Right (layers : ℕ) (b : Bool) (top : Slot ι) (start : ℕ) (top' : Slot ι) :
    Outcome → Prop
  | .found id way => start ≤ id ∧ id < 32 ^ layers ∧
      (∀ j, start ≤ j → j < id → view layers top b j ≠ none) ∧ OnWay layers way id ∧
      layers = way.length + 1 ∧ ∃ p, top'.read way = .layer p ∧ p.bitmap (offset id 0) = false
  | .needToGrow id => start < id ∧ id = 32 ^ layers ∧
      ∀ j, start ≤ j → j < id → view layers top b j ≠ none
  | .nomoreSpace => False
  | .noMemory => True

/-- What holds when `sub_alloc` has ended. -/
structure Ended (layers : ℕ) (b : Bool) (top : Slot ι) (start : ℕ) (r : Outcome × Search ι) :
    Prop where
  sound : Sound layers r.2.top b
  same : ∀ j, view layers r.2.top b j = view layers top b j
  clean : ∀ q ∈ r.2.free, q.Blank
  layer : ∃ p, r.2.top = .layer p
  right : r.1.Right layers b top start r.2.top

/-- How far a search still is from its end. -/
def Search.rank (layers : ℕ) (s : Search ι) : ℕ := (32 ^ layers - s.id) * 8 + (8 - s.way.length)

/-- A round goes on as it should, or ends so. -/
def RoundRight (layers : ℕ) (b : Bool) (top : Slot ι) (start : ℕ) (s : Search ι)
    (r : Option (Search ι ⊕ Outcome × Search ι)) : Prop :=
  (∃ s', r = some (.inl s') ∧ s'.Inv layers b top start ∧ s'.rank layers < s.rank layers) ∨
    ∃ e, r = some (.inr e) ∧ Ended layers b top start e

theorem Search.Inv.taken_of_bit (hs : s.Inv layers b top start)
    (hread : s.top.read s.way = .layer p)
    (hlen : layers = s.way.length + l + 1) (hj : j / 32 ^ (l + 1) = s.id / 32 ^ (l + 1))
    (hbit : p.bitmap (offset j l) = true) : view layers top b j ≠ none := by
  obtain ⟨l', b', hlen', hp, hview⟩ := hs.sound.read hread
  obtain rfl : l' = l := by omega
  rw [← hs.same, hview j (hs.onWay.of_div_eq (by omega) hj), view_layer, hbit]
  cases hp with
  | layer layer count ary full =>
    have hfull := ary (offset j l')
    rw [hbit] at hfull
    exact hfull.mapped_of_full j

theorem Search.Inv.goBack (hs : s.Inv layers b top start) (hread : s.top.read s.way = .layer p)
    (hlayers : layers ≤ 6) (hlen : layers = s.way.length + l + 1)
    (hfull : ∀ o, offset s.id l ≤ o → p.bitmap o = true) :
    RoundRight layers b top start s (s.goBack layers (l + 1)) := by
  have hblock := block_le hs.lt (show l + 1 ≤ layers by omega)
  have hbound := pow_layers_le hlayers
  have hpos : 0 < 32 ^ (l + 1) := Nat.pow_pos (by decide)
  have hup : s.id < (s.id / 32 ^ (l + 1) + 1) * 32 ^ (l + 1) :=
    lt_mul_of_div_lt (lt_succ_self _) hpos
  have htaken (j : ℕ) (hle : start ≤ j) (hlt : j < (s.id / 32 ^ (l + 1) + 1) * 32 ^ (l + 1)) :
      view layers top b j ≠ none := by
    by_cases hj : j < s.id
    · exact hs.taken j hle hj
    · have hlt' : j < s.id / 32 ^ (l + 1) * 32 ^ (l + 1) + 32 * 32 ^ l := by
        rw [add_mul, one_mul] at hlt
        rwa [← Nat.pow_succ']
      obtain ⟨hdiv, hlow, -⟩ := digit_of_le_of_lt le_rfl (Nat.le_of_not_lt hj) hlt'
      rw [← offset_val, ← offset_val] at hlow
      exact hs.taken_of_bit hread hlen hdiv (hfull _ hlow)
  -- at the top the block is the whole tree
  have hway : (s.id / 32 ^ (l + 1) + 1) * 32 ^ (l + 1) < 32 ^ layers → s.way ≠ [] := by
    intro hlt hnil
    rw [hlen, hnil, length_nil, zero_add] at hlt
    exact absurd hlt (Nat.not_lt.mpr (Nat.le_mul_of_pos_left _ (succ_pos _)))
  rw [Search.goBack, or_mask_add_one, one_shiftLeft, mul_comm layers, shift_eq]
  generalize (s.id / 32 ^ (l + 1) + 1) * 32 ^ (l + 1) = id' at hblock hup htaken hway
  rw [mod_eq_of_lt (show id' < 2 ^ 32 by omega)]
  by_cases hgrow : 32 ^ layers ≤ id'
  · have hge : geInt id' (32 ^ layers) = true := by
      simp only [geInt, decide_eq_true_eq]
      omega
    have hle := hs.le
    exact .inr ⟨_, if_pos hge, hs.sound, hs.same, hs.clean, layer_of_read hread, by omega, by omega,
      htaken⟩
  · have hge : ¬geInt id' (32 ^ layers) = true := by
      simp only [geInt, decide_eq_true_eq]
      omega
    have hle : start ≤ id' := hs.le.trans hup.le
    have hlt : id' < 32 ^ layers := Nat.lt_of_not_le hgrow
    have hway := hway hlt
    have hpos : 0 < s.way.length := List.length_pos_iff.mpr hway
    left
    simp only [if_neg hge, if_neg hway]
    split_ifs with hsame
    · refine ⟨_, rfl, ⟨hs.sound, hs.same, hs.clean, hlt, hle, htaken, ?_,
        read_dropLast hread hway⟩, ?_⟩
      · simp only [shiftRight_eq_div_pow, shift_eq] at hsame
        exact hs.onWay.dropLast.of_div_eq (by simp only [length_dropLast]; omega) hsame.symm
      · simp only [rank, length_dropLast]
        omega
    · refine ⟨_, rfl, ⟨hs.sound, hs.same, hs.clean, hlt, hle, htaken, onWay_nil,
        layer_of_read hread⟩, ?_⟩
      simp only [rank, length_nil]
      omega

/-- A layer with space gets a new layer where it has none, and holds the same. -/
theorem link_sound {new : Layer (Slot ι)} (hp : Sound (l + 1) (.layer p) b) (hl : l ≠ 0)
    (hbit : p.bitmap m = false) (hnull : p.ary m = .null) (hnew : new.Blank) :
    Sound (l + 1) (.layer (p.link m { new with layer := l - 1 })) b ∧
      ∀ j, view (l + 1) (.layer (p.link m { new with layer := l - 1 })) b j =
        view (l + 1) (.layer p) b j := by
  have hblank : ({ new with layer := l - 1 } : Layer (Slot ι)).Blank :=
    ⟨hnew.count, hnew.ary, hnew.bitmap⟩
  obtain ⟨k, rfl⟩ := exists_eq_succ_of_ne_zero hl
  have hsound := hblank.sound (h := k) rfl
  have hput : p.Put m (.layer { new with layer := k + 1 - 1 }) false
      (p.link m { new with layer := k + 1 - 1 }) := by
    refine ⟨rfl, ?_, rfl⟩
    rw [← hbit, Function.update_eq_self]
    rfl
  constructor
  · have hfull : b = p.isFull := by
      cases hp with
      | layer layer count ary full => exact full
    rw [hfull]
    exact hput.sound hp hsound (by simp [Layer.link, occupied, hbit, hnull])
  · intro j
    rw [hput.view (f := b)]
    split_ifs with ho
    · rw [hsound.view_of_count hnew.count, view_layer, ho, hnull, hbit, view_null_false]
    · rfl

theorem Search.Inv.goDown (hs : s.Inv layers b top start) (hread : s.top.read s.way = .layer p)
    (hlayers : layers ≤ 6) (hlen : layers = s.way.length + l + 1) (hm : offset s.id l ≤ m)
    (hbit : p.bitmap m = false) (hbefore : ∀ o, offset s.id l ≤ o → o < m → p.bitmap o = true) :
    RoundRight layers b top start s (s.goDown p l m) := by
  obtain ⟨id', hid', hle', hlt', hdiv, hoffset, hbetween⟩ :=
    goDown_id hs.lt (show l + 1 ≤ layers by omega) hlayers hm
  have hbound := pow_layers_le hlayers
  have hle : start ≤ id' := hs.le.trans hle'
  have htaken (j : ℕ) (hsj : start ≤ j) (hji : j < id') : view layers top b j ≠ none := by
    by_cases hj : j < s.id
    · exact hs.taken j hsj hj
    · obtain ⟨hjdiv, hlow, hhigh⟩ := hbetween j (Nat.le_of_not_lt hj) hji
      exact hs.taken_of_bit hread hlen hjdiv (hbefore _ hlow hhigh)
  have honWay : OnWay layers s.way id' := hs.onWay.of_div_eq (by omega) hdiv
  have honWay' : OnWay layers (s.way ++ [m]) id' := hoffset ▸ honWay.append hlen
  have hrank : (32 ^ layers - id') * 8 + (8 - (s.way ++ [m]).length) < s.rank layers := by
    simp only [rank, length_append, length_singleton]
    omega
  simp only [Search.goDown, hid']
  rw [if_neg (show ¬2 ^ 31 ≤ id' by omega)]
  by_cases hl : l = 0
  · subst hl
    rw [if_pos rfl]
    exact .inr ⟨_, rfl, hs.sound, hs.same, hs.clean, layer_of_read hread, hle, hlt', htaken, honWay,
      hlen, p, hread, hoffset ▸ hbit⟩
  rw [if_neg hl]
  by_cases hnull : (p.ary m).isNull = true
  · rw [if_pos hnull]
    replace hnull : p.ary m = .null := by
      cases hary : p.ary m with
      | null => rfl
      | ptr | layer => simp [hary] at hnull
    cases hget : getFromFreeList s.free with
    | none => exact .inr ⟨_, rfl, hs.sound, hs.same, hs.clean, layer_of_read hread, trivial⟩
    | some new =>
      obtain ⟨hnew, hclean⟩ := getFromFreeList_blank hs.clean hget
      obtain ⟨hsound, hsame⟩ := hs.sound.modify
        (f := fun p => p.link m { new.1 with layer := l - 1 }) hread fun l' b' hlen' hp => by
          obtain rfl : l = l' := by omega
          exact link_sound hp hl hbit hnull hnew
      refine .inl ⟨_, rfl, ⟨hsound, fun j => (hsame j).trans (hs.same j), hclean, hlt', hle, htaken,
        honWay', ⟨{ new.1 with layer := l - 1 }, ?_⟩⟩, hrank⟩
      rw [read_append (read_modify hread)]
      simp [Layer.link, Layer.setAry]
  · rw [if_neg hnull]
    refine .inl ⟨_, rfl, ⟨hs.sound, hs.same, hs.clean, hlt', hle, htaken, honWay', ?_⟩, hrank⟩
    obtain ⟨l', b', hlen', hp, -⟩ := hs.sound.read hread
    obtain rfl : l = l' := by omega
    rw [read_append hread]
    cases hp with
    | layer layer count ary full =>
      cases hary : p.ary m with
      | null => simp [hary] at hnull
      | layer q => exact ⟨q, rfl⟩
      | ptr x =>
        have hx := ary m
        rw [hary, hbit] at hx
        cases hx

/-- `sub_alloc` ends, and what it returns is right. -/
theorem subAlloc_spec {idp : Idr ι} (hs : Sound idp.layers idp.top b) (hp : idp.top = .layer p)
    (hlayers : idp.layers ≤ 6) (hclean : ∀ q ∈ idp.idFree, q.Blank) (hid : id < 32 ^ idp.layers) :
    ∃ v s, subAlloc idp id = some (v, { idp with top := s.top, idFree := s.free }) ∧
      Ended idp.layers b idp.top id (v, s) := by
  have hinv : (⟨id, [], idp.top, idp.idFree⟩ : Search ι).Inv idp.layers b idp.top id :=
    ⟨hs, fun _ => rfl, hclean, hid, le_rfl, fun j hle hlt => absurd hle (Nat.not_le.mpr hlt),
      onWay_nil, p, hp⟩
  have hbody (s : Search ι) (hs : s.Inv idp.layers b idp.top id) :
      RoundRight idp.layers b idp.top id s (subAllocStep idp.layers s) := by
    obtain ⟨q, hread⟩ := hs.read
    obtain ⟨l, b', hlen, -, -⟩ := hs.sound.read hread
    have hl : idp.layers - 1 - s.way.length = l := by omega
    simp only [subAllocStep, hread, hl]
    cases hnext : q.nextSpace (offset s.id l) with
    | none => exact hs.goBack hread hlayers hlen (nextSpace_none hnext)
    | some m =>
      obtain ⟨hm, hbit, hbefore⟩ := nextSpace_some hnext
      exact hs.goDown hread hlayers hlen hm hbit hbefore
  have hbound := pow_layers_le hlayers
  obtain ⟨r, hloop, hr⟩ := loop_spec (Inv idp.layers b idp.top id) (rank idp.layers)
    (Ended idp.layers b idp.top id) hbody hinv (show _ < 2 ^ 36 by
      simp only [rank, length_nil]
      omega)
  exact ⟨r.1, r.2, by rw [subAlloc, hloop]; rfl, hr⟩

end SubAlloc

end AndroidKernel.Ids
