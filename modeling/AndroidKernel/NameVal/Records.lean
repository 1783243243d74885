import AndroidKernel.NameVal.Basic

/-!
# The records in the buffer

The buffer holds the bytes of some records with distinct names, one after the other, and then zeros.
`nval_find` and `nval_used` walk over these records, and `nval_del` and `nval_set` change them.
-/

namespace AndroidKernel.NameVal

open Bytes List Nat Option

/-- A name with its value. -/
abbrev Record := Name × List UInt8

/-- The number of bytes of a record. -/
def recSize (r : Record) : ℕ := 4 + r.1.1.length + 1 + r.2.length

/-- The bytes of a record. -/
def recBytes (r : Record) : List UInt8 := leBytes 4 (recSize r) ++ (r.1.1 ++ 0 :: r.2)

/-- The bytes of the records. -/
def enc (rs : List Record) : List UInt8 := rs.flatMap recBytes

/-- The memory holds the records, with at least one zero behind them in the buffer, and goes on for
four bytes behind the buffer. -/
structure Stored (xbSize : ℕ) (mem : Mem) (rs : List Record) : Prop where
  bytes : ∃ z tail, mem = enc rs ++ (replicate z 0 ++ tail) ∧
    (enc rs).length + z = xbSize ∧ 0 < z ∧ 4 ≤ tail.length
  nodup : (rs.map Prod.fst).Nodup

variable {xbSize pos k : ℕ} {mem : Mem} {rs pre mid post : List Record} {r : Record} {name : Name}
  {v s rest : List UInt8}

section Encoding

variable {a b c : List UInt8}

theorem recBytes_length (r : Record) : (recBytes r).length = recSize r := by
  simp only [recBytes, recSize, length_append, length_cons, leBytes_length]
  omega

theorem enc_append (xs ys : List Record) : enc (xs ++ ys) = enc xs ++ enc ys := flatMap_append

theorem enc_cons (r : Record) (rs : List Record) : enc (r :: rs) = recBytes r ++ enc rs := rfl

theorem length_le_enc (rs : List Record) : rs.length ≤ (enc rs).length := by
  induction rs with
  | nil => exact zero_le _
  | cons r rs ih =>
    rw [enc_cons, length_append, recBytes_length, length_cons, recSize]
    omega

/-- The length of the next record, or zero at the end. -/
def headSize : List Record → ℤ
  | [] => 0
  | r :: _ => recSize r

theorem read_append {n : ℕ} (hpos : pos = a.length) (hn : n = b.length) :
    read (a ++ (b ++ c)) pos n = some b := by
  subst hpos hn
  rw [read, if_pos (by simp only [length_append]; omega), slice_append]

theorem write_append {ys : List UInt8} (hpos : pos = a.length) (hn : ys.length = b.length) :
    write (a ++ (b ++ c)) pos ys = some (a ++ (ys ++ c)) := by
  subst hpos
  rw [write, if_pos (by simp only [length_append]; omega), splice_append hn]

/-- A length that fits is the same as an `int`. -/
theorem bmod_of_lt {x : ℕ} (hx : x < 2 ^ 31) : (x : ℤ).bmod (2 ^ 32) = x := by
  apply Int.bmod_eq_of_le <;> omega

theorem reclen_eq (hname : name.1.length ≤ xbSize) (hlt : recSize (name, v) < 2 ^ 31) :
    reclen xbSize name v = recSize (name, v) := by
  unfold reclen
  simp only [min_eq_left hname]
  exact bmod_of_lt hlt

theorem reclen_toNat (hname : name.1.length ≤ xbSize) (hlt : recSize (name, v) < 2 ^ 31) :
    (reclen xbSize name v % 2 ^ 32).toNat = recSize (name, v) := by
  rw [reclen_eq hname hlt]
  omega

theorem readInt_record (hpos : pos = a.length) (hr : recSize r < 2 ^ 31) :
    readInt (a ++ (recBytes r ++ b)) pos = some (recSize r : ℤ) := by
  rw [readInt, recBytes, append_assoc, read_append hpos (leBytes_length 4 _).symm,
    map_some, ofLeBytes_leBytes (hr.trans (by decide)), bmod_of_lt hr]

theorem readInt_zero {z : ℕ} (hpos : pos = a.length) (hz : 4 ≤ z) :
    readInt (a ++ (replicate z 0 ++ b)) pos = some 0 := by
  obtain ⟨z, rfl⟩ := Nat.exists_eq_add_of_le hz
  have hzero : ofLeBytes (replicate 4 0) = 0 := by decide
  rw [readInt, replicate_add, append_assoc, read_append hpos List.length_replicate.symm,
    Option.map_some, hzero, bmod_of_lt (Nat.two_pow_pos 31), cast_zero]

end Encoding

section Comparison

theorem strncmpEq_eq {t : List UInt8} (hs : 0 ∉ s) (ht : 0 ∉ t) (hk : s.length < k) :
    strncmpEq (s ++ 0 :: rest) t k = some (decide (s = t)) := by
  induction s generalizing t k with
  | nil =>
    rcases k with _ | k
    · omega
    cases t with
    | nil => rfl
    | cons c t =>
      have hc : (0 : UInt8) ≠ c := fun h => ht (h ▸ mem_cons_self)
      simp [strncmpEq, hc]
  | cons x s ih =>
    rcases k with _ | k
    · omega
    have hx : x ≠ 0 := fun h => hs (h ▸ mem_cons_self)
    rw [cons_append, strncmpEq]
    cases t with
    | nil => simp [hx]
    | cons c t =>
      by_cases hc : x = c
      · rw [if_pos (show x = (c :: t).headD 0 from hc), if_neg hx, tail_cons,
          ih (fun h => hs (mem_cons_of_mem _ h)) (fun h => ht (mem_cons_of_mem _ h))
            (by simpa using hk)]
        simp [hc]
      · rw [if_neg (show ¬x = (c :: t).headD 0 from hc)]
        simp [hc]

theorem strnlen_eq (hs : 0 ∉ s) (hk : s.length < k) :
    strnlen (s ++ 0 :: rest) k = some s.length := by
  induction s generalizing k with
  | nil =>
    rcases k with _ | k
    · omega
    rfl
  | cons x s ih =>
    rcases k with _ | k
    · omega
    have hx : x ≠ 0 := fun h => hs (h ▸ mem_cons_self)
    rw [cons_append, strnlen, if_neg hx, ih (fun h => hs (mem_cons_of_mem _ h)) (by simpa using hk)]
    rfl

end Comparison

namespace Stored

theorem around (h : Stored xbSize mem (pre ++ r :: post)) :
    ∃ z tail, mem = enc pre ++ (recBytes r ++ (enc post ++ (replicate z 0 ++ tail))) ∧
      (enc pre).length + recSize r + (enc post).length + z = xbSize ∧ 0 < z ∧
      4 ≤ tail.length := by
  obtain ⟨z, tail, hmem, hz, hpos, htail⟩ := h.bytes
  refine ⟨z, tail, ?_, ?_, hpos, htail⟩
  · rw [hmem, enc_append, enc_cons, append_assoc, append_assoc]
  · rw [← hz, enc_append, enc_cons, length_append, length_append, recBytes_length]
    omega

/-- What follows a record of `a` bytes, written with four zeros behind it, in a space of `z`
zeros. -/
theorem zeros_behind {a z : ℕ} (tail : List UInt8) (ha : a < z) (htail : 4 ≤ tail.length) :
    ∃ tail', tail'.length = tail.length ∧
      replicate 4 0 ++ (replicate z 0 ++ tail).drop (a + 4) = replicate (z - a) 0 ++ tail' := by
  by_cases hle : a + 4 ≤ z
  · refine ⟨tail, rfl, ?_⟩
    rw [drop_append_of_le_length (by rwa [length_replicate]), drop_replicate,
      ← append_assoc, ← replicate_add]
    congr 2
    omega
  · refine ⟨replicate (4 - (z - a)) 0 ++ tail.drop (a + 4 - z), ?_, ?_⟩
    · simp only [length_append, length_replicate, length_drop]
      omega
    · rw [drop_append, drop_eq_nil_of_le (by rw [length_replicate]; omega),
        nil_append, length_replicate, ← append_assoc, ← replicate_add]
      congr 2
      omega

theorem cases_name (h : Stored xbSize mem rs) (name : Name) :
    name ∉ rs.map Prod.fst ∨ ∃ pre v post, rs = pre ++ (name, v) :: post ∧
      name ∉ pre.map Prod.fst ∧ name ∉ post.map Prod.fst := by
  by_cases hmem : name ∈ rs.map Prod.fst
  · obtain ⟨⟨_, v⟩, hr, rfl⟩ := List.mem_map.mp hmem
    obtain ⟨pre, post, rfl⟩ := append_of_mem hr
    have hnodup := h.nodup
    rw [map_append, map_cons, nodup_middle, nodup_cons, mem_append, not_or] at hnodup
    exact .inr ⟨pre, v, post, rfl, hnodup.1⟩
  · exact .inl hmem

section

variable (h : Stored xbSize mem (pre ++ r :: post))
include h

theorem split_name : ∃ rest,
    mem = enc pre ++ leBytes 4 (recSize r) ++ (r.1.1 ++ 0 :: (r.2 ++ rest)) := by
  obtain ⟨z, tail, hmem, -, -, -⟩ := h.around
  refine ⟨enc post ++ (replicate z 0 ++ tail), ?_⟩
  rw [hmem, recBytes]
  simp

theorem drop_name : ∃ rest, mem.drop ((enc pre).length + 4) = r.1.1 ++ 0 :: (r.2 ++ rest) := by
  obtain ⟨rest, hmem⟩ := h.split_name
  refine ⟨rest, ?_⟩
  rw [hmem, drop_left' (by rw [length_append, leBytes_length])]

theorem read_value : read mem ((enc pre).length + 4 + r.1.1.length + 1) r.2.length = some r.2 := by
  obtain ⟨rest, hmem⟩ := h.split_name
  rw [hmem, ← append_assoc, append_cons, read_append _ rfl]
  simp only [length_append, leBytes_length, length_singleton]

theorem read_name : read mem ((enc pre).length + 4) r.1.1.length = some r.1.1 := by
  obtain ⟨rest, hmem⟩ := h.split_name
  rw [hmem, read_append _ rfl]
  simp [leBytes_length]

/-- The test of `nval_find` at a record. -/
theorem test_record (name : Name) :
    strncmpEq (mem.drop ((enc pre).length + 4)) name (recSize r : ℤ).toNat =
      some (decide (r.1 = name)) := by
  obtain ⟨rest, hdrop⟩ := h.drop_name
  rw [hdrop, Int.toNat_natCast, strncmpEq_eq r.1.2 name.2 (by rw [recSize]; omega)]
  simp only [Subtype.ext_iff]

end

theorem test_other (h : Stored xbSize mem (mid ++ post)) (hname : name ∉ mid.map Prod.fst)
    (xs : List Record) (r : Record) (ys : List Record) (heq : mid = xs ++ r :: ys) :
    strncmpEq (mem.drop ((enc xs).length + 4)) name (recSize r : ℤ).toNat = some false := by
  have hne : r.1 ≠ name := fun he => hname (he ▸ mem_map_of_mem (by simp [heq]))
  have h' : Stored xbSize mem (xs ++ r :: (ys ++ post)) := by simpa [heq] using h
  simpa [hne] using h'.test_record name

variable (hint : xbSize < 2 ^ 31)
include hint

theorem readInt_head (h : Stored xbSize mem (pre ++ post))
    (hroom : post = [] → (enc pre).length + 4 ≤ xbSize) :
    readInt mem (enc pre).length = some (headSize post) := by
  cases post with
  | nil =>
    obtain ⟨z, tail, hmem, hz, -, -⟩ := h.bytes
    rw [append_nil] at hmem hz
    rw [hmem, readInt_zero rfl (by have := hroom rfl; omega)]
    rfl
  | cons r post =>
    obtain ⟨z, tail, hmem, hz, -, -⟩ := h.around
    rw [hmem, readInt_record rfl (by omega)]
    rfl

theorem nextSize_head (h : Stored xbSize mem (pre ++ post)) (hfour : 4 ≤ xbSize) :
    nextSize xbSize mem ((enc pre).length : ℕ) = some (headSize post) := by
  have hlt : (enc pre).length < xbSize := by
    obtain ⟨z, tail, -, hz, hpos, -⟩ := h.bytes
    rw [enc_append, length_append] at hz
    omega
  have hbound : (((enc pre).length : ℕ) : ℤ) % 2 ^ 32 < ((xbSize : ℤ) - 4) % 2 ^ 32 ↔
      (enc pre).length + 4 < xbSize := by omega
  simp only [nextSize, hbound, Int.toNat_natCast, Int.natCast_nonneg, if_true]
  split_ifs with hroom
  · exact h.readInt_head hint fun _ => by omega
  · cases post with
    | nil => rfl
    | cons r post =>
      obtain ⟨z, tail, -, hz, -, -⟩ := h.around
      rw [recSize] at hz
      omega

theorem walk_skip (test : ℕ → ℤ → Option Bool) (h : Stored xbSize mem (pre ++ (mid ++ post)))
    (hfour : 4 ≤ xbSize) (htest : ∀ xs r ys, pre ++ mid = xs ++ r :: ys → r ∈ mid →
      test (enc xs).length (recSize r) = some false) (n : ℕ) :
    walk xbSize mem test (mid.length + n) (enc pre).length (headSize (mid ++ post)) =
      walk xbSize mem test n (enc (pre ++ mid)).length (headSize post) := by
  induction mid generalizing pre with
  | nil => rw [append_nil, length_nil, zero_add, nil_append]
  | cons r mid ih =>
    obtain ⟨z, tail, hmem, hz, hpos, htail⟩ := h.around
    have hsame : pre ++ r :: mid = (pre ++ [r]) ++ mid := by simp
    have hnext : (enc (pre ++ [r])).length = (enc pre).length + recSize r := by
      rw [enc_append, length_append, enc_cons, length_append, recBytes_length]
      rfl
    have h' : Stored xbSize mem ((pre ++ [r]) ++ (mid ++ post)) := by simpa using h
    have hcond : (0 : ℤ) < recSize r ∧ (recSize r : ℤ) < xbSize ∧
        ((enc pre).length : ℤ) + recSize r < xbSize := by
      have : 0 < recSize r := by rw [recSize]; omega
      omega
    rw [length_cons, add_right_comm, cons_append, headSize, walk, if_pos hcond,
      htest pre r mid rfl mem_cons_self]
    simp only [bind_eq_bind, bind_some, Bool.false_eq_true, if_false,
      Int.toNat_natCast, ← hnext, h'.nextSize_head hint hfour]
    rw [ih h' fun xs r' ys heq hr' => htest xs r' ys (hsame ▸ heq) (mem_cons_of_mem _ hr'), hsame]

variable (hfour : 4 ≤ xbSize)
include hfour

/-- The walk from the start goes over records for which the test does not hold. -/
theorem walk_start (test : ℕ → ℤ → Option Bool) (h : Stored xbSize mem (mid ++ post))
    (htest : ∀ xs r ys, mid = xs ++ r :: ys → test (enc xs).length (recSize r) = some false) :
    readInt mem 0 = some (headSize (mid ++ post)) ∧
      ∃ n, walk xbSize mem test (xbSize + 1) 0 (headSize (mid ++ post)) =
        walk xbSize mem test (n + 1) (enc mid).length (headSize post) := by
  obtain ⟨z, tail, -, hz, hpos, -⟩ := h.bytes
  have hle := length_le_enc mid
  rw [enc_append, length_append] at hz
  have hstored : Stored xbSize mem ([] ++ (mid ++ post)) := h
  refine ⟨hstored.readInt_head hint fun _ => ?_, xbSize - mid.length, ?_⟩
  · rw [show (enc []).length = 0 from rfl]
    omega
  · rw [show xbSize + 1 = mid.length + (xbSize - mid.length + 1) by omega]
    exact walk_skip hint test hstored hfour (fun xs r ys heq _ => htest xs r ys heq) _

theorem used (h : Stored xbSize mem rs) : nvalUsed xbSize mem = some (enc rs).length := by
  rw [← append_nil rs] at h
  obtain ⟨hread, n, hwalk⟩ := walk_start hint hfour (fun _ _ => some false) h fun _ _ _ _ => rfl
  rw [nvalUsed, hread]
  simp only [bind_eq_bind, bind_some, hwalk]
  rfl

/-- `nval_find` of a name that is not there. -/
theorem find_of_notMem (h : Stored xbSize mem rs) (hname : name ∉ rs.map Prod.fst) :
    nvalFind xbSize mem name = some none := by
  rw [← append_nil rs] at h
  obtain ⟨hread, n, hwalk⟩ := walk_start hint hfour
    (fun pos size => strncmpEq (mem.drop (pos + 4)) name size.toNat) h (h.test_other hname)
  rw [nvalFind, hread]
  simp only [bind_eq_bind, bind_some, hwalk]
  rfl

section

variable (h : Stored xbSize mem (pre ++ (name, v) :: post)) (hname : name ∉ pre.map Prod.fst)
include h hname

/-- `nval_find` of a name that is there. -/
theorem find_of_mem :
    nvalFind xbSize mem name = some (some ((enc pre).length, (recSize (name, v) : ℤ))) := by
  obtain ⟨z, tail, -, hz, hpos, -⟩ := h.around
  obtain ⟨hread, n, hwalk⟩ := walk_start hint hfour
    (fun pos size => strncmpEq (mem.drop (pos + 4)) name size.toNat) h (h.test_other hname)
  have hcond : (0 : ℤ) < recSize (name, v) ∧ (recSize (name, v) : ℤ) < xbSize ∧
      ((enc pre).length : ℤ) + recSize (name, v) < xbSize := by
    have : 0 < recSize (name, v) := by rw [recSize]; omega
    omega
  rw [nvalFind, hread]
  simp only [bind_eq_bind, bind_some]
  rw [hwalk, headSize, walk, if_pos hcond, h.test_record name]
  simp

/-- `nval_del` removes the record. -/
theorem del :
    ∃ mem', nvalDel xbSize name mem = some (0, mem') ∧ Stored xbSize mem' (pre ++ post) := by
  obtain ⟨z, tail, hmem, hz, hpos, htail⟩ := h.around
  have hread : readInt mem (enc pre).length = some (recSize (name, v) : ℤ) :=
    h.readInt_head hint fun hnil => by simp at hnil
  have hlen := recBytes_length (name, v)
  obtain ⟨rest, hrest⟩ : ∃ rest, rest = enc post ++ replicate z (0 : UInt8) := ⟨_, rfl⟩
  have hrestLen : rest.length = (enc post).length + z := by
    rw [hrest, length_append, length_replicate]
  have hmem' : mem = enc pre ++ (recBytes (name, v) ++ (rest ++ tail)) := by
    rw [hmem, hrest, append_assoc (enc post)]
  -- the rest of the buffer moves down, front the record and a part of itself
  obtain ⟨front, left, hsplit, hover, hleft⟩ : ∃ front left,
      recBytes (name, v) ++ rest = front ++ left ∧
      rest.length = front.length ∧ recSize (name, v) = left.length := by
    refine ⟨_, _, (take_append_drop rest.length _).symm, ?_, ?_⟩
    · simp only [length_take, length_append]
      omega
    · simp only [length_drop, length_append]
      omega
  have hmove : write mem (enc pre).length rest = some ((enc pre ++ rest) ++ (left ++ tail)) := by
    rw [hmem', ← append_assoc (recBytes _), hsplit, append_assoc front,
      write_append rfl hover, append_assoc]
  have hclear : write ((enc pre ++ rest) ++ (left ++ tail)) (xbSize - recSize (name, v))
      (replicate (recSize (name, v)) 0) =
        some ((enc pre ++ rest) ++ (replicate (recSize (name, v)) 0 ++ tail)) := by
    apply write_append
    · rw [length_append]
      omega
    · rw [length_replicate, hleft]
  refine ⟨(enc pre ++ rest) ++ (replicate (recSize (name, v)) 0 ++ tail), ?_,
    ⟨z + recSize (name, v), tail, ?_, ?_, by omega, htail⟩, ?_⟩
  · have hfrom : read mem ((enc pre).length + recSize (name, v))
        (xbSize - ((enc pre).length + recSize (name, v))) = some rest := by
      rw [hmem', ← append_assoc]
      apply read_append
      · rw [length_append, hlen]
      · omega
    simp only [nvalDel, h.find_of_mem hint hfour hname, bind_eq_bind, bind_some,
      hread, Int.toNat_natCast, hfrom, hmove, hclear]
    rfl
  · rw [hrest, enc_append, replicate_add]
    simp only [append_assoc]
  · rw [enc_append, length_append]
    omega
  · have hnodup := h.nodup
    rw [map_append, map_cons, nodup_middle, nodup_cons] at hnodup
    rw [map_append]
    exact hnodup.2

end

theorem put (h : Stored xbSize mem rs) (hname : name ∉ rs.map Prod.fst)
    (hroom : (enc rs).length + recSize (name, v) < xbSize) :
    ∃ mem', putRecord xbSize name v (enc rs).length mem = some mem' ∧
      Stored xbSize mem' (rs ++ [(name, v)]) := by
  obtain ⟨z, tail, hmem, hz, hpos, htail⟩ := h.bytes
  have hsize : recSize (name, v) = 4 + name.1.length + 1 + v.length := rfl
  have hmin : min name.1.length xbSize = name.1.length := by omega
  have hlen := reclen_toNat (v := v) (by omega : name.1.length ≤ xbSize) (by omega)
  have hcpy : strncpy name (recSize (name, v)) =
      (name.1 ++ [0]) ++ (replicate v.length 0 ++ replicate 4 0) := by
    have hzeros : recSize (name, v) - name.1.length = v.length + 4 + 1 := by omega
    rw [strncpy, take_of_length_le (by omega), ← replicate_add, append_assoc,
      singleton_append, ← replicate_succ, hzeros]
  -- the record and the four bytes behind it are written
  obtain ⟨w₁, w₂, after, hsplit, hw₁, hw₂, hafter⟩ : ∃ w₁ w₂ after : List UInt8,
      replicate z 0 ++ tail = w₁ ++ (w₂ ++ after) ∧ 4 = w₁.length ∧ recSize (name, v) = w₂.length ∧
        after = (replicate z 0 ++ tail).drop (recSize (name, v) + 4) := by
    refine ⟨(replicate z 0 ++ tail).take 4, ((replicate z 0 ++ tail).drop 4).take
      (recSize (name, v)), _, ?_, ?_, ?_, rfl⟩
    · rw [add_comm, ← drop_drop, take_append_drop, take_append_drop]
    all_goals
      simp only [length_take, length_drop, length_append, length_replicate]
      omega
  obtain ⟨tail', htail', heq⟩ := zeros_behind (a := recSize (name, v)) (z := z) tail
    (by omega) htail
  have h₁ : write mem (enc rs).length (leBytes 4 (recSize (name, v))) =
      some ((enc rs ++ leBytes 4 (recSize (name, v))) ++ (w₂ ++ after)) := by
    rw [hmem, hsplit, write_append rfl ((leBytes_length 4 _).trans hw₁), append_assoc]
  have h₂ : write ((enc rs ++ leBytes 4 (recSize (name, v))) ++ (w₂ ++ after))
      ((enc rs).length + 4) (strncpy name (recSize (name, v))) =
        some ((enc rs ++ leBytes 4 (recSize (name, v)) ++ (name.1 ++ [0])) ++
          (replicate v.length 0 ++ (replicate 4 0 ++ after))) := by
    have hat : (enc rs).length + 4 = (enc rs ++ leBytes 4 (recSize (name, v))).length := by
      rw [length_append, leBytes_length]
    have hlong : (strncpy name (recSize (name, v))).length = w₂.length := by
      rw [hcpy, ← hw₂]
      simp only [length_append, length_replicate, length_singleton]
      omega
    rw [write_append hat hlong, hcpy]
    simp
  have h₃ : write ((enc rs ++ leBytes 4 (recSize (name, v)) ++ (name.1 ++ [0])) ++
      (replicate v.length 0 ++ (replicate 4 0 ++ after)))
        ((enc rs).length + 4 + (name.1.length + 1)) v =
      some ((enc rs ++ leBytes 4 (recSize (name, v)) ++ (name.1 ++ [0])) ++
        (v ++ (replicate 4 0 ++ after))) := by
    apply write_append
    · simp only [length_append, leBytes_length, length_singleton]
    · rw [length_replicate]
  refine ⟨(enc rs ++ leBytes 4 (recSize (name, v)) ++ (name.1 ++ [0])) ++
    (v ++ (replicate 4 0 ++ after)), ?_,
    ⟨z - recSize (name, v), tail', ?_, ?_, by omega, by omega⟩, ?_⟩
  · simp only [putRecord, hlen, hmin, bind_eq_bind, h₁, bind_some, h₂, h₃]
  · rw [← heq, ← hafter, enc_append, enc_cons, recBytes]
    simp [enc]
  · rw [enc_append, length_append, enc_cons, length_append, recBytes_length]
    simp only [enc, flatMap_nil, length_nil]
    simp only [enc] at hz hroom
    omega
  · rw [map_append, map_singleton, nodup_append]
    refine ⟨h.nodup, nodup_singleton _, fun a ha b hb he => hname ?_⟩
    obtain rfl : b = name := List.mem_singleton.mp hb
    exact he ▸ ha

end Stored

end AndroidKernel.NameVal
