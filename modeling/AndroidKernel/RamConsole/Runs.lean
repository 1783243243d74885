import AndroidKernel.RamConsole.Basic

/-!
# What the RAM console keeps

The log in the buffer is always the last bytes that were written, as many as there is room for, and
the parity of every block with log data fits. So the next boot finds just these bytes, once the
header's parity has been written, which the first write after a boot does.
-/

namespace AndroidKernel.RamConsole

open Bytes Function List Nat Ecc Option Buffer

variable {π : Type} {ecc : Option (Ecc π)} {b : Buffer π} {s : List UInt8} {m : ℕ}

section Parity

variable {e : Ecc π} {data : List UInt8} {limit n slot k : ℕ} {par : ℕ → π}

theorem Ecc.blockSize_pos : 0 < e.blockSize := Nat.two_pow_pos _

/-- The loop over the blocks sets the slots from the first on, up to the limit. -/
theorem encodeBlocks_apply (hfuel : limit ≤ slot * e.blockSize + n * e.blockSize) (hn : 0 < n) :
    e.encodeBlocks data limit n (slot * e.blockSize) slot par k =
      if k = slot ∨ (slot < k ∧ k * e.blockSize < limit) then
        e.code.encode (e.block data (k * e.blockSize))
      else par k := by
  induction n generalizing slot par with
  | zero => omega
  | succ n ih =>
    have hnext : slot * e.blockSize + e.blockSize = (slot + 1) * e.blockSize := (succ_mul _ _).symm
    have hfuel' : limit ≤ (slot + 1) * e.blockSize + n * e.blockSize := by
      rw [succ_mul] at hfuel ⊢
      omega
    rw [encodeBlocks, hnext]
    split_ifs with hlimit hk hk
    · -- there is a next block
      have hn : 0 < n := by
        rcases Nat.eq_zero_or_pos n with rfl | hn
        · omega
        · exact hn
      rw [ih hfuel' hn]
      by_cases hslot : k = slot
      · subst hslot
        rw [if_neg (by omega), update_self]
      · have hlt := (hk.resolve_left hslot).1
        rw [if_pos]
        rcases Nat.lt_or_eq_of_le hlt with hgt | heq
        · exact .inr ⟨hgt, (hk.resolve_left hslot).2⟩
        · exact .inl heq.symm
    · have hne : k ≠ slot ∧ k ≠ slot + 1 := by
        refine ⟨fun h => hk (.inl h), fun h => hk (.inr ⟨by omega, ?_⟩)⟩
        rwa [h]
      rw [ih hfuel' (by
        rcases Nat.eq_zero_or_pos n with rfl | hn
        · omega
        · exact hn), if_neg, update_of_ne hne.1]
      rintro (h | h)
      · exact hne.2 h
      · exact hk (.inr ⟨by omega, h.2⟩)
    · -- the slots behind the last are out of the limit
      obtain rfl : k = slot := by
        refine hk.resolve_right fun h => hlimit (lt_of_le_of_lt ?_ h.2)
        exact mul_le_mul_right _ h.1
      rw [update_self]
    · rw [update_of_ne fun h => hk (.inl h)]

/-- The parity of every block that begins before `m` fits. -/
def ParityOk (ecc : Option (Ecc π)) (b : Buffer π) (m : ℕ) : Prop :=
  ∀ e ∈ ecc, ∀ k, k * e.blockSize < m → b.par k = e.code.encode (e.block b.data (k * e.blockSize))

theorem Ecc.block_start (start : ℕ) :
    start - (start &&& (e.blockSize - 1)) = start / e.blockSize * e.blockSize := by
  rw [blockSize, and_two_pow_sub_one_eq_mod]
  have := div_add_mod' start (2 ^ e.shift)
  omega

theorem block_splice (hfit : b.start + s.length ≤ b.data.length)
    (hk : (k + 1) * e.blockSize ≤ b.start ∨ b.start + s.length ≤ k * e.blockSize) :
    e.block (splice b.data b.start s) (k * e.blockSize) = e.block b.data (k * e.blockSize) := by
  rw [block, block, length_splice _ _ _ hfit]
  apply slice_splice_of_disjoint (by omega)
  rw [succ_mul] at hk
  split_ifs <;> omega

@[simp] theorem ramConsoleUpdate_data :
    (ramConsoleUpdate ecc s b).data = splice b.data b.start s := by
  cases ecc <;> rfl

@[simp] theorem ramConsoleUpdate_start : (ramConsoleUpdate ecc s b).start = b.start := by
  cases ecc <;> rfl

@[simp] theorem ramConsoleUpdate_size : (ramConsoleUpdate ecc s b).size = b.size := by
  cases ecc <;> rfl

@[simp] theorem ramConsoleUpdate_sig : (ramConsoleUpdate ecc s b).sig = b.sig := by
  cases ecc <;> rfl

theorem ramConsoleUpdate_parityOk (h : ParityOk ecc b m) (hstart : b.start ≤ m)
    (hfit : b.start + s.length ≤ b.data.length) :
    ParityOk ecc (ramConsoleUpdate ecc s b) (max m (b.start + s.length)) := by
  cases ecc with
  | none => exact fun e he => (not_mem_none e he).elim
  | some e =>
    intro e' he' k hk
    obtain rfl : e = e' := some.inj he'
    have hpos : 0 < e.blockSize := e.blockSize_pos
    have hdiv := div_add_mod' b.start e.blockSize
    have hmod := mod_lt b.start hpos
    rw [ramConsoleUpdate_data]
    simp only [ramConsoleUpdate, block_start]
    have hfuel : s.length ≤ s.length * e.blockSize := Nat.le_mul_of_pos_right _ hpos
    rw [encodeBlocks_apply (by rw [succ_mul]; omega) (succ_pos _)]
    split_ifs with htouched
    · rfl
    · push Not at htouched
      rcases lt_or_ge k (b.start / e.blockSize) with hlt | hge
      · have hle : (k + 1) * e.blockSize ≤ b.start / e.blockSize * e.blockSize :=
          mul_le_mul_right _ hlt
        rw [block_splice hfit (.inl (by omega))]
        exact h e he' k (by rw [succ_mul] at hle; omega)
      · have hlimit := htouched.2 (lt_of_le_of_ne hge (Ne.symm htouched.1))
        rw [block_splice hfit (.inr hlimit)]
        exact h e he' k (by omega)

end Parity

section Contents

/-- What holds of the buffer between writes. -/
structure Intact (ecc : Option (Ecc π)) (b : Buffer π) : Prop where
  sig : b.sig = ramConsoleSig
  start_le : b.start ≤ b.size
  size_le : b.size ≤ b.data.length
  grows : b.size < b.data.length → b.start = b.size
  parity : ParityOk ecc b b.size

theorem contents_of_eq (h : b.start = b.size) : b.contents = b.data.take b.size := by
  simp [contents, slice, h]

theorem contents_of_full (h : b.size = b.data.length) :
    b.contents = b.data.drop b.start ++ b.data.take b.start := by
  rw [contents, slice, slice, h, drop_zero, ← length_drop, take_length]

/-- A write that fits before the end of the data. -/
def advance (ecc : Option (Ecc π)) (s : List UInt8) (b : Buffer π) : Buffer π :=
  { ramConsoleUpdate ecc s b with
    start := b.start + s.length
    size := if b.size < b.data.length then b.size + s.length else b.size }

theorem advance_spec (h : Intact ecc b) (hfit : b.start + s.length ≤ b.data.length) :
    Intact ecc (advance ecc s b) ∧ (advance ecc s b).data.length = b.data.length ∧
      (advance ecc s b).contents = (b.contents ++ s).rtake b.data.length := by
  have hlen := length_splice _ _ _ hfit
  have hstart := h.start_le
  have hsize := h.size_le
  have hgrows := h.grows
  have hpar := ramConsoleUpdate_parityOk h.parity hstart hfit
  have htake := take_splice b.data s b.start (by omega)
  have hdrop := drop_splice b.data s b.start (by omega)
  by_cases hfull : b.size < b.data.length
  · have heq := hgrows hfull
    refine ⟨⟨by simpa [advance] using h.sig, ?_, ?_, ?_, ?_⟩, by simpa [advance] using hlen, ?_⟩
    · simp [advance, hfull, heq]
    · simp only [advance, ramConsoleUpdate_data, if_pos hfull, hlen]
      omega
    · simp [advance, hfull, heq]
    · intro e he k hk
      refine hpar e he k ?_
      simp only [advance, if_pos hfull] at hk
      omega
    · have hnew : (advance ecc s b).start = (advance ecc s b).size := by
        simp [advance, hfull, heq]
      rw [contents_of_eq hnew, contents_of_eq heq, ← hnew]
      simp only [advance, ramConsoleUpdate_data]
      rw [htake, heq, rtake, Nat.sub_eq_zero_of_le, drop_zero]
      simp only [length_append, length_take]
      omega
  · have heq : b.size = b.data.length := by omega
    refine ⟨⟨by simpa [advance] using h.sig, ?_, ?_, ?_, ?_⟩, by simpa [advance] using hlen, ?_⟩
    · simp only [advance, if_neg hfull]
      omega
    iterate 2
      · simp only [advance, ramConsoleUpdate_data, if_neg hfull, hlen]
        omega
    · intro e he k hk
      refine hpar e he k ?_
      simp only [advance, if_neg hfull] at hk
      omega
    · have hnew : (advance ecc s b).size = (advance ecc s b).data.length := by
        simp only [advance, ramConsoleUpdate_data, if_neg hfull, hlen]
        exact heq
      rw [contents_of_full hnew, contents_of_full heq]
      simp only [advance, ramConsoleUpdate_data]
      rw [htake, hdrop, rtake]
      have hover : (b.data.drop b.start ++ b.data.take b.start ++ s).length - b.data.length =
          s.length := by
        simp only [length_append, length_take, length_drop]
        omega
      rw [hover, append_assoc, drop_append_of_le_length (by
        simp only [length_drop]
        omega), drop_drop]

/-- A write up to the end of the data, after which the next begins at its begin. -/
theorem wrapAround_spec (h : Intact ecc b) (hfit : b.start + s.length = b.data.length) :
    Intact ecc (wrapAround ecc s b) ∧ (wrapAround ecc s b).data.length = b.data.length ∧
      (wrapAround ecc s b).contents = (b.contents ++ s).rtake b.data.length := by
  have hlen := length_splice b.data s b.start (by omega)
  have hpar := ramConsoleUpdate_parityOk h.parity h.start_le hfit.le
  obtain ⟨-, -, hcontents⟩ := advance_spec h hfit.le
  refine ⟨⟨by simpa [wrapAround] using h.sig, zero_le _, ?_, ?_, ?_⟩, ?_, ?_⟩
  · simp [wrapAround, hlen]
  · simp [wrapAround, hlen]
  · intro e he k hk
    refine hpar e he k ?_
    simp only [wrapAround] at hk
    omega
  · simpa [wrapAround] using hlen
  · -- the same bytes as without the wrap: at the end of the data there is nothing behind
    rw [← hcontents]
    have hfull : (advance ecc s b).size = (advance ecc s b).data.length := by
      have := h.grows
      have := h.size_le
      simp only [advance, ramConsoleUpdate_data, hlen]
      split_ifs <;> omega
    rw [contents_of_full hfull, contents_of_full (by simp [wrapAround, hlen])]
    simp only [wrapAround, advance, ramConsoleUpdate_data, drop_zero, take_zero, append_nil]
    rw [hfit, ← hlen, drop_length, take_length, nil_append]

theorem Ecc.lt_headerSlot {e : Ecc π} {k n : ℕ} (hk : k * e.blockSize < n) :
    k < e.headerSlot n := by
  have hpos : 0 < e.blockSize := e.blockSize_pos
  rw [headerSlot, ← succ_le_iff, le_div_iff_mul_le hpos, succ_mul]
  omega

theorem ramConsoleUpdateHeader_spec (h : Intact ecc b) : Intact ecc (ramConsoleUpdateHeader ecc b) ∧
      (ramConsoleUpdateHeader ecc b).data = b.data ∧
      (ramConsoleUpdateHeader ecc b).contents = b.contents ∧
      ∀ e ∈ ecc, (ramConsoleUpdateHeader ecc b).par (e.headerSlot b.data.length) =
        e.code.encode (ramConsoleUpdateHeader ecc b).header := by
  cases ecc with
  | none => exact ⟨h, rfl, rfl, fun e he => (not_mem_none e he).elim⟩
  | some e =>
    refine ⟨⟨h.sig, h.start_le, h.size_le, h.grows, ?_⟩, rfl, rfl, ?_⟩
    · intro e' he' k hk
      obtain rfl : e = e' := some.inj he'
      have hlt := lt_headerSlot (lt_of_lt_of_le hk h.size_le)
      simp only [ramConsoleUpdateHeader]
      rw [update_of_ne hlt.ne]
      exact h.parity e he' k hk
    · intro e' he'
      obtain rfl : e = e' := some.inj he'
      simp only [ramConsoleUpdateHeader, update_self]
      rfl

/-- A write keeps the buffer intact, and the log is the last bytes of the old log and the new. -/
theorem ramConsoleWrite_spec (s : List UInt8) (h : Intact ecc b) :
    Intact ecc (ramConsoleWrite ecc s b) ∧ (ramConsoleWrite ecc s b).data.length = b.data.length ∧
      (ramConsoleWrite ecc s b).contents = (b.contents ++ s).rtake b.data.length ∧
      ∀ e ∈ ecc, (ramConsoleWrite ecc s b).par (e.headerSlot b.data.length) =
        e.code.encode (ramConsoleWrite ecc s b).header := by
  have hstart := h.start_le.trans h.size_le
  have htrim : (if s.length > b.data.length then s.drop (s.length - b.data.length) else s) =
      s.rtake b.data.length := by
    rw [rtake]
    split_ifs with hlong
    · rfl
    · rw [Nat.sub_eq_zero_of_le (by omega), drop_zero]
  have hshort : (s.rtake b.data.length).length ≤ b.data.length := by
    simp only [rtake, length_drop]
    omega
  obtain ⟨r, b', hr, hb', hlen, hfit, hcontents⟩ : ∃ r b',
      (if b.data.length - b.start < (s.rtake b.data.length).length then
        ((s.rtake b.data.length).drop (b.data.length - b.start),
          wrapAround ecc ((s.rtake b.data.length).take (b.data.length - b.start)) b)
      else (s.rtake b.data.length, b)) = (r, b') ∧ Intact ecc b' ∧
      b'.data.length = b.data.length ∧ b'.start + r.length ≤ b'.data.length ∧
      (b'.contents ++ r).rtake b.data.length =
        (b.contents ++ s.rtake b.data.length).rtake b.data.length := by
    split_ifs with hwrap
    · obtain ⟨hb', hlen, hcontents⟩ := wrapAround_spec
        (s := (s.rtake b.data.length).take (b.data.length - b.start)) h (by
          rw [length_take]
          omega)
      refine ⟨_, _, rfl, hb', hlen, ?_, ?_⟩
      · rw [hlen, length_drop]
        simp only [wrapAround]
        omega
      · rw [hcontents, rtake_append_rtake, append_assoc, take_append_drop]
    · exact ⟨_, _, rfl, h, rfl, by omega, rfl⟩
  have heq : ramConsoleWrite ecc s b = ramConsoleUpdateHeader ecc (advance ecc r b') := by
    simp only [ramConsoleWrite, htrim, hr, advance, ramConsoleUpdate_start, ramConsoleUpdate_size,
      hlen]
  obtain ⟨hadv, hadvlen, hadvcontents⟩ := advance_spec hb' hfit
  obtain ⟨hintact, hdata, hkeep, hheader⟩ := ramConsoleUpdateHeader_spec hadv
  rw [heq]
  refine ⟨hintact, by rw [hdata, hadvlen, hlen], ?_, ?_⟩
  · rw [hkeep, hadvcontents, hlen, hcontents, rtake_append_of_rtake]
  · rwa [hadvlen, hlen] at hheader

end Contents

section Boot

theorem decodeBlocks_of_parityOk {e : Ecc π} (h : ParityOk (some e) b b.size) (n slot : ℕ)
    (errors : Errors) : e.decodeBlocks b.size b.par n (slot * e.blockSize) slot b.data errors =
      (b.data, errors) := by
  induction n generalizing slot with
  | zero => rfl
  | succ n ih =>
    rw [decodeBlocks]
    split_ifs with hlt
    · have hnext : slot * e.blockSize + e.blockSize = (slot + 1) * e.blockSize :=
        (succ_mul _ _).symm
      simp only [h e rfl slot hlt, e.code.decode_encode, hnext]
      rw [block, splice_slice]
      exact ih (slot + 1)
    · rfl

/-- The text with the number of errors, with error correction. -/
def noteOf (ecc : Option (Ecc π)) (errors : Errors) : Option String := ecc.map fun _ => errors.note

theorem ramConsoleSaveOld_spec (h : ParityOk ecc b b.size) (errors : Errors) :
    ramConsoleSaveOld ecc true b errors = (some ⟨b.contents, noteOf ecc errors⟩, b) := by
  cases ecc with
  | none => rfl
  | some e =>
    have hdec := decodeBlocks_of_parityOk h b.size 0 errors
    rw [zero_mul] at hdec
    simp only [ramConsoleSaveOld, hdec]
    rfl

theorem setHeader_header {b' : Buffer π} (hsig : b.sig < 2 ^ 32) (hstart : b.start < 2 ^ 32)
    (hsize : b.size < 2 ^ 32) :
    b'.setHeader b.header = { b' with sig := b.sig, start := b.start, size := b.size } := by
  have hlen := leBytes_length 4
  have hsig' : slice b.header 0 4 = leBytes 4 b.sig := by
    rw [header, slice, drop_zero, append_assoc, take_left' (hlen _)]
  have hstart' : slice b.header 4 4 = leBytes 4 b.start := by
    rw [header, slice, append_assoc, drop_left' (hlen _), take_left' (hlen _)]
  have hsize' : slice b.header 8 4 = leBytes 4 b.size := by
    rw [header, slice, drop_left' (by rw [length_append, hlen, hlen]),
      take_of_length_le (hlen _).le]
  simp only [setHeader, hsig', hstart', hsize']
  rw [ofLeBytes_leBytes hsig, ofLeBytes_leBytes hstart, ofLeBytes_leBytes hsize]

theorem decodeHeader_of_fits (hsig : b.sig < 2 ^ 32) (hstart : b.start < 2 ^ 32)
    (hsize : b.size < 2 ^ 32) (hheader : ∀ e ∈ ecc, b.par (e.headerSlot b.data.length) =
      e.code.encode b.header) : decodeHeader ecc b = (⟨0, 0⟩, b) := by
  cases ecc with
  | none => rfl
  | some e =>
    simp only [decodeHeader, hheader e rfl, e.code.decode_encode,
      setHeader_header hsig hstart hsize]
    rfl

/-- The next boot finds the log of an intact buffer whose header's parity fits. -/
theorem ramConsoleInit_of_intact (h : Intact ecc b) (hlen : b.data.length < 2 ^ 32)
    (hheader : ∀ e ∈ ecc, b.par (e.headerSlot b.data.length) = e.code.encode b.header) :
    ramConsoleInit ecc true b = (some ⟨b.contents, noteOf ecc ⟨0, 0⟩⟩,
      { b with sig := ramConsoleSig, start := 0, size := 0 }) := by
  have hsize := h.size_le
  have hstart := h.start_le
  have hdec := decodeHeader_of_fits (by rw [h.sig]; decide) (by omega) (by omega) hheader
  simp only [ramConsoleInit, hdec]
  rw [if_pos ⟨h.sig, by omega⟩, ramConsoleSaveOld_spec h.parity]

/-- What a boot leaves is an intact buffer with an empty log, whatever was in the memory. -/
theorem intact_of_init (ecc : Option (Ecc π)) (memory : Bool) (b : Buffer π) :
    Intact ecc (ramConsoleInit ecc memory b).2 ∧
    (ramConsoleInit ecc memory b).2.contents = [] := by
  refine ⟨⟨rfl, le_rfl, zero_le _, fun _ => rfl, fun e he k hk => ?_⟩, ?_⟩
  · simp [ramConsoleInit] at hk
  · simp [ramConsoleInit, contents, slice]

/-- All the writes since a boot. -/
def writes (ecc : Option (Ecc π)) (ss : List (List UInt8)) (b : Buffer π) : Buffer π :=
  ss.foldl (fun b s => ramConsoleWrite ecc s b) b

theorem writes_spec (ss : List (List UInt8)) (h : Intact ecc b) (hempty : b.contents = []) :
    Intact ecc (writes ecc ss b) ∧ (writes ecc ss b).data.length = b.data.length ∧
      (writes ecc ss b).contents = ss.flatten.rtake b.data.length ∧
      (ss ≠ [] → ∀ e ∈ ecc, (writes ecc ss b).par (e.headerSlot b.data.length) =
        e.code.encode (writes ecc ss b).header) := by
  induction ss using List.reverseRecOn with
  | nil => exact ⟨h, rfl, by simpa [writes] using hempty, fun hne => absurd rfl hne⟩
  | append_singleton ss s ih =>
    obtain ⟨hintact, hlen, hcontents, -⟩ := ih
    obtain ⟨hintact', hlen', hcontents', hheader⟩ := ramConsoleWrite_spec s hintact
    have heq : writes ecc (ss ++ [s]) b = ramConsoleWrite ecc s (writes ecc ss b) := by
      rw [writes, foldl_append]
      rfl
    rw [hlen] at hcontents' hheader
    rw [heq]
    refine ⟨hintact', hlen'.trans hlen, ?_, fun _ => hheader⟩
    rw [hcontents', hcontents, rtake_append_rtake, flatten_append, flatten_singleton]

theorem decodeBlocks_length {e : Ecc π} (size n offset slot : ℕ) (par : ℕ → π) (data : List UInt8)
    (errors : Errors) :
    (e.decodeBlocks size par n offset slot data errors).1.length = data.length := by
  induction n generalizing offset slot data errors with
  | zero => rfl
  | succ n ih =>
    rw [decodeBlocks]
    split_ifs
    · simp only [ih, splice, length_append, length_take, length_drop,
        e.code.length_decode, block, slice]
      split_ifs <;> omega
    · rfl

theorem decodeHeader_data (ecc : Option (Ecc π)) (b : Buffer π) :
    (decodeHeader ecc b).2.data = b.data := by
  cases ecc <;> rfl

theorem ramConsoleSaveOld_length (memory : Bool) (b : Buffer π) (errors : Errors) :
    (ramConsoleSaveOld ecc memory b errors).2.data.length = b.data.length := by
  cases ecc with
  | none => rfl
  | some e => exact decodeBlocks_length _ _ _ _ _ _ _

theorem ramConsoleInit_length (ecc : Option (Ecc π)) (memory : Bool) (b : Buffer π) :
    (ramConsoleInit ecc memory b).2.data.length = b.data.length := by
  rw [← decodeHeader_data ecc b]
  simp only [ramConsoleInit]
  split
  · exact ramConsoleSaveOld_length _ _ _
  · rfl

/-- From any memory, over every sequence of writes after a boot: the start lies within the size and
the size within the data, and the parity of every block with log data fits; after a write that of
the header fits too. The next boot finds just the last bytes written, as many as there is room for,
if there is no error correction or there was a write; with error correction a note follows them. -/
theorem old_log_is_last_bytes (ecc : Option (Ecc π)) (memory : Bool) (b : Buffer π)
    (hlen : b.data.length < 2 ^ 32) (ss : List (List UInt8)) :
    (writes ecc ss (ramConsoleInit ecc memory b).2).start ≤
      (writes ecc ss (ramConsoleInit ecc memory b).2).size ∧
    (writes ecc ss (ramConsoleInit ecc memory b).2).size ≤ b.data.length ∧
    (∀ e ∈ ecc, ∀ k, k * e.blockSize < (writes ecc ss (ramConsoleInit ecc memory b).2).size →
      (writes ecc ss (ramConsoleInit ecc memory b).2).par k = e.code.encode
        (e.block (writes ecc ss (ramConsoleInit ecc memory b).2).data (k * e.blockSize))) ∧
    (ss ≠ [] → ∀ e ∈ ecc, (writes ecc ss (ramConsoleInit ecc memory b).2).par
      (e.headerSlot b.data.length) =
        e.code.encode (writes ecc ss (ramConsoleInit ecc memory b).2).header) ∧
    (ecc = none ∨ ss ≠ [] →
      (ramConsoleInit ecc true (writes ecc ss (ramConsoleInit ecc memory b).2)).1 =
        some ⟨ss.flatten.rtake b.data.length, noteOf ecc ⟨0, 0⟩⟩) := by
  obtain ⟨hboot, hempty⟩ := intact_of_init ecc memory b
  have hsame := ramConsoleInit_length ecc memory b
  obtain ⟨hintact, hdata, hcontents, hheader⟩ := writes_spec ss hboot hempty
  rw [hsame] at hdata hcontents hheader
  refine ⟨hintact.start_le, hdata ▸ hintact.size_le, hintact.parity, hheader, fun hcase => ?_⟩
  rw [ramConsoleInit_of_intact hintact (by rw [hdata]; exact hlen), hcontents]
  intro e he
  rw [hdata]
  rcases hcase with rfl | hne
  · exact (not_mem_none e he).elim
  · exact hheader hne e he

/-- The code that keeps a copy of a block as its parity. -/
def copyCode : Code (List UInt8) where
  encode block := block
  decode block par :=
    if par.length = block.length then ((distance block par : ℤ), par) else (-1, block)
  decode_encode block := by
    have hzero : distance block block = 0 := by
      rw [distance, countP_eq_zero]
      intro p hp
      obtain ⟨i, hi, rfl⟩ := List.mem_iff_getElem.mp hp
      simp
    simp [hzero]
  length_decode block par := by
    split_ifs with h
    · exact h
    · rfl

/-- Four bytes of memory and a write of five. -/
theorem old_log_is_last_bytes_five : ([[1, 2, 3, 4, 5]] : List (List UInt8)) ≠ [] ∧
    (ramConsoleInit (some ⟨copyCode, 1⟩) true (writes (some ⟨copyCode, 1⟩) [[1, 2, 3, 4, 5]]
      (ramConsoleInit (some ⟨copyCode, 1⟩) true ⟨0, 0, 0, [0, 0, 0, 0], fun _ => []⟩).2)).1 =
        some ⟨[2, 3, 4, 5], some "\nNo errors detected\n"⟩ :=
  ⟨by simp, ((old_log_is_last_bytes (some ⟨copyCode, 1⟩) true ⟨0, 0, 0, [0, 0, 0, 0], fun _ => []⟩
    (by decide) [[1, 2, 3, 4, 5]]).2.2.2.2 (.inr (by simp))).trans rfl⟩

/-- An intact buffer with three bytes in it. -/
def threeBytes (code : Code π) : Buffer π :=
  writes (some ⟨code, 3⟩) [[97, 98, 99]]
    ⟨ramConsoleSig, 0, 0, replicate 16 0, fun _ => code.encode []⟩

/-- A boot does not write the header's parity. When nothing is written after it, the next boot takes
its header for a damaged one, restores the header of the boot before with any code that corrects two
bytes, and finds the old log again, where nothing was written. -/
theorem old_log_found_again : (∀ {π : Type} (code : Code π), code.Corrects 2 →
    (ramConsoleInit (some ⟨code, 3⟩) true (writes (some ⟨code, 3⟩) []
      (ramConsoleInit (some ⟨code, 3⟩) true (threeBytes code)).2)).1 =
        some ⟨[97, 98, 99], some "\n2 Corrected bytes, 0 unrecoverable blocks\n"⟩) ∧
    copyCode.Corrects 2 := by
  constructor
  · intro π code hcode
    have hfresh : Intact (some ⟨code, 3⟩) (⟨ramConsoleSig, 0, 0, replicate 16 0,
        fun _ => code.encode []⟩ : Buffer π) :=
      ⟨rfl, le_rfl, zero_le _, fun _ => rfl, fun _ _ k hk => absurd hk (not_lt_zero _)⟩
    obtain ⟨hintact, hlen, hcontents, hheader⟩ := writes_spec [[97, 98, 99]] hfresh rfl
    change Intact _ (threeBytes code) at hintact
    change (threeBytes code).data.length = 16 at hlen
    change (threeBytes code).contents = [97, 98, 99] at hcontents
    have hheader' : (threeBytes code).par (headerSlot ⟨code, 3⟩ 16) =
        code.encode (threeBytes code).header := hheader (by simp) ⟨code, 3⟩ rfl
    have hsig : (threeBytes code).sig = ramConsoleSig := hintact.sig
    have hstart : (threeBytes code).start = 3 := rfl
    have hsize : (threeBytes code).size = 3 := rfl
    rw [ramConsoleInit_of_intact hintact (by rw [hlen]; decide) (fun e he => by
      obtain rfl : (⟨code, 3⟩ : Ecc π) = e := some.inj he
      rw [hlen]
      exact hheader')]
    generalize threeBytes code = b at *
    -- two bytes of the header differ from the one of the parity
    have hdist : distance ({ b with sig := ramConsoleSig, start := 0, size := 0 } : Buffer π).header
          b.header = 2 := by
      simp only [header, hsig, hstart, hsize]
      decide
    have hdecode := hcode b.header
      ({ b with sig := ramConsoleSig, start := 0, size := 0 } : Buffer π).header
      (by simp [header, leBytes_length]) hdist.le
    have hback : decodeHeader (some ⟨code, 3⟩)
      { b with sig := ramConsoleSig, start := 0, size := 0 } = (⟨2, 0⟩, b) := by
      simp only [decodeHeader, hlen, hheader', hdecode, hdist]
      rw [setHeader_header (by rw [hsig]; decide) (by rw [hstart]; decide) (by rw [hsize]; decide)]
      rfl
    simp only [writes, foldl_nil, ramConsoleInit, hback]
    rw [if_pos ⟨hsig, by omega⟩, ramConsoleSaveOld_spec hintact.parity, hcontents]
    rfl
  · intro block bad hlen _
    simp [copyCode, hlen]

end Boot

end AndroidKernel.RamConsole
