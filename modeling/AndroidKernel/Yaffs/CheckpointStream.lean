import AndroidKernel.Yaffs.Checkpoint

/-!
# A checkpoint is read back

The writer and the reader of a checkpoint go through the same blocks: the writer takes the empty
blocks in their order, and the reader finds those that the writer left behind. What stands on the
flash between the two is described by `Laid`: the pages of the stream, one after the other.

This needs that every write to the flash succeeds, that the stream fits into the empty blocks and
into the list that the reader keeps, and that there are no tags of an older checkpoint.
-/

namespace AndroidKernel.Yaffs.Checkpoint

open Function List Nat

section Intervals

variable {a b x : ℤ} {test : ℤ → Bool} {es : List ℤ} {j : ℕ}

theorem interval_of_lt (h : b < a) : interval a b = [] := by
  have hzero : (b + 1 - a).toNat = 0 := by omega
  rw [interval, hzero]
  rfl

theorem interval_cons (h : a ≤ b) : interval a b = a :: interval (a + 1) b := by
  have hsucc : (b + 1 - a).toNat = (b + 1 - (a + 1)).toNat + 1 := by omega
  rw [interval, hsucc, range_succ_eq_map, map_cons, map_map, interval]
  congr 1
  · simp
  · apply map_congr_left
    intro i _
    simp only [comp_apply]
    omega

theorem mem_interval : x ∈ interval a b ↔ a ≤ x ∧ x ≤ b := by
  rw [interval, mem_map]
  constructor
  · rintro ⟨i, hi, rfl⟩
    rw [mem_range] at hi
    omega
  · intro hx
    exact ⟨(x - a).toNat, List.mem_range.mpr (by omega), by omega⟩

theorem pairwise_interval : (interval a b).Pairwise (· < ·) := by
  rw [interval, pairwise_map]
  exact List.pairwise_lt_range.imp fun hlt => by omega

theorem filter_interval_tail {rest : List ℤ} (h : (interval a b).filter test = x :: rest) :
    (interval (x + 1) b).filter test = rest := by
  generalize hn : (b + 1 - a).toNat = n
  induction n generalizing a with
  | zero =>
    rw [interval_of_lt (by omega)] at h
    cases h
  | succ n ih =>
    rw [interval_cons (by omega), filter_cons] at h
    by_cases ha : test a = true
    · rw [if_pos ha] at h
      obtain ⟨rfl, hrest⟩ := List.cons_eq_cons.mp h
      exact hrest
    · rw [if_neg ha] at h
      exact ih h (by omega)

/-- Where the search for the block `j` of the list starts. -/
def nextBlock (start : ℤ) (es : List ℤ) : ℕ → ℤ
  | 0 => start
  | j + 1 => es.getD j (-2) + 1

section

variable (h : (interval a b).filter test = es)
include h

theorem filter_nextBlock (hj : j ≤ es.length) :
    (interval (nextBlock a es j) b).filter test = es.drop j := by
  induction j with
  | zero => exact h
  | succ j ih =>
    have hhead := ih (by omega)
    rw [drop_eq_getElem_cons (by omega : j < es.length)] at hhead
    rw [nextBlock, getD_eq_getElem?_getD, List.getElem?_eq_getElem (by omega : j < es.length)]
    exact filter_interval_tail hhead

theorem find_nextBlock (hj : es[j]? = some x) :
    (interval (nextBlock a es j) b).find? test = some x := by
  obtain ⟨hlt, -⟩ := List.getElem?_eq_some_iff.mp hj
  rw [← List.head?_filter, filter_nextBlock h hlt.le, List.head?_drop, hj]

theorem nextBlock_le (hj : es[j]? = some x) : nextBlock a es j ≤ x ∧ x ≤ b :=
  mem_interval.mp (mem_of_find?_eq_some (find_nextBlock h hj))

theorem getElem?_bounds (hj : es[j]? = some x) : a ≤ x ∧ x ≤ b :=
  mem_interval.mp (List.mem_filter.mp (h ▸ mem_of_getElem? hj)).1

end

end Intervals

/-- The geometry of a device. -/
structure Layout where
  param : Param
  start : ℕ
  stop : ℕ
  chunks : ℕ
  chunks_pos : 0 < chunks

namespace Layout

variable (l : Layout)

/-- The number of bytes of a chunk. -/
def bytes : ℕ := l.param.nDataBytesPerChunk

/-- The place of a chunk of a block. -/
def place (block : ℤ) (chunk : ℕ) : ℤ := block * l.chunks + chunk - l.param.blockOffset * l.chunks

/-- The number of blocks that the list of the reader can hold. -/
def maxBlocks : ℕ := (l.stop - l.start) / 16 + 2

end Layout

/-- The device is of this geometry. -/
structure HasLayout (l : Layout) (s : Stream) : Prop where
  param : s.param = l.param
  start : s.dev.internalStartBlock = l.start
  stop : s.dev.internalEndBlock = l.stop
  chunks : s.dev.nChunksPerBlock = l.chunks

variable {l : Layout} {s t s₀ : Stream} {es us : List ℤ} {w : List (BitVec 8)} {n p : ℕ} {b : ℤ}
  {flash : ℤ → Option Page} {buf : ℕ → BitVec 8} {res : ℕ → WriteResult}

theorem HasLayout.realignedChunk (h : HasLayout l s) : s.realignedChunk = l.place := by
  funext block chunk
  rw [Stream.realignedChunk, Layout.place, h.chunks, h.param]

theorem place_inj {b' : ℤ} {c c' : ℕ} (hc : c < l.chunks) (hc' : c' < l.chunks)
    (h : l.place b c = l.place b' c') : b = b' ∧ c = c' := by
  have heq : b * l.chunks + c = b' * l.chunks + c' := by
    unfold Layout.place at h
    omega
  have hpos : (0 : ℤ) < l.chunks := by exact_mod_cast l.chunks_pos
  have hdiv (x : ℤ) (y : ℕ) (hy : y < l.chunks) : (x * l.chunks + y) / l.chunks = x := by
    rw [Int.add_comm, Int.add_mul_ediv_right _ _ hpos.ne', Int.ediv_eq_zero_of_lt (by omega)
      (by exact_mod_cast hy), zero_add]
  have hb : b = b' := by rw [← hdiv b c hc, heq, hdiv b' c' hc']
  subst hb
  exact ⟨rfl, by omega⟩

section Cursor

/-- The stream stands before the page `p`. -/
structure At (l : Layout) (es : List ℤ) (p : ℕ) (s : Stream) : Prop where
  seq : s.checkpointPageSequence = p
  fresh : p % l.chunks = 0 → s.checkpointCurrentBlock = -1 ∧
    s.checkpointNextBlock = nextBlock l.start es (p / l.chunks)
  within : p % l.chunks ≠ 0 → ∃ b, es[p / l.chunks]? = some b ∧ s.checkpointCurrentBlock = b ∧
    s.checkpointCurrentChunk = p % l.chunks ∧ s.checkpointNextBlock = b + 1

/-- The stream stands at the page `p`, in the block `b`. -/
structure On (l : Layout) (es : List ℤ) (p : ℕ) (b : ℤ) (s : Stream) : Prop where
  seq : s.checkpointPageSequence = p
  block : es[p / l.chunks]? = some b
  current : s.checkpointCurrentBlock = b
  chunk : s.checkpointCurrentChunk = p % l.chunks
  next : s.checkpointNextBlock = b + 1

theorem On.advance (h : On l es p b s) (hseq : t.checkpointPageSequence = p + 1)
    (hnext : t.checkpointNextBlock = s.checkpointNextBlock)
    (hblock : t.checkpointCurrentBlock =
      if s.checkpointCurrentChunk + 1 ≥ l.chunks then -1 else s.checkpointCurrentBlock)
    (hchunk : s.checkpointCurrentChunk + 1 < l.chunks →
      t.checkpointCurrentChunk = s.checkpointCurrentChunk + 1) : At l es (p + 1) t := by
  have hlt := mod_lt p l.chunks_pos
  have hdiv := div_add_mod p l.chunks
  rw [h.chunk] at hblock hchunk
  rw [h.next] at hnext
  rw [h.current] at hblock
  by_cases hfull : p % l.chunks + 1 = l.chunks
  · -- the block is full
    have hsucc : p + 1 = l.chunks * (p / l.chunks + 1) := by
      rw [mul_add_one]
      omega
    have hmod : (p + 1) % l.chunks = 0 := by rw [hsucc, mul_mod_right]
    have hquot : (p + 1) / l.chunks = p / l.chunks + 1 := by
      rw [hsucc, Nat.mul_div_cancel_left _ l.chunks_pos]
    refine ⟨hseq, fun _ => ⟨?_, ?_⟩, fun hne => absurd hmod hne⟩
    · rw [hblock, if_pos hfull.ge]
    · rw [hnext, hquot, nextBlock, getD_eq_getElem?_getD, h.block]
      rfl
  · have hmod : (p + 1) % l.chunks = p % l.chunks + 1 := by
      rw [add_mod_eq_ite, mod_eq_of_lt (by omega : 1 < l.chunks), if_neg (by omega)]
    have hquot : (p + 1) / l.chunks = p / l.chunks := by
      apply Nat.div_eq_of_lt_le
      · rw [Nat.mul_comm]; omega
      · rw [add_one_mul, mul_comm]; omega
    refine ⟨hseq, fun hzero => by omega, fun _ => ⟨b, ?_, ?_, ?_, hnext⟩⟩
    · rw [hquot]; exact h.block
    · rw [hblock, if_neg (by omega)]
    · rw [hchunk (by omega), hmod]

end Cursor

/-- The first `n` pages of a stream stand on the flash, in the blocks of the list. -/
def Laid (l : Layout) (es : List ℤ) (flash : ℤ → Option Page) (w : List (BitVec 8)) (n : ℕ) :
    Prop :=
  ∀ k < n, ∃ b data, es[k / l.chunks]? = some b ∧
    flash (l.place b (k % l.chunks)) = some ⟨data, b + 1, k + 1, sequenceCheckpointData⟩ ∧
    ∀ i < l.bytes, ∀ x, w[k * l.bytes + i]? = some x → data i = x

/-- What the writer and the reader sum up. -/
def sumOf (w : List (BitVec 8)) : BitVec 32 × BitVec 32 :=
  w.foldl (fun acc b => (acc.1 + b.setWidth 32, acc.2 ^^^ b.setWidth 32)) (0, 0)

theorem sumOf_append (b : BitVec 8) : sumOf (w ++ [b]) =
    ((sumOf w).1 + b.setWidth 32, (sumOf w).2 ^^^ b.setWidth 32) := by
  rw [sumOf, foldl_append]
  rfl

section Writer

/-- The empty blocks of a device, in their order. -/
def emptyBlocks (s : Stream) : List ℤ :=
  (interval s.dev.internalStartBlock s.dev.internalEndBlock).filter s.isEmpty

/-- The stream `w` is written from the state `s₀` on, and `p` pages of it are on the flash. -/
structure Stored (l : Layout) (s₀ : Stream) (w : List (BitVec 8)) (p : ℕ) (s : Stream) : Prop where
  layout : HasLayout l s
  forWrite : s.checkpointOpenForWrite = true
  avail : 0 < s.dev.nErasedBlocks - s.dev.nReservedBlocks
  cursor : At l (emptyBlocks s₀) p s
  empties (b : ℤ) : s.checkpointNextBlock ≤ b → s.isEmpty b = s₀.isEmpty b
  laid : Laid l (emptyBlocks s₀) s.flash w p
  kept (c : ℤ) : (∀ k < p, ∀ b, (emptyBlocks s₀)[k / l.chunks]? = some b →
    c ≠ l.place b (k % l.chunks)) → s.flash c = s₀.flash c
  sum : (s.checkpointSum, s.checkpointXor) = sumOf w

theorem nodup_emptyBlocks : (emptyBlocks s₀).Nodup :=
  (pairwise_interval.filter _).imp fun hlt => hlt.ne

theorem Stored.currentBlock_eq (h : Stored l s₀ w p s) (h₀ : HasLayout l s₀)
    (hb : (emptyBlocks s₀)[p / l.chunks]? = some b) :
    currentBlock s findNextErasedBlock = { s with
      checkpointNextBlock := b + 1
      checkpointCurrentBlock := b
      checkpointCurrentChunk := p % l.chunks } ∧ s.checkpointNextBlock ≤ b + 1 := by
  have hes : (interval l.start l.stop).filter s₀.isEmpty = emptyBlocks s₀ := by
    rw [emptyBlocks, h₀.start, h₀.stop]
  by_cases hmod : p % l.chunks = 0
  · obtain ⟨hcur, hnext⟩ := h.cursor.fresh hmod
    obtain ⟨hle, hstop⟩ := nextBlock_le hes hb
    have hpos : 0 ≤ nextBlock l.start (emptyBlocks s₀) (p / l.chunks) := by
      cases hj : p / l.chunks with
      | zero => exact Int.natCast_nonneg _
      | succ j =>
        obtain ⟨hlt, -⟩ := List.getElem?_eq_some_iff.mp hb
        have hprev : (emptyBlocks s₀)[j]? = some ((emptyBlocks s₀).get ⟨j, by omega⟩) :=
          List.getElem?_eq_getElem (by omega)
        have hbounds := getElem?_bounds hes hprev
        rw [nextBlock, getD_eq_getElem?_getD, hprev, Option.getD_some]
        omega
    -- the blocks from the next one on are as empty as they were
    have hfind : (interval s.checkpointNextBlock l.stop).find? s.isEmpty = some b := by
      rw [← find_nextBlock hes hb, ← hnext, ← List.head?_filter, ← List.head?_filter]
      congr 1
      apply filter_congr
      intro x hx
      exact h.empties x (mem_interval.mp hx).1
    have hguard : 0 ≤ s.checkpointNextBlock ∧ s.checkpointNextBlock ≤ s.dev.internalEndBlock ∧
        0 < s.dev.nErasedBlocks - s.dev.nReservedBlocks := by
      rw [hnext, h.layout.stop]
      exact ⟨hpos, hle.trans hstop, h.avail⟩
    refine ⟨?_, by omega⟩
    rw [currentBlock, if_pos (by omega), findNextErasedBlock, if_pos hguard, h.layout.stop, hfind,
      hmod]
  · obtain ⟨b', hb', hcur, hchunk, hnext⟩ := h.cursor.within hmod
    obtain rfl := Option.some_inj.mp (hb'.symm.trans hb)
    have hbounds := getElem?_bounds hes hb
    refine ⟨?_, hnext.le⟩
    rw [currentBlock, if_neg (by omega), ← hchunk, ← hnext, ← hcur]

theorem Laid.update (h : Laid l es flash w p) (hnodup : es.Nodup) (hb : es[p / l.chunks]? = some b)
    (hbuf : ∀ i < l.bytes, ∀ x, w[p * l.bytes + i]? = some x → buf i = x) :
    Laid l es (update flash (l.place b (p % l.chunks))
      (some ⟨buf, b + 1, p + 1, sequenceCheckpointData⟩)) w (p + 1) := by
  intro k hk
  rcases Nat.lt_succ_iff_lt_or_eq.mp hk with hlt | rfl
  · obtain ⟨b', data, hb', hpage, hdata⟩ := h k hlt
    refine ⟨b', data, hb', ?_, hdata⟩
    rw [update_of_ne, hpage]
    intro heq
    obtain ⟨rfl, hmod⟩ := place_inj (mod_lt _ l.chunks_pos) (mod_lt _ l.chunks_pos) heq
    have hdiv : k / l.chunks = p / l.chunks :=
      (List.getElem?_inj (List.getElem?_eq_some_iff.mp hb').1 hnodup).mp (hb'.trans hb.symm)
    have hk' := div_add_mod k l.chunks
    rw [hdiv, hmod, div_add_mod] at hk'
    omega
  · exact ⟨b, buf, hb, update_self .., hbuf⟩

theorem HasLayout.flushTo (h : HasLayout l s) : HasLayout l (flushTo s res buf) := by
  by_cases hchunk : s.checkpointCurrentChunk = 0
  · refine ⟨h.param, ?_, ?_, ?_⟩ <;> simp only [Checkpoint.flushTo, if_pos hchunk]
    exacts [h.start, h.stop, h.chunks]
  · refine ⟨h.param, ?_, ?_, ?_⟩ <;> simp only [Checkpoint.flushTo, if_neg hchunk]
    exacts [h.start, h.stop, h.chunks]

theorem flushTo_avail (h : 0 < s.dev.nErasedBlocks - s.dev.nReservedBlocks) :
    0 < (flushTo s res buf).dev.nErasedBlocks - (flushTo s res buf).dev.nReservedBlocks := by
  by_cases hchunk : s.checkpointCurrentChunk = 0
  · simp only [flushTo, if_pos hchunk]
    exact h
  · simp only [flushTo, if_neg hchunk]
    exact h

theorem isEmpty_flushTo (hpos : 0 ≤ s.checkpointCurrentBlock) (hlt : s.checkpointCurrentBlock < b) :
    (flushTo s res buf).isEmpty b = s.isEmpty b := by
  by_cases hchunk : s.checkpointCurrentChunk = 0
  · simp only [Stream.isEmpty, flushTo, if_pos hchunk, Device.setBlock]
    rw [update_of_ne (by omega)]
  · simp only [Stream.isEmpty, flushTo, if_neg hchunk]

/-- A full buffer becomes the next chunk. -/
theorem Stored.flush (h : Stored l s₀ w p s) (h₀ : HasLayout l s₀) (hres : ∀ n, res n = .ok)
    (hp : p < (emptyBlocks s₀).length * l.chunks)
    (hbuf : ∀ i < l.bytes, ∀ x, w[p * l.bytes + i]? = some x → buf i = x) :
    ∃ t, flushBuffer s res buf = (true, t) ∧ Stored l s₀ w (p + 1) t ∧
      t.checkpointByteOffset = 0 ∧ t.checkpointBuffer.isSome := by
  have hlt : p / l.chunks < (emptyBlocks s₀).length := (div_lt_iff_lt_mul l.chunks_pos).mpr hp
  obtain ⟨b, hb⟩ : ∃ b, (emptyBlocks s₀)[p / l.chunks]? = some b :=
    ⟨_, List.getElem?_eq_getElem hlt⟩
  have hbounds : 0 ≤ b := by
    have := getElem?_bounds (rfl : _ = emptyBlocks s₀) hb
    omega
  obtain ⟨hcur, hnext⟩ := h.currentBlock_eq h₀ hb
  rw [flushBuffer, hcur]
  refine ⟨_, if_neg (Int.not_lt.mpr hbounds), ?_, rfl, rfl⟩
  generalize hu : ({ s with
    checkpointNextBlock := b + 1
    checkpointCurrentBlock := b
    checkpointCurrentChunk := p % l.chunks } : Stream) = u
  have hon : On l (emptyBlocks s₀) p b u := by subst hu; exact ⟨h.cursor.seq, hb, rfl, rfl, rfl⟩
  have hlayout : HasLayout l u := by
    subst hu
    exact ⟨h.layout.1, h.layout.2, h.layout.3, h.layout.4⟩
  have hflash : (flushTo u res buf).flash = update s.flash (l.place b (p % l.chunks))
      (some ⟨buf, b + 1, p + 1, sequenceCheckpointData⟩) := by
    simp only [flushTo, hres, hlayout.realignedChunk, hon.seq, hon.current, hon.chunk, hon.next]
    subst hu
    rfl
  refine ⟨hlayout.flushTo, ?_, ?_, ?_, fun x hx => ?_, ?_, fun c hc => ?_, ?_⟩
  · subst hu
    exact h.forWrite
  · apply flushTo_avail
    subst hu
    exact h.avail
  · apply hon.advance
    · rw [flushTo, hon.seq]
    · rfl
    · simp only [flushTo, hlayout.chunks]
    · intro hlt'
      simp only [flushTo, hlayout.chunks]
      exact if_neg (Nat.not_le.mpr hlt')
  · have hnext' : (flushTo u res buf).checkpointNextBlock = b + 1 := hon.next
    rw [isEmpty_flushTo (hon.current.symm ▸ hbounds) (by rw [hon.current]; omega)]
    subst hu
    exact h.empties x (by omega)
  · rw [hflash]
    exact h.laid.update nodup_emptyBlocks hb hbuf
  · rw [hflash, update_of_ne (hc p (lt_succ_self p) b hb)]
    exact h.kept c fun k hk => hc k (lt_succ_of_lt hk)
  · subst hu
    exact h.sum

/-- The stream `w` is written from the state `s₀` on; what is not on the flash is in the buffer. -/
structure Written (l : Layout) (s₀ : Stream) (w : List (BitVec 8)) (p : ℕ) (buf : ℕ → BitVec 8)
    (s : Stream) : Prop extends Stored l s₀ w p s where
  buffer : s.checkpointBuffer = some buf
  buffered : ∀ i < l.bytes, ∀ x, w[p * l.bytes + i]? = some x → buf i = x
  length : w.length = p * l.bytes + s.checkpointByteOffset
  offset : s.checkpointByteOffset < l.bytes

/-- A byte that is added to the stream does not change the pages that are full. -/
theorem Laid.append (h : Laid l es flash w p) (hlen : p * l.bytes ≤ w.length) (x : BitVec 8) :
    Laid l es flash (w ++ [x]) p := by
  intro k hk
  obtain ⟨b, data, hb, hpage, hdata⟩ := h k hk
  refine ⟨b, data, hb, hpage, fun i hi y hy => hdata i hi y ?_⟩
  have hin : k * l.bytes + i < w.length := by
    have hmul := mul_le_mul_right l.bytes (succ_le_of_lt hk)
    rw [succ_mul] at hmul
    omega
  rwa [List.getElem?_append_left hin] at hy

section

variable (h : Written l s₀ w p buf s) (h₀ : HasLayout l s₀) (hres : ∀ n, res n = .ok)
include h h₀ hres

/-- A byte that fits is written behind the others. -/
theorem Written.writeByte (hfits : w.length < (emptyBlocks s₀).length * l.chunks * l.bytes)
    (x : BitVec 8) :
    ∃ p' buf' t, writeByte s res x = some (true, t) ∧ Written l s₀ (w ++ [x]) p' buf' t := by
  have hbytes : s.param.nDataBytesPerChunk = l.bytes := by rw [h.layout.param]; rfl
  have htotal : s.checkpointByteOffset < s.param.totalBytesPerChunk :=
    (hbytes ▸ h.offset).trans_le s.param.le
  generalize hu : ({ account s x with
    checkpointBuffer := some (update buf s.checkpointByteOffset x) } : Stream) = u
  have hbuf : ∀ i < l.bytes, ∀ y, (w ++ [x])[p * l.bytes + i]? = some y →
      update buf s.checkpointByteOffset x i = y := by
    intro i hi y hy
    rw [List.getElem?_append] at hy
    by_cases hin : p * l.bytes + i < w.length
    · rw [if_pos hin] at hy
      rw [update_of_ne (by have := h.length; omega)]
      exact h.buffered i hi y hy
    · rw [if_neg hin] at hy
      have hi' : i = s.checkpointByteOffset := by
        obtain ⟨hlt, -⟩ := List.getElem?_eq_some_iff.mp hy
        have := h.length
        simp only [length_singleton] at hlt
        omega
      have hzero : p * l.bytes + i - w.length = 0 := by have := h.length; omega
      rw [hzero] at hy
      rw [hi', update_self]
      exact Option.some_inj.mp hy
  have hstored : Stored l s₀ (w ++ [x]) p u := by
    subst hu
    refine ⟨⟨h.layout.1, h.layout.2, h.layout.3, h.layout.4⟩, h.forWrite, h.avail,
      ⟨h.cursor.1, h.cursor.2, h.cursor.3⟩, h.empties,
      h.laid.append (by have := h.length; omega) x, h.kept, ?_⟩
    rw [sumOf_append, ← h.sum]
    rfl
  have hstep : Checkpoint.writeByte s res x = some
      (if u.checkpointByteOffset ≥ s.param.nDataBytesPerChunk then
        flushBuffer u res (update buf s.checkpointByteOffset x) else (true, u)) := by
    subst hu
    rw [Checkpoint.writeByte, h.buffer, Option.bind_some, if_pos htotal]
  have hoffset : u.checkpointByteOffset = s.checkpointByteOffset + 1 := by subst hu; rfl
  have hlen : (w ++ [x]).length = p * l.bytes + (s.checkpointByteOffset + 1) := by
    rw [length_append, h.length]
    rfl
  by_cases hfull : u.checkpointByteOffset ≥ s.param.nDataBytesPerChunk
  · -- the buffer is full
    have hp : p < (emptyBlocks s₀).length * l.chunks := by
      have := h.length
      exact Nat.lt_of_mul_lt_mul_right (a := l.bytes) (by omega)
    obtain ⟨t, hflush, hstored', hzero, hsome⟩ := hstored.flush h₀ hres hp hbuf
    obtain ⟨buf', hbuf'⟩ := Option.isSome_iff_exists.mp hsome
    have hlen' : (w ++ [x]).length = (p + 1) * l.bytes := by
      have := h.offset
      rw [hlen, add_one_mul]
      omega
    refine ⟨p + 1, buf', t, ?_, hstored', hbuf', fun i _ y hy => ?_, ?_, ?_⟩
    · rw [hstep, if_pos hfull, hflush]
    · obtain ⟨hlt, -⟩ := List.getElem?_eq_some_iff.mp hy
      omega
    · rw [hzero, hlen']
      rfl
    · rw [hzero]
      exact l.param.pos
  · refine ⟨p, _, u, ?_, hstored, ?_, hbuf, ?_, ?_⟩
    · rw [hstep, if_neg hfull]
    · subst hu
      rfl
    · rw [hlen, hoffset]
    · rw [hbytes] at hfull
      omega

theorem Written.writeLoop (bytes : List (BitVec 8))
    (hfits : (w ++ bytes).length ≤ (emptyBlocks s₀).length * l.chunks * l.bytes) :
    ∃ p' buf' t, writeLoop res bytes s = some (bytes.length, t) ∧
      Written l s₀ (w ++ bytes) p' buf' t := by
  induction bytes generalizing w p buf s with
  | nil => exact ⟨p, buf, s, rfl, by rwa [append_nil]⟩
  | cons x rest ih =>
    have hlen : (w ++ x :: rest).length = w.length + (rest.length + 1) := length_append
    obtain ⟨p₁, buf₁, s₁, hbyte, h₁⟩ := h.writeByte h₀ hres (by omega) x
    obtain ⟨p', buf', t, hrest, h'⟩ := ih h₁ (by rwa [append_assoc])
    refine ⟨p', buf', t, ?_, by rwa [append_assoc] at h'⟩
    rw [Checkpoint.writeLoop, hbyte]
    simp [hrest]

theorem Written.writeAll (writes : List (List (BitVec 8)))
    (hfits : (w ++ writes.flatten).length ≤ (emptyBlocks s₀).length * l.chunks * l.bytes) :
    ∃ p' buf' t, writeAll res writes s = some (writes.map fun bytes => (bytes.length : ℤ), t) ∧
      Written l s₀ (w ++ writes.flatten) p' buf' t := by
  induction writes generalizing w p buf s with
  | nil => exact ⟨p, buf, s, rfl, by rwa [flatten_nil, append_nil]⟩
  | cons bytes rest ih =>
    rw [flatten_cons, ← append_assoc] at hfits
    have hlen : (w ++ bytes ++ rest.flatten).length = (w ++ bytes).length + rest.flatten.length :=
      length_append
    obtain ⟨p₁, buf₁, s₁, hloop, h₁⟩ := h.writeLoop h₀ hres bytes (by omega)
    obtain ⟨p', buf', t, hrest, h'⟩ := ih h₁ hfits
    refine ⟨p', buf', t, ?_, by rwa [flatten_cons, ← append_assoc]⟩
    rw [Checkpoint.writeAll, checkpointWrite, h.buffer, h.forWrite, hloop]
    simp [hrest]

theorem Written.checkpointClose {m : ℕ} (hm : m ≤ (emptyBlocks s₀).length)
    (hfits : w.length ≤ m * l.chunks * l.bytes) :
    ∃ n t, checkpointClose s res = (true, t) ∧ Laid l (emptyBlocks s₀) t.flash w n ∧
      (∀ c, (∀ k < n, ∀ b, (emptyBlocks s₀)[k / l.chunks]? = some b →
        c ≠ l.place b (k % l.chunks)) → t.flash c = s₀.flash c) ∧
      w.length ≤ n * l.bytes ∧ n ≤ m * l.chunks := by
  have hlength := h.length
  by_cases hzero : s.checkpointByteOffset = 0
  · simp only [Checkpoint.checkpointClose, h.forWrite, if_true, h.buffer, hzero, ne_eq,
      not_true_eq_false, if_false]
    refine ⟨p, _, rfl, h.laid, h.kept, by omega, ?_⟩
    have hpos : 0 < l.bytes := l.param.pos
    exact Nat.le_of_mul_le_mul_right (by omega : p * l.bytes ≤ m * l.chunks * l.bytes) hpos
  · have hp : p < m * l.chunks :=
      Nat.lt_of_mul_lt_mul_right (a := l.bytes) (by omega)
    obtain ⟨t, hflush, hstored, -, hsome⟩ := h.toStored.flush h₀ hres
      (hp.trans_le (mul_le_mul_right _ hm)) h.buffered
    have hclose : (Checkpoint.checkpointClose s res) = (t.checkpointBuffer.isSome, { t with
        dev := { t.dev with
          nFreeChunks := t.dev.nFreeChunks - t.dev.blocksInCheckpoint * t.dev.nChunksPerBlock
          nErasedBlocks := t.dev.nErasedBlocks - t.dev.blocksInCheckpoint }
        checkpointBuffer := none }) := by
      simp [Checkpoint.checkpointClose, h.forWrite, h.buffer, if_pos hzero, hflush]
    refine ⟨p + 1, (Checkpoint.checkpointClose s res).2, ?_, ?_, ?_, ?_, hp⟩
    · exact Prod.ext (by rw [hclose]; exact hsome) rfl
    · rw [hclose]
      exact hstored.laid
    · rw [hclose]
      exact hstored.kept
    · have := h.offset
      rw [add_one_mul]
      omega

end

end Writer

section Reader

/-- The first chunk of the block is one of a checkpoint. -/
def Marked (l : Layout) (flash : ℤ → Option Page) (block : ℤ) : Prop :=
  ∃ page, flash (l.place block 0) = some page ∧ page.tags.sequenceNumber = sequenceCheckpointData

theorem isCheckpoint_iff (h : HasLayout l s) : s.isCheckpoint b = true ↔ Marked l s.flash b := by
  rw [Stream.isCheckpoint, decide_eq_true_eq, Stream.readChunk, h.realignedChunk, Marked]
  cases s.flash (l.place b 0) with
  | none => simp [sequenceCheckpointData]
  | some page => simp

/-- The number of blocks that `n` pages take. -/
def blocksOf (l : Layout) (n : ℕ) : ℕ := (n + l.chunks - 1) / l.chunks

theorem lt_blocksOf {j : ℕ} : j < blocksOf l n ↔ j * l.chunks < n := by
  have hpos := l.chunks_pos
  rw [blocksOf, lt_iff_add_one_le, le_div_iff_mul_le hpos, add_one_mul]
  omega

theorem blocksOf_le {m : ℕ} (h : n ≤ m * l.chunks) : blocksOf l n ≤ m := by
  by_contra hlt
  exact absurd (lt_blocksOf.mp (Nat.lt_of_not_le hlt)) (Nat.not_lt.mpr h)

theorem blocksOf_succ : blocksOf l (p + 1) = p / l.chunks + 1 := by
  rw [blocksOf, Nat.add_right_comm, Nat.add_sub_cancel, add_div_right _ l.chunks_pos]

theorem blocksOf_of_mod_eq_zero (h : p % l.chunks = 0) : blocksOf l p = p / l.chunks := by
  have hpos := l.chunks_pos
  have hdiv := div_add_mod' p l.chunks
  apply Nat.div_eq_of_lt_le
  · omega
  · rw [Nat.add_one_mul]
    omega

theorem blocksOf_of_mod_ne_zero (h : p % l.chunks ≠ 0) : blocksOf l p = p / l.chunks + 1 := by
  have hlt := mod_lt p l.chunks_pos
  have hdiv := div_add_mod' p l.chunks
  apply Nat.div_eq_of_lt_le
  · rw [Nat.add_one_mul]
    omega
  · rw [add_one_mul, add_one_mul]
    omega

theorem filter_isCheckpoint (h : HasLayout l t) (h₀ : HasLayout l s₀)
    (hlaid : Laid l (emptyBlocks s₀) t.flash w n)
    (hkept : ∀ c, (∀ k < n, ∀ b, (emptyBlocks s₀)[k / l.chunks]? = some b →
      c ≠ l.place b (k % l.chunks)) → t.flash c = s₀.flash c)
    (hstale : ∀ b, ¬ Marked l s₀.flash b) :
    (interval l.start l.stop).filter t.isCheckpoint = (emptyBlocks s₀).take (blocksOf l n) := by
  have hsorted : (emptyBlocks s₀).Pairwise (· < ·) := pairwise_interval.filter _
  apply (pairwise_interval.filter _).eq_of_mem_iff (hsorted.sublist (take_sublist ..))
  intro x
  rw [mem_filter, isCheckpoint_iff h]
  constructor
  · rintro ⟨-, page, hpage, htags⟩
    by_contra hnot
    rw [hkept _ fun k hk b hb heq => hnot ?_] at hpage
    · exact hstale x ⟨page, hpage, htags⟩
    · obtain ⟨rfl, -⟩ := place_inj l.chunks_pos (mod_lt _ l.chunks_pos) heq
      apply mem_of_getElem? (i := k / l.chunks)
      rw [List.getElem?_take_of_lt, hb]
      rw [lt_blocksOf]
      exact (div_mul_le_self k l.chunks).trans_lt hk
  · intro hx
    obtain ⟨j, hj⟩ := mem_iff_getElem?.mp hx
    rw [List.getElem?_take] at hj
    split at hj
    case isTrue hlt =>
      obtain ⟨b, data, hb, hpage, -⟩ := hlaid (j * l.chunks) (lt_blocksOf.mp hlt)
      rw [Nat.mul_div_cancel _ l.chunks_pos, hj] at hb
      obtain rfl := Option.some_inj.mp hb
      rw [mul_mod_left] at hpage
      refine ⟨?_, _, hpage, rfl⟩
      have hmem := (List.mem_filter.mp (mem_of_getElem? hj)).1
      rwa [h₀.start, h₀.stop] at hmem
    case isFalse => cases hj

/-- What stands on the flash for the reader: the pages of the stream `w`, in the blocks that the
search of the reader finds. -/
structure Readable (l : Layout) (us : List ℤ) (flash : ℤ → Option Page) (w : List (BitVec 8))
    (n : ℕ) : Prop where
  laid : Laid l us flash w n
  found (s : Stream) : HasLayout l s → s.flash = flash →
    (interval l.start l.stop).filter s.isCheckpoint = us
  listed : us.length ≤ l.maxBlocks
  covered : w.length ≤ n * l.bytes

/-- A stream that is open for reading, of which the bytes `r` went through. -/
structure Reading (l : Layout) (flash : ℤ → Option Page) (r : List (BitVec 8)) (s : Stream) :
    Prop where
  layout : HasLayout l s
  forRead : s.checkpointOpenForWrite = false
  flash : s.flash = flash
  maxBlocks : s.checkpointMaxBlocks = l.maxBlocks
  sum : (s.checkpointSum, s.checkpointXor) = sumOf r

variable {r : List (BitVec 8)}

theorem Laid.readChunk (h : Laid l us flash w n) (hs : HasLayout l s) (hflash : s.flash = flash)
    (hp : p < n) (hb : us[p / l.chunks]? = some b) :
    ∃ data, s.readChunk (s.realignedChunk b (p % l.chunks)) =
        ⟨data, b + 1, p + 1, sequenceCheckpointData⟩ ∧
      ∀ i < l.bytes, ∀ x, w[p * l.bytes + i]? = some x → data i = x := by
  obtain ⟨b', data, hb', hpage, hdata⟩ := h p hp
  obtain rfl := Option.some_inj.mp (hb'.symm.trans hb)
  refine ⟨data, ?_, hdata⟩
  rw [Stream.readChunk, hs.realignedChunk, hflash, hpage]
  rfl

theorem Reading.currentBlock (h : Reading l flash r s) (hr : Readable l us flash w n)
    (hcursor : At l us p s) (hfound : s.dev.blocksInCheckpoint = blocksOf l p) (hp : p < n) :
    ∃ b t, currentBlock s findNextCheckpointBlock = t ∧ Reading l flash r t ∧ On l us p b t ∧
      0 ≤ b ∧ t.dev.blocksInCheckpoint = blocksOf l (p + 1) := by
  obtain ⟨b, data, hb, hpage, -⟩ := hr.laid p hp
  have hus := hr.found s h.layout h.flash
  have hbounds := getElem?_bounds hus hb
  refine ⟨b, _, rfl, ?_⟩
  by_cases hmod : p % l.chunks = 0
  · obtain ⟨hcur, hnext⟩ := hcursor.fresh hmod
    have hcount : s.dev.blocksInCheckpoint < s.checkpointMaxBlocks := by
      obtain ⟨hlt, -⟩ := List.getElem?_eq_some_iff.mp hb
      have hlisted := hr.listed
      rw [hfound, h.maxBlocks, blocksOf_of_mod_eq_zero hmod]
      omega
    have hfind : (interval s.checkpointNextBlock l.stop).find? s.isCheckpoint = some b := by
      rw [hnext]
      exact find_nextBlock hus hb
    obtain ⟨data, hchunk, -⟩ := hr.laid.readChunk h.layout h.flash hp hb
    rw [hmod] at hchunk
    rw [Checkpoint.currentBlock, if_pos (by omega), findNextCheckpointBlock, if_pos hcount,
      h.layout.stop, hfind]
    refine ⟨⟨⟨h.layout.1, h.layout.2, h.layout.3, h.layout.4⟩, h.forRead, h.flash, h.maxBlocks,
      h.sum⟩, ⟨hcursor.seq, hb, rfl, hmod.symm, ?_⟩, by omega, ?_⟩
    · simp only [hchunk]
    · simp only [hfound, blocksOf_of_mod_eq_zero hmod, blocksOf_succ]
      push_cast
      rfl
  · obtain ⟨b', hb', hcur, hchunk, hnext⟩ := hcursor.within hmod
    obtain rfl := Option.some_inj.mp (hb'.symm.trans hb)
    rw [Checkpoint.currentBlock, if_neg (by omega)]
    refine ⟨h, ⟨hcursor.seq, hb, hcur, hchunk, hnext⟩, by omega, ?_⟩
    rw [hfound, blocksOf_of_mod_ne_zero hmod, blocksOf_succ]

/-- The reader has read the bytes `r` of the stream, from `p` pages. -/
structure ReadUpTo (l : Layout) (us : List ℤ) (flash : ℤ → Option Page) (w : List (BitVec 8))
    (r : List (BitVec 8)) (p : ℕ) (buf : ℕ → BitVec 8) (s : Stream) : Prop
    extends Reading l flash r s where
  cursor : At l us p s
  blocks : s.dev.blocksInCheckpoint = blocksOf l p
  buffer : s.checkpointBuffer = some buf
  buffered : ∀ q, p = q + 1 → ∀ i < l.bytes, ∀ x, w[q * l.bytes + i]? = some x → buf i = x
  count : r.length + l.bytes = p * l.bytes + s.checkpointByteOffset
  offset : s.checkpointByteOffset ≤ l.bytes

section

variable (h : ReadUpTo l us flash w r p buf s) {x : BitVec 8}
include h

theorem ReadUpTo.fetch (hr : Readable l us flash w n) (hp : p < n)
    (hfull : s.checkpointByteOffset = l.bytes) :
    ∃ buf' t, fetch s buf = (true, t) ∧ ReadUpTo l us flash w r (p + 1) buf' t ∧
      t.checkpointByteOffset = 0 := by
  obtain ⟨b, u, hu, hreading, hon, hpos, hblocks⟩ :=
    h.toReading.currentBlock hr h.cursor h.blocks hp
  obtain ⟨data, hchunk, hdata⟩ := hr.laid.readChunk hreading.layout hreading.flash hp hon.block
  have hcount := h.count
  rw [Checkpoint.fetch, hu, if_neg (by rw [hon.current]; omega), fetchFrom, hon.current, hon.chunk,
    hchunk, hon.seq]
  refine ⟨_, _, Prod.ext (by simp) rfl, ⟨⟨⟨hreading.layout.1, hreading.layout.2, hreading.layout.3,
    hreading.layout.4⟩, hreading.forRead, hreading.flash, hreading.maxBlocks, hreading.sum⟩, ?_,
    hblocks, rfl, ?_, ?_, zero_le _⟩, rfl⟩
  · apply hon.advance
    · rfl
    · rfl
    · simp only [hreading.layout.chunks, hon.chunk, hon.current]
    · intro _
      simp only [hon.chunk]
  · intro q hq i hi x hx
    obtain rfl := Nat.succ_inj.mp hq
    have hbytes : u.param.nDataBytesPerChunk = l.bytes := by rw [hreading.layout.param]; rfl
    simp only [hbytes, if_pos hi]
    exact hdata i hi x hx
  · rw [add_one_mul]
    simp only
    omega

theorem ReadUpTo.account (hlt : s.checkpointByteOffset < l.bytes) (hx : w[r.length]? = some x) :
    buf s.checkpointByteOffset = x ∧ ReadUpTo l us flash w (r ++ [x]) p buf (account s x) := by
  have hcount := h.count
  constructor
  · cases p with
    | zero =>
      rw [Nat.zero_mul] at hcount
      omega
    | succ q =>
      apply h.buffered q rfl _ hlt
      rw [add_one_mul] at hcount
      rw [← hx]
      congr 1
      omega
  · refine ⟨⟨⟨h.layout.1, h.layout.2, h.layout.3, h.layout.4⟩, h.forRead, h.flash, h.maxBlocks, ?_⟩,
      ⟨h.cursor.1, h.cursor.2, h.cursor.3⟩, h.blocks, h.buffer, h.buffered, ?_, hlt⟩
    · rw [sumOf_append, ← h.sum]
      rfl
    · have hoffset : (Checkpoint.account s x).checkpointByteOffset = s.checkpointByteOffset + 1 :=
        rfl
      rw [length_append, length_singleton, hoffset]
      omega

section

variable (hr : Readable l us flash w n)
include hr

theorem ReadUpTo.readByte (hx : w[r.length]? = some x) :
    ∃ p' buf' t, readByte s = some (some x, t) ∧ ReadUpTo l us flash w (r ++ [x]) p' buf' t := by
  have hpos : 0 < l.bytes := l.param.pos
  have hbytes {u : Stream} (hu : HasLayout l u) : u.param.nDataBytesPerChunk = l.bytes := by
    rw [hu.param]
    rfl
  -- after the next chunk was read, if the buffer was used up
  obtain ⟨p', buf', t, hnext, h', hlt⟩ : ∃ p' buf' t,
      (if s.checkpointByteOffset ≥ s.param.nDataBytesPerChunk then Checkpoint.fetch s buf
        else (true, s)) = (true, t) ∧ ReadUpTo l us flash w r p' buf' t ∧
      t.checkpointByteOffset < l.bytes := by
    by_cases hfull : s.checkpointByteOffset ≥ s.param.nDataBytesPerChunk
    · have hoffset : s.checkpointByteOffset = l.bytes :=
        le_antisymm h.offset (hbytes h.layout ▸ hfull)
      have hp : p < n := by
        obtain ⟨hlen, -⟩ := List.getElem?_eq_some_iff.mp hx
        have hcount := h.count
        have hcovered := hr.covered
        exact Nat.lt_of_mul_lt_mul_right (a := l.bytes) (by omega)
      obtain ⟨buf', t, hfetch, h', hzero⟩ := h.fetch hr hp hoffset
      exact ⟨p + 1, buf', t, by rw [if_pos hfull, hfetch], h', by omega⟩
    · rw [hbytes h.layout] at hfull
      exact ⟨p, buf, s, by rw [hbytes h.layout, if_neg hfull], h, by omega⟩
  obtain ⟨hbyte, hread⟩ := h'.account hlt hx
  have htotal : t.checkpointByteOffset < t.param.totalBytesPerChunk :=
    hlt.trans_le ((hbytes h'.layout).symm.le.trans t.param.le)
  refine ⟨p', buf', _, ?_, hread⟩
  rw [Checkpoint.readByte, h.buffer, Option.bind_some, hnext]
  simp [h'.buffer, if_pos htotal, hbyte]

theorem ReadUpTo.readLoop (bytes rest : List (BitVec 8)) (hw : w = r ++ (bytes ++ rest)) :
    ∃ p' buf' t, readLoop bytes.length s = some (bytes, t) ∧
      ReadUpTo l us flash w (r ++ bytes) p' buf' t := by
  induction bytes generalizing r p buf s with
  | nil => exact ⟨p, buf, s, rfl, by rwa [append_nil]⟩
  | cons x bytes ih =>
    have hx : w[r.length]? = some x := by
      rw [hw, List.getElem?_append_right le_rfl, Nat.sub_self]
      rfl
    obtain ⟨p₁, buf₁, s₁, hbyte, h₁⟩ := h.readByte hr hx
    obtain ⟨p', buf', t, hloop, h'⟩ := ih h₁ (by rw [hw, append_assoc]; rfl)
    refine ⟨p', buf', t, ?_, by rwa [append_assoc] at h'⟩
    rw [length_cons, Checkpoint.readLoop, hbyte]
    simp [hloop]

theorem ReadUpTo.readAll (writes : List (List (BitVec 8))) (hw : w = r ++ writes.flatten) :
    ∃ t, readAll (writes.map List.length) s =
        some (writes.map fun bytes => ((bytes.length : ℤ), bytes), t) ∧ Reading l flash w t := by
  induction writes generalizing r p buf s with
  | nil =>
    rw [flatten_nil, append_nil] at hw
    exact ⟨s, rfl, hw ▸ h.toReading⟩
  | cons bytes rest ih =>
    obtain ⟨p₁, buf₁, s₁, hloop, h₁⟩ := h.readLoop hr bytes rest.flatten hw
    obtain ⟨t, hrest, h'⟩ := ih h₁ (by rw [hw, flatten_cons, append_assoc])
    refine ⟨t, ?_, h'⟩
    rw [map_cons, Checkpoint.readAll, checkpointRead, h.buffer, h.forRead, hloop]
    simp [hrest]

end

end

end Reader

/-- The conditions under which a checkpoint of `bytes` bytes is read back: every write to the flash
succeeds, the bytes fit into the empty blocks and into the list of blocks that the reader keeps, and
no block has the tags of an older checkpoint. -/
structure Writable (l : Layout) (res : ℕ → WriteResult) (s₀ : Stream) (bytes : ℕ) : Prop where
  writes (n : ℕ) : res n = .ok
  space : bytes ≤ (emptyBlocks s₀).length * l.chunks * l.bytes
  listed : bytes ≤ l.maxBlocks * l.chunks * l.bytes
  unmarked (b : ℤ) : ¬ Marked l s₀.flash b

/-- What an erase of the blocks of a checkpoint leaves as it is. -/
structure Erased (d d' : Device) : Prop where
  start : d'.internalStartBlock = d.internalStartBlock
  stop : d'.internalEndBlock = d.internalEndBlock
  chunks : d'.nChunksPerBlock = d.nChunksPerBlock
  avail : d.nErasedBlocks - d.nReservedBlocks ≤ d'.nErasedBlocks - d'.nReservedBlocks

theorem Erased.round {d : Device} {r : Device × List Event} (h : Erased d r.1) (erase : ℕ → Bool)
    (i : ℕ) : Erased d (checkpointEraseBlock erase r i).1 := by
  unfold checkpointEraseBlock
  split_ifs
  · exact ⟨h.start, h.stop, h.chunks, h.avail.trans (by simp only [Device.setBlock]; omega)⟩
  · exact ⟨h.start, h.stop, h.chunks, h.avail⟩
  · exact h

theorem erased_checkpointErase (erase : ℕ → Bool) (d : Device) :
    Erased d (checkpointErase erase d).1 := by
  have hfold (is : List ℕ) {r : Device × List Event} (h : Erased d r.1) :
      Erased d (is.foldl (checkpointEraseBlock erase) r).1 := by
    induction is generalizing r with
    | nil => exact h
    | cons i is ih => exact ih (h.round erase i)
  have h := hfold (List.range' d.internalStartBlock (d.internalEndBlock + 1 - d.internalStartBlock))
    (r := (d, [])) ⟨rfl, rfl, rfl, le_rfl⟩
  exact ⟨h.start, h.stop, h.chunks, h.avail⟩

theorem written_openForWriting {erase : ℕ → Bool} {alloc : Option (ℕ → BitVec 8)}
    (h : HasLayout l s) (hopen : openForWriting s erase alloc = (true, s₀)) :
    HasLayout l s₀ ∧ ∃ buf, Written l s₀ [] 0 buf s₀ := by
  unfold openForWriting at hopen
  by_cases hspace : checkpointSpaceOk s = true
  · rw [if_pos hspace] at hopen
    cases hbuf : (openCommon s true alloc).checkpointBuffer with
    | none =>
      rw [hbuf] at hopen
      cases hopen
    | some buf =>
      rw [hbuf] at hopen
      have herased := erased_checkpointErase erase s.dev
      dsimp only at hopen
      obtain ⟨-, rfl⟩ := Prod.mk.inj hopen
      have hlayout : HasLayout l { openCommon s true alloc with
          checkpointBuffer := some (clear s.param.nDataBytesPerChunk buf)
          checkpointByteOffset := 0
          dev := (checkpointErase erase s.dev).1
          flash := s.eraseFlash (checkpointErase erase s.dev).2 } :=
        ⟨h.param, herased.start.trans h.start, herased.stop.trans h.stop,
          herased.chunks.trans h.chunks⟩
      refine ⟨hlayout, _,
        ⟨hlayout, rfl, ?_, ⟨rfl, ?_, ?_⟩, fun _ _ => rfl, ?_, fun _ _ => rfl, rfl⟩,
        rfl, ?_, ?_, l.param.pos⟩
      · exact (of_decide_eq_true hspace).trans_le herased.avail
      · intro _
        rw [Nat.zero_div]
        exact ⟨rfl, congrArg Nat.cast h.start⟩
      · intro hne
        exact absurd (zero_mod _) hne
      · intro k hk
        exact absurd hk (not_lt_zero k)
      · intro i _ x hx
        cases hx
      · rw [Nat.zero_mul]
        rfl
  · rw [if_neg hspace] at hopen
    cases hopen

theorem readUpTo_openForReading (h : HasLayout l t) (alloc : ℕ → BitVec 8) :
    ∃ t₀ buf, openForReading t (some alloc) true = (true, t₀) ∧
      ReadUpTo l us t.flash w [] 0 buf t₀ := by
  obtain ⟨buf, hbuf⟩ : ∃ buf, (openCommon t false (some alloc)).checkpointBuffer = some buf := by
    cases hb : t.checkpointBuffer with
    | none => exact ⟨alloc, by rw [openCommon, hb]; rfl⟩
    | some buf => exact ⟨buf, by rw [openCommon, hb]; rfl⟩
  rw [openForReading, hbuf]
  refine ⟨_, buf, rfl, ⟨⟨h.param, h.start, h.stop, h.chunks⟩, rfl, rfl, ?_, rfl⟩, ⟨rfl, ?_, ?_⟩, ?_,
    hbuf, ?_, ?_, ?_⟩
  · simp only [h.start, h.stop]
    rfl
  · intro _
    rw [Nat.zero_div]
    exact ⟨rfl, congrArg Nat.cast h.start⟩
  · intro hne
    exact absurd (zero_mod _) hne
  · rw [blocksOf_of_mod_eq_zero (zero_mod _), Nat.zero_div]
    rfl
  · intro q hq
    omega
  · simp only [h.param]
    rw [Nat.zero_mul]
    rfl
  · simp only [h.param]
    exact le_rfl

/-- A checkpoint is read back: if the conditions hold after the stream was opened for writing, then
every write returns its full length and the close reports success; and when the stream is opened for
reading on a device of this geometry with this flash, whatever its blocks are, reads of the same
lengths give the same bytes, and the sum is the same. -/
theorem checkpoint_round_trip (l : Layout) (res : ℕ → WriteResult) (erase : ℕ → Bool)
    (alloc : Option (ℕ → BitVec 8)) (s s₀ : Stream) (writes : List (List (BitVec 8)))
    (hs : HasLayout l s) (hopen : openForWriting s erase alloc = (true, s₀))
    (h : Writable l res s₀ writes.flatten.length) :
    ∃ s₁ s₂, writeAll res writes s₀ = some (writes.map fun bytes => (bytes.length : ℤ), s₁) ∧
      checkpointClose s₁ res = (true, s₂) ∧
      ∀ t buf, HasLayout l t → t.flash = s₂.flash →
        ∃ t₀ t₁, openForReading t (some buf) true = (true, t₀) ∧
          readAll (writes.map List.length) t₀ =
            some (writes.map fun bytes => ((bytes.length : ℤ), bytes), t₁) ∧
          getCheckpointSum t₁ = getCheckpointSum s₁ := by
  obtain ⟨h₀, buf₀, hwritten⟩ := written_openForWriting hs hopen
  obtain ⟨p, buf, s₁, hwrites, hwritten₁⟩ := hwritten.writeAll h₀ h.writes writes h.space
  rw [nil_append] at hwritten₁
  have hmin : writes.flatten.length ≤
      min (emptyBlocks s₀).length l.maxBlocks * l.chunks * l.bytes := by
    rcases min_choice (emptyBlocks s₀).length l.maxBlocks with hmin | hmin
    · rw [hmin]; exact h.space
    · rw [hmin]; exact h.listed
  obtain ⟨n, s₂, hclose, hlaid, hkept, hcovered, hn⟩ :=
    hwritten₁.checkpointClose h₀ h.writes (min_le_left ..) hmin
  refine ⟨s₁, s₂, hwrites, hclose, fun t alloc' ht hflash => ?_⟩
  have hblocks := blocksOf_le hn
  have hreadable : Readable l ((emptyBlocks s₀).take (blocksOf l n)) t.flash writes.flatten n := by
    refine ⟨fun k hk => ?_, fun u hu huf => ?_, ?_, hcovered⟩
    · obtain ⟨b, data, hb, hpage⟩ := hlaid k hk
      refine ⟨b, data, ?_, hflash ▸ hpage⟩
      rw [List.getElem?_take_of_lt, hb]
      exact lt_blocksOf.mpr ((div_mul_le_self ..).trans_lt hk)
    · rw [hflash] at huf
      exact filter_isCheckpoint hu h₀ (huf ▸ hlaid) (huf ▸ hkept) h.unmarked
    · rw [length_take]
      exact (min_le_left ..).trans (hblocks.trans (min_le_right ..))
  obtain ⟨t₀, buf', hopen', hread⟩ := readUpTo_openForReading (w := writes.flatten) ht alloc'
  obtain ⟨t₁, hreads, hread₁⟩ := hread.readAll hreadable writes rfl
  refine ⟨t₀, t₁, hopen', hreads, ?_⟩
  obtain ⟨hsum, hxor⟩ := Prod.mk.inj (hread₁.sum.trans hwritten₁.sum.symm)
  rw [getCheckpointSum, getCheckpointSum, hsum, hxor]

/-- A device with two empty blocks of one chunk of two bytes. -/
def smallLayout : Layout := ⟨⟨2, 2, 0, Nat.two_pos, le_rfl⟩, 1, 2, 1, Nat.one_pos⟩

/-- The device before its first checkpoint. -/
def smallDevice : Stream where
  param := smallLayout.param
  dev := {
    internalStartBlock := 1
    internalEndBlock := 2
    nChunksPerBlock := 1
    nReservedBlocks := 0
    isYaffs2 := true
    blockInfo := fun _ => ⟨.empty, 0, 0, 0, false, false, false, false, fun _ => false⟩
    nErasedBlocks := 2
    nFreeChunks := 2
    allocationBlock := none
    allocationPage := 0
    allocationBlockFinder := 1
    sequenceNumber := 0
    gcBlock := 0
    gcDirtiest := 0
    gcPagesInUse := 0
    oldestDirtySequence := 0
    oldestDirtyBlock := 0
    isCheckpointed := false
    blocksInCheckpoint := 0 }
  flash := fun _ => none
  checkpointOpenForWrite := false
  checkpointBuffer := none
  checkpointByteOffset := 0
  checkpointPageSequence := 0
  checkpointByteCount := 0
  checkpointSum := 0
  checkpointXor := 0
  checkpointCurrentBlock := -1
  checkpointCurrentChunk := 0
  checkpointNextBlock := 0
  checkpointMaxBlocks := 0
  checkpointBlockList := none

/-- Three bytes in two writes. -/
theorem checkpoint_round_trip_threeBytes : ∃ s₀, openForWriting smallDevice (fun _ => true)
      (some fun _ => 0) = (true, s₀) ∧ Writable smallLayout (fun _ => .ok) s₀ 3 ∧
    ∃ s₁ s₂, writeAll (fun _ => .ok) [[1], [2, 3]] s₀ = some ([1, 2], s₁) ∧
      checkpointClose s₁ (fun _ => .ok) = (true, s₂) ∧
      ∀ t buf, HasLayout smallLayout t → t.flash = s₂.flash →
        ∃ t₀ t₁, openForReading t (some buf) true = (true, t₀) ∧
          readAll [1, 2] t₀ = some ([(1, [1]), (2, [2, 3])], t₁) ∧
          getCheckpointSum t₁ = getCheckpointSum s₁ := by
  have hwritable : Writable smallLayout (fun _ => .ok)
      (openForWriting smallDevice (fun _ => true) (some fun _ => 0)).2 3 :=
    ⟨fun _ => rfl, by decide, by decide, fun b ⟨_, hpage, _⟩ => by cases hpage⟩
  exact ⟨_, rfl, hwritable, checkpoint_round_trip smallLayout (fun _ => .ok) (fun _ => true)
    (some fun _ => 0) smallDevice _ [[1], [2, 3]] ⟨rfl, rfl, rfl, rfl⟩ rfl hwritable⟩

/-- A write to the flash that fails is not reported: the byte is not read back, though its write and
the close returned success. -/
theorem failed_write_not_reported : ∃ s₀ s₁ s₂ t₀ t₁,
    openForWriting smallDevice (fun _ => true) (some fun _ => 0) = (true, s₀) ∧
    writeAll (fun _ => .failed none) [[7]] s₀ = some ([1], s₁) ∧
    checkpointClose s₁ (fun _ => .failed none) = (true, s₂) ∧
    openForReading s₂ (some fun _ => 0) true = (true, t₀) ∧
    readAll [1] t₀ = some ([(0, [])], t₁) :=
  ⟨_, _, _, _, _, rfl, rfl, rfl, rfl, rfl⟩

end AndroidKernel.Yaffs.Checkpoint
