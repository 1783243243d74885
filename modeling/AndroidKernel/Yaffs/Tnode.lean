import AndroidKernel.Lib.Digits

/-!
# The tnodes of a yaffs file

A file finds its chunks by a tree. A tnode of level 0 holds 16 entries of `tnodeWidth` bits each,
packed in 32-bit words; a tnode above has eight children. The tree grows at the root, its tnodes are
added when they are needed, and `yaffs_PruneFileStructure` takes the empty ones away.

A call has no result where the source would follow a pointer of the wrong kind. Whether an
allocation succeeds is told by a list of outcomes.
-/

namespace AndroidKernel.Yaffs

open BitVec Function Nat

/-- The fields of `yaffs_Device` about tnodes. The width is at least 16 and even, so that the
entries fill whole words. -/
structure Geometry where
  tnodeWidth : ℕ
  chunkGroupBits : ℕ
  ge : 16 ≤ tnodeWidth
  le : tnodeWidth ≤ 32
  even : tnodeWidth % 2 = 0

variable (g : Geometry) (chunkId : ℕ)

/-- `tnodeMask`. -/
def Geometry.tnodeMask : BitVec 32 := BitVec.ofNat 32 (2 ^ g.tnodeWidth - 1)

/-- The words of a tnode of level 0. -/
abbrev Words := ℕ → BitVec 32

/-- The word with the bits of the mask set to those of a value. -/
def putBits (mask val word : BitVec 32) : BitVec 32 := (word &&& ~~~mask) ||| (mask &&& val)

/-- `yaffs_LoadLevel0Tnode`. -/
def loadLevel0Tnode (tn : Words) (pos : ℕ) (val : BitVec 32) : Words :=
  let pos := pos % 16
  let val := val >>> g.chunkGroupBits
  let bitInMap := pos * g.tnodeWidth
  let wordInMap := bitInMap / 32
  let bitInWord := bitInMap % 32
  let mask := g.tnodeMask <<< bitInWord
  let tn := update tn wordInMap (putBits mask (val <<< bitInWord) (tn wordInMap))
  if g.tnodeWidth > 32 - bitInWord then
    let bitInWord := 32 - bitInWord
    let wordInMap := wordInMap + 1
    let mask := g.tnodeMask >>> bitInWord
    update tn wordInMap (putBits mask (val >>> bitInWord) (tn wordInMap))
  else tn

/-- The entry that `yaffs_GetChunkGroupBase` finds: the number of the chunk group. -/
def getChunkGroup (tn : Words) (pos : ℕ) : BitVec 32 :=
  let pos := pos % 16
  let bitInMap := pos * g.tnodeWidth
  let wordInMap := bitInMap / 32
  let bitInWord := bitInMap % 32
  let val := tn wordInMap >>> bitInWord
  let val := if g.tnodeWidth > 32 - bitInWord then
      val ||| (tn (wordInMap + 1) <<< (32 - bitInWord))
    else val
  val &&& g.tnodeMask

/-- `yaffs_GetChunkGroupBase`. -/
def getChunkGroupBase (tn : Words) (pos : ℕ) : BitVec 32 :=
  getChunkGroup g tn pos <<< g.chunkGroupBits

/-- A tnode, or none. -/
inductive Tnode
  | null
  | level0 (words : Words)
  | internal (child : Fin 8 → Tnode)

/-- Whether there is no tnode. -/
def Tnode.isNull : Tnode → Bool
  | .null => true
  | _ => false

/-- A tnode that `yaffs_GetTnode` has cleared, for the given level. -/
def Tnode.blank : ℕ → Tnode
  | 0 => .level0 fun _ => 0
  | _ + 1 => .internal fun _ => .null

/-- `yaffs_FileStructure`. -/
structure FileStructure where
  topLevel : ℕ
  top : Tnode

/-- `YAFFS_MAX_CHUNK_ID`. -/
def maxChunkId : ℕ := 0xfffff

/-- `YAFFS_TNODES_MAX_LEVEL`. -/
def maxLevel : ℕ := 6

/-- The first child. -/
def firstSlot : Fin 8 := ⟨0, succ_pos 7⟩

/-- The child on the way from level `l + 1` to a chunk. -/
def slot (l chunkId : ℕ) : Fin 8 := ⟨(chunkId >>> (4 + l * 3)) &&& 7, lt_succ_of_le and_le_right⟩

/-- The loop that counts the levels above level 0. -/
def tallness : ℕ → ℕ → ℕ
  | 0, _ => 0
  | n + 1, i => if i = 0 then 0 else tallness n (i >>> 3) + 1

/-- `requiredTallness`, for a chunk id of 32 bits. -/
def requiredTallness : ℕ := tallness 11 (chunkId >>> 4)

/-- The way down to level 0. -/
def findDown (chunkId : ℕ) : ℕ → Tnode → Option Tnode
  | 0, tn => some tn
  | _ + 1, .null => some .null
  | l + 1, .internal child => findDown chunkId l (child (slot l chunkId))
  | _ + 1, .level0 _ => none

/-- `yaffs_FindLevel0Tnode`. -/
def findLevel0Tnode (fs : FileStructure) (chunkId : ℕ) : Option Tnode :=
  if fs.topLevel > maxLevel then some .null
  else if chunkId > maxChunkId then some .null
  else if requiredTallness chunkId > fs.topLevel then some .null
  else findDown chunkId fs.topLevel fs.top

/-- `yaffs_AddOrFindLevel0Tnode` makes the tree taller by up to `n` levels. -/
def grow : ℕ → FileStructure → List Bool → Bool × FileStructure × List Bool
  | 0, fs, allocs => (true, fs, allocs)
  | n + 1, fs, allocs =>
    if allocs.headD false then
      grow n ⟨fs.topLevel + 1, .internal (update (fun _ => .null) firstSlot fs.top)⟩
        allocs.tail
    else (false, fs, allocs.tail)

/-- A tnode, or a new one for the given level if there is none. -/
def orNew (l : ℕ) (tn : Tnode) (allocs : List Bool) : Option Tnode × List Bool :=
  if tn.isNull then
    if allocs.headD false then (some (.blank l), allocs.tail) else (none, allocs.tail)
  else (some tn, allocs)

/-- The tnode at level `l` on the way down: the passed one at level 0, the one that is there, or a
new one. -/
def childAt (passed : Option Words) : ℕ → Tnode → List Bool → Option Tnode × List Bool
  | 0, tn, allocs =>
    match passed with
    | some words => (some (.level0 words), allocs)
    | none => orNew 0 tn allocs
  | l + 1, tn, allocs => orNew (l + 1) tn allocs

/-- The way down to level 0, with the tnodes that are missing added: whether it was reached, and the
tree. -/
def addDown (passed : Option Words) (chunkId : ℕ) : ℕ → Tnode → List Bool → Option (Bool × Tnode)
  | 0, tn, _ => some (true, tn)
  | _ + 1, .null, _ => some (false, .null)
  | _ + 1, .level0 _, _ => none
  | l + 1, .internal child, allocs =>
    match childAt passed l (child (slot l chunkId)) allocs with
    | (none, _) => some (false, .internal child)
    | (some tn, allocs) =>
      (addDown passed chunkId l tn allocs).map fun r =>
        (r.1, .internal (update child (slot l chunkId) r.2))

/-- `memcpy` of a tnode of level 0. -/
def copyWords (src dst : Words) : Words :=
  fun i => if i < g.tnodeWidth / 2 then src i else dst i

/-- The second part of `yaffs_AddOrFindLevel0Tnode`, when the tree is tall enough. -/
def addTall (passed : Option Words) (allocs : List Bool) (fs : FileStructure) :
    Option (Bool × FileStructure) :=
  match fs.topLevel, passed, fs.top with
  | 0, none, _ => some (true, fs)
  | 0, some words, .level0 old => some (true, ⟨0, .level0 (copyWords g words old)⟩)
  | 0, some _, _ => none
  | l + 1, passed, top =>
    (addDown passed chunkId (l + 1) top allocs).map fun r => (r.1, ⟨l + 1, r.2⟩)

/-- `yaffs_AddOrFindLevel0Tnode`: whether a tnode is returned, and the tree. -/
def addOrFindLevel0Tnode (passed : Option Words) (allocs : List Bool) (fs : FileStructure) :
    Option (Bool × FileStructure) :=
  if fs.topLevel > maxLevel then some (false, fs)
  else if chunkId > maxChunkId then some (false, fs)
  else
    match grow (requiredTallness chunkId - fs.topLevel) fs allocs with
    | (false, fs, _) => some (false, fs)
    | (true, fs, allocs) => addTall g chunkId passed allocs fs

/-- A change to the tnode of level 0 of a chunk. -/
def modifyDown (chunkId : ℕ) (f : Words → Words) : ℕ → Tnode → Tnode
  | 0, .level0 words => .level0 (f words)
  | l + 1, .internal child => .internal (update child (slot l chunkId)
      (modifyDown chunkId f l (child (slot l chunkId))))
  | _, tn => tn

/-- `yaffs_LoadLevel0Tnode` on the tnode that `yaffs_FindLevel0Tnode` finds, if there is one. -/
def loadChunk (val : BitVec 32) (fs : FileStructure) : Option FileStructure :=
  (findLevel0Tnode fs chunkId).map fun tn =>
    if tn.isNull then fs
    else ⟨fs.topLevel, modifyDown chunkId (fun words => loadLevel0Tnode g words chunkId val)
      fs.topLevel fs.top⟩

/-- `yaffs_PruneWorker`. A tnode of the wrong kind, which does not occur, would be left alone. -/
def pruneWorker (g : Geometry) : ℕ → Tnode → Bool → Tnode
  | 0, .level0 words, del0 =>
    if (List.range (g.tnodeWidth / 2)).all (fun i => words i == 0) && del0 then .null
    else .level0 words
  | l + 1, .internal child, del0 =>
    let child i := pruneWorker g l (child i) (if i = firstSlot then del0 else true)
    if (List.finRange 8).all (fun i => (child i).isNull) && del0 then .null else .internal child
  | _, tn, _ => tn

/-- The loop of `yaffs_PruneFileStructure`, which takes levels away from the top. -/
def shrink : ℕ → Tnode → Option FileStructure
  | 0, tn => some ⟨0, tn⟩
  | l + 1, .internal child =>
    if (List.finRange 8).all (fun i => i = firstSlot || (child i).isNull) then
      shrink l (child firstSlot)
    else some ⟨l + 1, .internal child⟩
  | _ + 1, _ => none

/-- `yaffs_PruneFileStructure`. -/
def pruneFileStructure (fs : FileStructure) : Option FileStructure :=
  if fs.topLevel > 0 then shrink fs.topLevel (pruneWorker g fs.topLevel fs.top false) else some fs

/-- A bit of the packed entries. -/
def Words.bit (tn : Words) (n : ℕ) : Bool := (tn (n / 32)).getLsbD (n % 32)

section Packing

variable {g : Geometry} {tn : Words} {pos n k : ℕ} {val : BitVec 32}

theorem getLsbD_tnodeMask (g : Geometry) (k : ℕ) :
    g.tnodeMask.getLsbD k = decide (k < g.tnodeWidth) := by
  have hle := g.le
  rw [Geometry.tnodeMask, getLsbD_ofNat, testBit_two_pow_sub_one]
  by_cases h : k < g.tnodeWidth
  · simp [h, lt_of_lt_of_le h hle]
  · simp [h]

theorem getLsbD_putBits (mask val word : BitVec 32) {r : ℕ} (hr : r < 32) :
    (putBits mask val word).getLsbD r =
      if mask.getLsbD r then val.getLsbD r else word.getLsbD r := by
  simp only [putBits, getLsbD_or, getLsbD_and, getLsbD_not, hr, decide_true,
    Bool.true_and]
  cases mask.getLsbD r <;> simp

section

variable (g : Geometry) (tn : Words)

/-- The words after an entry is loaded: the one where it begins, and the next one if it goes on
there. -/
theorem load_word (pos : ℕ) (val : BitVec 32) {start : ℕ}
    (hstart : pos % 16 * g.tnodeWidth = start) (a : ℕ) :
    loadLevel0Tnode g tn pos val a =
      if a = start / 32 then
        putBits (g.tnodeMask <<< (start % 32)) (val >>> g.chunkGroupBits <<< (start % 32)) (tn a)
      else if a = start / 32 + 1 ∧ g.tnodeWidth > 32 - start % 32 then
        putBits (g.tnodeMask >>> (32 - start % 32))
          (val >>> g.chunkGroupBits >>> (32 - start % 32)) (tn a)
      else tn a := by
  simp only [loadLevel0Tnode, hstart]
  by_cases hwide : g.tnodeWidth > 32 - start % 32
  · simp only [hwide, if_true, and_true, update_apply]
    by_cases hfirst : a = start / 32
    · subst hfirst
      simp
    · by_cases hnext : a = start / 32 + 1
      · subst hnext
        simp
      · simp [hfirst, hnext]
  · simp only [hwide, if_false, and_false, update_apply]
    by_cases hfirst : a = start / 32
    · subst hfirst
      rfl
    · simp [hfirst]

theorem bit_load (pos : ℕ) (val : BitVec 32) {start : ℕ}
    (hstart : pos % 16 * g.tnodeWidth = start) (n : ℕ) :
    (loadLevel0Tnode g tn pos val).bit n =
      if start ≤ n ∧ n < start + g.tnodeWidth then
        (val >>> g.chunkGroupBits).getLsbD (n - start)
      else tn.bit n := by
  have hle := g.le
  have hr : n % 32 < 32 := mod_lt n (by decide)
  simp only [Words.bit, load_word g tn pos val hstart]
  generalize val >>> g.chunkGroupBits = v
  by_cases hfirst : n / 32 = start / 32
  · rw [if_pos hfirst, getLsbD_putBits _ _ _ hr]
    simp only [getLsbD_shiftLeft, getLsbD_tnodeMask, hr, decide_true, Bool.true_and,
      Bool.and_eq_true, Bool.not_eq_true', decide_eq_false_iff_not, decide_eq_true_eq]
    by_cases hin : ¬n % 32 < start % 32 ∧ n % 32 - start % 32 < g.tnodeWidth
    · rw [if_pos hin, if_pos (by omega), show n - start = n % 32 - start % 32 by omega]
      simp [hin.1]
    · rw [if_neg hin, if_neg (by omega)]
  · rw [if_neg hfirst]
    by_cases hnext : n / 32 = start / 32 + 1 ∧ g.tnodeWidth > 32 - start % 32
    · rw [if_pos hnext, getLsbD_putBits _ _ _ hr]
      simp only [getLsbD_ushiftRight, getLsbD_tnodeMask, decide_eq_true_eq]
      by_cases hin : 32 - start % 32 + n % 32 < g.tnodeWidth
      · rw [if_pos hin, if_pos (by omega), show n - start = 32 - start % 32 + n % 32 by omega]
      · rw [if_neg hin, if_neg (by omega)]
    · rw [if_neg hnext, if_neg (by omega)]

theorem getLsbD_getChunkGroup (pos k : ℕ) : (getChunkGroup g tn pos).getLsbD k =
      (decide (k < g.tnodeWidth) && tn.bit (pos % 16 * g.tnodeWidth + k)) := by
  have hle := g.le
  simp only [getChunkGroup, Words.bit]
  generalize pos % 16 * g.tnodeWidth = start
  rw [getLsbD_and, getLsbD_tnodeMask, Bool.and_comm]
  by_cases hk : k < g.tnodeWidth
  · simp only [hk, decide_true, Bool.true_and]
    by_cases hsame : start % 32 + k < 32
    · have hword : (start + k) / 32 = start / 32 := by omega
      have hbit : (start + k) % 32 = start % 32 + k := by omega
      rw [hword, hbit]
      split_ifs
      · rw [getLsbD_or, getLsbD_ushiftRight, getLsbD_shiftLeft]
        simp [show k < 32 - start % 32 by omega]
      · rw [getLsbD_ushiftRight]
    · have hword : (start + k) / 32 = start / 32 + 1 := by omega
      have hbit : (start + k) % 32 = k - (32 - start % 32) := by omega
      rw [hword, hbit, if_pos (by omega), getLsbD_or, getLsbD_ushiftRight,
        getLsbD_shiftLeft, getLsbD_of_ge _ _ (by omega)]
      simp [show ¬k < 32 - start % 32 by omega, show k < 32 by omega]
  · simp [hk]

theorem getChunkGroup_load (pos q : ℕ) (val : BitVec 32) :
    getChunkGroup g (loadLevel0Tnode g tn pos val) q =
      if q % 16 = pos % 16 then val >>> g.chunkGroupBits &&& g.tnodeMask
      else getChunkGroup g tn q := by
  apply eq_of_getLsbD_eq
  intro k hk
  rw [getLsbD_getChunkGroup, bit_load g tn pos val rfl]
  by_cases hpos : q % 16 = pos % 16
  · rw [if_pos hpos, hpos, getLsbD_and, getLsbD_tnodeMask]
    by_cases hw : k < g.tnodeWidth
    · rw [if_pos ⟨Nat.le_add_right _ _, by omega⟩, Nat.add_sub_cancel_left, Bool.and_comm]
    · simp [hw]
  · rw [if_neg hpos, getLsbD_getChunkGroup]
    by_cases hw : k < g.tnodeWidth
    · rw [if_neg]
      rcases lt_or_gt_of_ne hpos with hlt | hgt
      · have := mul_le_mul_right g.tnodeWidth hlt
        rw [Nat.succ_mul] at this
        omega
      · have := mul_le_mul_right g.tnodeWidth hgt
        rw [Nat.succ_mul] at this
        omega
    · simp [hw]

end

theorem getChunkGroup_congr {tn' : Words} (h : ∀ i < g.tnodeWidth / 2, tn i = tn' i) (pos : ℕ) :
    getChunkGroup g tn pos = getChunkGroup g tn' pos := by
  apply eq_of_getLsbD_eq
  intro k hk
  rw [getLsbD_getChunkGroup, getLsbD_getChunkGroup]
  by_cases hw : k < g.tnodeWidth
  · have hpos : pos % 16 ≤ 15 := by omega
    have hmul := mul_le_mul_right g.tnodeWidth hpos
    have heven := g.even
    rw [Words.bit, Words.bit, h _ (by omega)]
  · simp [hw]

theorem getChunkGroup_of_zero (hzero : ∀ i < g.tnodeWidth / 2, tn i = 0) (pos : ℕ) :
    getChunkGroup g tn pos = 0 := by
  have hsame : getChunkGroup g tn pos = getChunkGroup g (fun _ => 0) pos :=
    getChunkGroup_congr hzero pos
  rw [hsame]
  simp [getChunkGroup]

/-- An entry is read back as the value rounded down to its chunk group, and the other entries read
as before. -/
theorem getChunkGroupBase_load (g : Geometry) (tn : Words) (pos : ℕ) (val : BitVec 32)
    (hval : val.toNat < 2 ^ g.tnodeWidth * 2 ^ g.chunkGroupBits) :
    (getChunkGroupBase g (loadLevel0Tnode g tn pos val) pos).toNat =
        val.toNat / 2 ^ g.chunkGroupBits * 2 ^ g.chunkGroupBits ∧
      ∀ q, q % 16 ≠ pos % 16 → getChunkGroupBase g (loadLevel0Tnode g tn pos val) q =
        getChunkGroupBase g tn q := by
  refine ⟨?_, fun q hq => by rw [getChunkGroupBase, getChunkGroup_load, if_neg hq]; rfl⟩
  have hsmall : val.toNat / 2 ^ g.chunkGroupBits < 2 ^ g.tnodeWidth :=
    Nat.div_lt_of_lt_mul (by rwa [Nat.mul_comm])
  have hmask : g.tnodeMask.toNat = 2 ^ g.tnodeWidth - 1 :=
    mod_eq_of_lt ((Nat.sub_lt (Nat.two_pow_pos _) one_pos).trans_le
      (Nat.pow_le_pow_right two_pos g.le))
  have hle := div_mul_le_self val.toNat (2 ^ g.chunkGroupBits)
  rw [getChunkGroupBase, getChunkGroup_load, if_pos rfl, toNat_shiftLeft, toNat_and,
    hmask, and_two_pow_sub_one_eq_mod, toNat_ushiftRight, shiftRight_eq_div_pow,
    mod_eq_of_lt hsmall, Nat.shiftLeft_eq, mod_eq_of_lt (hle.trans_lt val.isLt)]

/-- An entry of 18 bits that begins in one word and ends in the next. -/
theorem getChunkGroupBase_load_split : (getChunkGroupBase ⟨18, 1, by decide, by decide, by decide⟩
      (loadLevel0Tnode ⟨18, 1, by decide, by decide, by decide⟩ (fun _ => 0) 1 77777) 1).toNat =
        77777 / 2 ^ 1 * 2 ^ 1 :=
  (getChunkGroupBase_load ⟨18, 1, by decide, by decide, by decide⟩ _ 1 77777 (by decide)).1

end Packing

end AndroidKernel.Yaffs
