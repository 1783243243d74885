import Mathlib.Order.Interval.Finset.Nat

/-!
# The allocation of chunks in yaffs

`yaffs_guts.c` hands out the chunks of one block after the other. `yaffs_FindBlockForAllocation`
takes an empty block, `yaffs_AllocateChunk` hands out its pages, and `yaffs_BlockBecameDirty` erases
a block that is no longer in use, or retires it. The device counts its empty blocks and its free
chunks.

Whether an erase of a block succeeds is an argument of the calls that erase. The statistics of the
device (`nBlockErasures` and the like) are left out.
-/

namespace AndroidKernel.Yaffs

/-- `yaffs_BlockState`. -/
inductive BlockState
  | unknown | scanning | needsScanning | empty | allocating | full | dirty | checkpoint | collecting
  | dead
  deriving DecidableEq, Repr

/-- `yaffs_BlockInfo`, with the chunk bits of the block. -/
structure BlockInfo where
  blockState : BlockState
  sequenceNumber : ℕ
  pagesInUse : ℕ
  softDeletions : ℕ
  needsRetiring : Bool
  hasShrinkHeader : Bool
  skipErasedCheck : Bool
  gcPrioritise : Bool
  chunkBits : ℕ → Bool

/-- The parts of `yaffs_Device` that the allocation uses. No `allocationBlock` stands for -1. -/
structure Device where
  internalStartBlock : ℕ
  internalEndBlock : ℕ
  nChunksPerBlock : ℕ
  nReservedBlocks : ℤ
  isYaffs2 : Bool
  blockInfo : ℕ → BlockInfo
  nErasedBlocks : ℤ
  nFreeChunks : ℤ
  allocationBlock : Option ℕ
  allocationPage : ℕ
  allocationBlockFinder : ℤ
  sequenceNumber : ℕ
  gcBlock : ℕ
  gcDirtiest : ℕ
  gcPagesInUse : ℕ
  oldestDirtySequence : ℕ
  oldestDirtyBlock : ℕ
  isCheckpointed : Bool
  blocksInCheckpoint : ℤ

/-- What a call does to the flash: it hands out a page of a block, takes a block with a sequence
number, or erases a block. -/
inductive Event
  | handedOut (block page : ℕ)
  | taken (block seq : ℕ)
  | erased (block : ℕ)
  deriving DecidableEq, Repr

namespace Device

variable (d : Device)

/-- The numbers of the blocks. -/
def blocks : Finset ℕ := Finset.Icc d.internalStartBlock d.internalEndBlock

/-- The number of empty blocks. -/
def emptyBlocks : ℕ := (d.blocks.filter fun b => (d.blockInfo b).blockState = .empty).card

/-- The device with a change to a block. -/
def setBlock (b : ℕ) (f : BlockInfo → BlockInfo) : Device :=
  { d with blockInfo := Function.update d.blockInfo b (f (d.blockInfo b)) }

/-- `yaffs2_ClearOldestDirtySequence`. -/
def clearOldestDirtySequence (bi : BlockInfo) : Device :=
  if d.isYaffs2 ∧ bi.sequenceNumber = d.oldestDirtySequence then
    { d with oldestDirtySequence := 0, oldestDirtyBlock := 0 }
  else d

end Device

variable (erase : ℕ → Bool) (b : ℕ) (d : Device)

/-- One round of `yaffs2_CheckpointErase`. -/
def checkpointEraseBlock (s : Device × List Event) (i : ℕ) : Device × List Event :=
  if (s.1.blockInfo i).blockState = .checkpoint then
    if erase i then
      ({ s.1.setBlock i (fun bi => { bi with blockState := .empty }) with
        nErasedBlocks := s.1.nErasedBlocks + 1
        nFreeChunks := s.1.nFreeChunks + s.1.nChunksPerBlock }, s.2 ++ [.erased i])
    else (s.1.setBlock i (fun bi => { bi with blockState := .dead }), s.2)
  else s

/-- `yaffs2_CheckpointErase`. -/
def checkpointErase : Device × List Event :=
  let r := (List.range' d.internalStartBlock (d.internalEndBlock + 1 - d.internalStartBlock)).foldl
    (checkpointEraseBlock erase) (d, [])
  ({ r.1 with blocksInCheckpoint := 0 }, r.2)

/-- `yaffs2_InvalidateCheckpoint`. -/
def invalidateCheckpoint : Device × List Event :=
  if d.isCheckpointed ∨ d.blocksInCheckpoint > 0 then
    checkpointErase erase { d with isCheckpointed := false }
  else (d, [])

/-- `yaffs_RetireBlock`. The marks that it leaves on the flash are left out. -/
def retireBlock (blockInNAND : ℕ) (d : Device) : Device × List Event :=
  let r := invalidateCheckpoint erase d
  let d := r.1.clearOldestDirtySequence (r.1.blockInfo blockInNAND)
  (d.setBlock blockInNAND fun bi =>
    { bi with blockState := .dead, gcPrioritise := false, needsRetiring := false }, r.2)

/-- The first part of `yaffs_BlockBecameDirty`: the block is not a candidate for the garbage
collector any more. -/
def markDirty (blockNo : ℕ) (d : Device) : Device :=
  let d := d.clearOldestDirtySequence (d.blockInfo blockNo)
  let d := d.setBlock blockNo fun bi => { bi with blockState := .dirty }
  let d := if blockNo = d.gcBlock then { d with gcBlock := 0 } else d
  if blockNo = d.gcDirtiest then { d with gcDirtiest := 0, gcPagesInUse := 0 } else d

/-- `yaffs_BlockBecameDirty`. -/
def blockBecameDirty (blockNo : ℕ) (d : Device) : Device × List Event :=
  let d := markDirty blockNo d
  let needsRetiring := (d.blockInfo blockNo).needsRetiring
  let r := if needsRetiring then (d, []) else invalidateCheckpoint erase d
  if !needsRetiring && erase blockNo then
    ({ r.1.setBlock blockNo (fun bi => { bi with
        blockState := .empty
        sequenceNumber := 0
        pagesInUse := 0
        softDeletions := 0
        hasShrinkHeader := false
        skipErasedCheck := true
        gcPrioritise := false
        chunkBits := fun _ => false }) with
      nErasedBlocks := r.1.nErasedBlocks + 1 }, r.2 ++ [.erased blockNo])
  else
    let r' := retireBlock erase blockNo
      { r.1 with nFreeChunks := r.1.nFreeChunks - r.1.nChunksPerBlock }
    (r'.1, r.2 ++ r'.2)

/-- The next block that `yaffs_FindBlockForAllocation` looks at. -/
def Device.nextFinder : ℤ :=
  if d.allocationBlockFinder + 1 < d.internalStartBlock ∨
      d.allocationBlockFinder + 1 > d.internalEndBlock then
    d.internalStartBlock
  else d.allocationBlockFinder + 1

/-- `yaffs_FindBlockForAllocation` takes the block. The sequence number is 32 bits wide. -/
def takeBlock : Device :=
  { d.setBlock b (fun bi => { bi with
      blockState := .allocating, sequenceNumber := (d.sequenceNumber + 1) % 2 ^ 32 }) with
    sequenceNumber := (d.sequenceNumber + 1) % 2 ^ 32
    nErasedBlocks := d.nErasedBlocks - 1 }

/-- The loop of `yaffs_FindBlockForAllocation`. -/
def findEmpty : ℕ → Device → Option ℕ × Device
  | 0, d => (none, d)
  | n + 1, d =>
    let d := { d with allocationBlockFinder := d.nextFinder }
    let b := d.allocationBlockFinder.toNat
    if (d.blockInfo b).blockState = .empty then (some b, takeBlock b d) else findEmpty n d

/-- `yaffs_FindBlockForAllocation`. -/
def findBlockForAllocation : Option ℕ × Device :=
  if d.nErasedBlocks < 1 then (none, d)
  else findEmpty (d.internalEndBlock + 1 - d.internalStartBlock) d

/-- `yaffs_CheckSpaceForAllocation`, given what `yaffs2_CalcCheckpointBlocksRequired` returns. -/
def checkSpaceForAllocation (checkpointBlocks nChunks : ℤ) (d : Device) : Bool :=
  d.nFreeChunks > (d.nReservedBlocks + checkpointBlocks) * d.nChunksPerBlock + nChunks

/-- The block is the one to allocate from. -/
def Device.allocateFrom (b : ℕ) : Device :=
  { d with allocationBlock := some b, allocationPage := 0 }

/-- `yaffs_AllocateChunk` gets a block to allocate from. -/
def getBlock : Device × List Event :=
  match d.allocationBlock with
  | some _ => (d, [])
  | none =>
    match findBlockForAllocation d with
    | (none, d) => ({ d with allocationPage := 0 }, [])
    | (some b, d) => (d.allocateFrom b, [.taken b d.sequenceNumber])

/-- `yaffs_AllocateChunk` hands out the next page of the block. -/
def nextPage : Device :=
  let d := { d.setBlock b (fun bi => { bi with
      pagesInUse := bi.pagesInUse + 1
      chunkBits := Function.update bi.chunkBits d.allocationPage true }) with
    allocationPage := d.allocationPage + 1
    nFreeChunks := d.nFreeChunks - 1 }
  if d.allocationPage ≥ d.nChunksPerBlock then
    { d.setBlock b (fun bi => { bi with blockState := .full }) with allocationBlock := none }
  else d

/-- `yaffs_AllocateChunk`: the chunk or -1, the device and what happened. -/
def allocateChunk (useReserve : Bool) (checkpointBlocks : ℤ) (d : Device) :
    ℤ × Device × List Event :=
  let r := getBlock d
  if !useReserve && !checkSpaceForAllocation checkpointBlocks 1 r.1 then (-1, r)
  else
    match r.1.allocationBlock with
    | none => (-1, r)
    | some b => (b * r.1.nChunksPerBlock + r.1.allocationPage, nextPage b r.1,
        r.2 ++ [.handedOut b r.1.allocationPage])

/-- `yaffs_SkipRestOfBlock`. -/
def skipRestOfBlock : Device :=
  match d.allocationBlock with
  | none => d
  | some b =>
    if 0 < b ∧ (d.blockInfo b).blockState = .allocating then
      { d.setBlock b (fun bi => { bi with blockState := .full }) with allocationBlock := none }
    else d

end AndroidKernel.Yaffs
