import AndroidKernel.Yaffs.Blocks

/-!
# The checkpoint stream of yaffs

`yaffs_checkptrw.c` writes a stream of bytes to the empty blocks of the flash, and reads it back at
the next mount. The bytes are collected in a buffer of the size of a chunk. The blocks are those
that a scan for empty blocks finds; the reader finds them again by the tags of their first chunks,
and keeps a list of them that is of bounded length.

What a write to the flash does is an argument: it may fail and leave anything behind. Reads of the
flash give what is there. The device has the functions that access the flash. The current chunk of a
stream without a block, which is -1 when the stream is opened, stands as 0; it is set before it is
used. The statistics `nPageWrites` and `nPageReads` are left out.
-/

namespace AndroidKernel.Yaffs.Checkpoint

/-- `YAFFS_SEQUENCE_CHECKPOINT_DATA`. -/
def sequenceCheckpointData : ℕ := 0x21

/-- The fields of `yaffs_ExtendedTags` that the stream uses. -/
structure Tags where
  objectId : ℤ
  chunkId : ℕ
  sequenceNumber : ℕ

/-- A chunk that is written. Its bytes are those at the first `nDataBytesPerChunk` places. -/
structure Page where
  data : ℕ → BitVec 8
  tags : Tags

/-- The sizes of the chunks, and the number of blocks by which the numbers of the blocks are shifted
against those of the flash. -/
structure Param where
  nDataBytesPerChunk : ℕ
  totalBytesPerChunk : ℕ
  blockOffset : ℕ
  pos : 0 < nDataBytesPerChunk
  le : nDataBytesPerChunk ≤ totalBytesPerChunk

/-- What a write to the flash does. -/
inductive WriteResult
  | ok
  | failed (left : Option Page)

/-- The device while a checkpoint is written or read. No chunk on the flash stands for an erased
one, no buffer and no list for `NULL`. -/
structure Stream where
  param : Param
  dev : Device
  flash : ℤ → Option Page
  checkpointOpenForWrite : Bool
  checkpointBuffer : Option (ℕ → BitVec 8)
  checkpointByteOffset : ℕ
  checkpointPageSequence : ℕ
  checkpointByteCount : ℕ
  checkpointSum : BitVec 32
  checkpointXor : BitVec 32
  checkpointCurrentBlock : ℤ
  checkpointCurrentChunk : ℕ
  checkpointNextBlock : ℤ
  checkpointMaxBlocks : ℕ
  checkpointBlockList : Option (List ℤ)

/-- The numbers from `a` to `b`. -/
def interval (a b : ℤ) : List ℤ := (List.range (b + 1 - a).toNat).map fun i : ℕ => a + i

namespace Stream

variable (s : Stream)

/-- The place on the flash of a chunk of a block: `chunk - dev->chunkOffset`. -/
def realignedChunk (block : ℤ) (chunk : ℕ) : ℤ :=
  block * s.dev.nChunksPerBlock + chunk - s.param.blockOffset * s.dev.nChunksPerBlock

/-- The block is in the state EMPTY. -/
def isEmpty (block : ℤ) : Bool := (s.dev.blockInfo block.toNat).blockState = .empty

/-- What `readChunkWithTagsFromNAND` gives. The tags of an erased chunk are all zero. -/
def readChunk (chunk : ℤ) : Page := (s.flash chunk).getD ⟨fun _ => 0xff, 0, 0, 0⟩

/-- The first chunk of the block is one of a checkpoint. -/
def isCheckpoint (block : ℤ) : Bool :=
  (s.readChunk (s.realignedChunk block 0)).tags.sequenceNumber = sequenceCheckpointData

/-- The flash with a block erased. -/
def eraseBlock (flash : ℤ → Option Page) (block : ℕ) : ℤ → Option Page := fun chunk =>
  if s.realignedChunk block 0 ≤ chunk ∧ chunk < s.realignedChunk (block + 1) 0 then none
  else flash chunk

/-- The flash after the erases among the events. -/
def eraseFlash (events : List Event) : ℤ → Option Page :=
  events.foldl (fun flash ev => match ev with
    | .erased block => s.eraseBlock flash block
    | _ => flash) s.flash

end Stream

variable (s : Stream)

/-- `yaffs2_CheckpointSpaceOk`. -/
def checkpointSpaceOk : Bool := 0 < s.dev.nErasedBlocks - s.dev.nReservedBlocks

/-- `yaffs2_CheckpointFindNextErasedBlock`. -/
def findNextErasedBlock : Stream :=
  let found := if 0 ≤ s.checkpointNextBlock ∧ s.checkpointNextBlock ≤ s.dev.internalEndBlock ∧
      0 < s.dev.nErasedBlocks - s.dev.nReservedBlocks then
    (interval s.checkpointNextBlock s.dev.internalEndBlock).find? s.isEmpty
  else none
  match found with
  | some i => { s with checkpointNextBlock := i + 1, checkpointCurrentBlock := i }
  | none => { s with checkpointNextBlock := -1, checkpointCurrentBlock := -1 }

/-- `yaffs2_CheckpointFindNextCheckpointBlock`. -/
def findNextCheckpointBlock : Stream :=
  let found := if s.dev.blocksInCheckpoint < s.checkpointMaxBlocks then
    (interval s.checkpointNextBlock s.dev.internalEndBlock).find? s.isCheckpoint
  else none
  match found with
  | some i => { s with
      checkpointNextBlock := (s.readChunk (s.realignedChunk i 0)).tags.objectId
      checkpointCurrentBlock := i
      checkpointBlockList :=
        s.checkpointBlockList.map fun l => l.set s.dev.blocksInCheckpoint.toNat i
      dev := { s.dev with blocksInCheckpoint := s.dev.blocksInCheckpoint + 1 } }
  | none => { s with checkpointNextBlock := -1, checkpointCurrentBlock := -1 }

/-- The part of `yaffs2_CheckpointOpen` that both ways have in common. `buffer` is what the
allocation of a buffer gives. -/
def openCommon (forWriting : Bool) (buffer : Option (ℕ → BitVec 8)) : Stream :=
  { s with
    checkpointOpenForWrite := forWriting
    checkpointBuffer := s.checkpointBuffer.or buffer
    checkpointPageSequence := 0
    checkpointByteCount := 0
    checkpointSum := 0
    checkpointXor := 0
    checkpointCurrentBlock := -1
    checkpointCurrentChunk := 0
    checkpointNextBlock := s.dev.internalStartBlock }

/-- The buffer with the first bytes set to zero. -/
def clear (n : ℕ) (buffer : ℕ → BitVec 8) : ℕ → BitVec 8 := fun i => if i < n then 0 else buffer i

/-- `yaffs2_CheckpointOpen` for writing. `erase` says which blocks can be erased. -/
def openForWriting (erase : ℕ → Bool) (buffer : Option (ℕ → BitVec 8)) : Bool × Stream :=
  if checkpointSpaceOk s then
    match (openCommon s true buffer).checkpointBuffer with
    | none => (false, { s with checkpointOpenForWrite := true })
    | some buf =>
      let r := checkpointErase erase s.dev
      (true, { openCommon s true buffer with
        checkpointBuffer := some (clear s.param.nDataBytesPerChunk buf)
        checkpointByteOffset := 0
        dev := r.1
        flash := s.eraseFlash r.2 })
  else (false, { s with checkpointOpenForWrite := true })

/-- `yaffs2_CheckpointOpen` for reading. `listed` says whether the allocation of the list of blocks
succeeds. -/
def openForReading (buffer : Option (ℕ → BitVec 8)) (listed : Bool) : Bool × Stream :=
  match (openCommon s false buffer).checkpointBuffer with
  | none => (false, { s with checkpointOpenForWrite := false })
  | some _ =>
    let maxBlocks := (s.dev.internalEndBlock - s.dev.internalStartBlock) / 16 + 2
    (listed, { openCommon s false buffer with
      checkpointByteOffset := s.param.nDataBytesPerChunk
      dev := { s.dev with blocksInCheckpoint := 0 }
      checkpointMaxBlocks := maxBlocks
      checkpointBlockList := if listed then some (List.replicate maxBlocks (-1)) else none })

/-- `yaffs2_GetCheckpointSum`. -/
def getCheckpointSum : BitVec 32 := s.checkpointSum <<< 8 ||| (s.checkpointXor &&& 0xff)

/-- The block that is written to or read, found by `find` if there is none. -/
def currentBlock (find : Stream → Stream) : Stream :=
  if s.checkpointCurrentBlock < 0 then { find s with checkpointCurrentChunk := 0 } else s

variable (res : ℕ → WriteResult) (buf : ℕ → BitVec 8)

/-- The part of `yaffs2_CheckpointFlushBuffer` behind the choice of a block. -/
def flushTo : Stream :=
  let block := s.checkpointCurrentBlock
  let page : Page :=
    ⟨buf, s.checkpointNextBlock, s.checkpointPageSequence + 1, sequenceCheckpointData⟩
  let dev := if s.checkpointCurrentChunk = 0 then
      { s.dev.setBlock block.toNat (fun bi => { bi with blockState := .checkpoint }) with
        blocksInCheckpoint := s.dev.blocksInCheckpoint + 1 }
    else s.dev
  let full := s.checkpointCurrentChunk + 1 ≥ s.dev.nChunksPerBlock
  { s with
    dev := dev
    flash := Function.update s.flash (s.realignedChunk block s.checkpointCurrentChunk)
      (match res s.checkpointPageSequence with
        | .ok => some page
        | .failed left => left)
    checkpointByteOffset := 0
    checkpointPageSequence := s.checkpointPageSequence + 1
    checkpointCurrentChunk := if full then 0 else s.checkpointCurrentChunk + 1
    checkpointCurrentBlock := if full then -1 else block
    checkpointBuffer := some (clear s.param.nDataBytesPerChunk buf) }

/-- `yaffs2_CheckpointFlushBuffer`. `res n` is the result of the write of the page `n`. -/
def flushBuffer : Bool × Stream :=
  let s := currentBlock s findNextErasedBlock
  if s.checkpointCurrentBlock < 0 then (false, s) else (true, flushTo s res buf)

/-- The bytes that went through the stream, counted and summed. -/
def account (b : BitVec 8) : Stream :=
  { s with
    checkpointSum := s.checkpointSum + b.setWidth 32
    checkpointXor := s.checkpointXor ^^^ b.setWidth 32
    checkpointByteOffset := s.checkpointByteOffset + 1
    checkpointByteCount := s.checkpointByteCount + 1 }

/-- One round of the loop of `yaffs2_CheckpointWrite`. No result stands for a write outside of the
buffer. -/
def writeByte (b : BitVec 8) : Option (Bool × Stream) :=
  s.checkpointBuffer.bind fun buf =>
    if s.checkpointByteOffset < s.param.totalBytesPerChunk then
      let buf := Function.update buf s.checkpointByteOffset b
      let t := { account s b with checkpointBuffer := some buf }
      some (if t.checkpointByteOffset ≥ s.param.nDataBytesPerChunk then flushBuffer t res buf
        else (true, t))
    else none

/-- The loop of `yaffs2_CheckpointWrite`, with the number of bytes that were taken. -/
def writeLoop (res : ℕ → WriteResult) : List (BitVec 8) → Stream → Option (ℕ × Stream)
  | [], s => some (0, s)
  | b :: bs, s => do
    let r ← writeByte s res b
    if r.1 then (writeLoop res bs r.2).map fun w => (w.1 + 1, w.2) else some (1, r.2)

/-- `yaffs2_CheckpointWrite`. -/
def checkpointWrite (bytes : List (BitVec 8)) : Option (ℤ × Stream) :=
  if s.checkpointBuffer.isNone then some (0, s)
  else if s.checkpointOpenForWrite then (writeLoop res bytes s).map fun r => ((r.1 : ℤ), r.2)
  else some (-1, s)

/-- The next chunk is read into the buffer, from the block that was found. -/
def fetchFrom : Bool × Stream :=
  let page := s.readChunk (s.realignedChunk s.checkpointCurrentBlock s.checkpointCurrentChunk)
  let ok := page.tags.chunkId = s.checkpointPageSequence + 1 ∧
    page.tags.sequenceNumber = sequenceCheckpointData
  (ok, { s with
    checkpointBuffer := some fun i => if i < s.param.nDataBytesPerChunk then page.data i else buf i
    checkpointByteOffset := 0
    checkpointPageSequence := s.checkpointPageSequence + 1
    checkpointCurrentChunk := s.checkpointCurrentChunk + 1
    checkpointCurrentBlock :=
      if s.checkpointCurrentChunk + 1 ≥ s.dev.nChunksPerBlock then -1
      else s.checkpointCurrentBlock })

/-- The part of the loop of `yaffs2_CheckpointRead` that reads the next chunk. -/
def fetch : Bool × Stream :=
  let s := currentBlock s findNextCheckpointBlock
  if s.checkpointCurrentBlock < 0 then (false, s) else fetchFrom s buf

/-- One round of the loop of `yaffs2_CheckpointRead`, with the byte that is read. No result stands
for a read outside of the buffer. -/
def readByte : Option (Option (BitVec 8) × Stream) :=
  s.checkpointBuffer.bind fun buf =>
    let r := if s.checkpointByteOffset ≥ s.param.nDataBytesPerChunk then fetch s buf else (true, s)
    if r.1 then r.2.checkpointBuffer.bind fun buf =>
      if r.2.checkpointByteOffset < r.2.param.totalBytesPerChunk then
        let b := buf r.2.checkpointByteOffset
        some (some b, account r.2 b)
      else none
    else some (none, r.2)

/-- The loop of `yaffs2_CheckpointRead`, with the bytes that were read. -/
def readLoop : ℕ → Stream → Option (List (BitVec 8) × Stream)
  | 0, s => some ([], s)
  | n + 1, s => do
    let r ← readByte s
    match r.1 with
    | some b => (readLoop n r.2).map fun rest => (b :: rest.1, rest.2)
    | none => some ([], r.2)

/-- `yaffs2_CheckpointRead`: the value that it returns, and the bytes that it read. -/
def checkpointRead (n : ℕ) : Option (ℤ × List (BitVec 8) × Stream) :=
  if s.checkpointBuffer.isNone then some (0, [], s)
  else if s.checkpointOpenForWrite then some (-1, [], s)
  else (readLoop n s).map fun r => ((r.1.length : ℤ), r.1, r.2)

/-- The block of the list is one of a checkpoint. -/
def markCheckpoint (dev : Device) (block : ℤ) : Device :=
  if dev.internalStartBlock ≤ block ∧ block ≤ dev.internalEndBlock ∧
      (dev.blockInfo block.toNat).blockState = .empty then
    dev.setBlock block.toNat fun bi => { bi with blockState := .checkpoint }
  else dev

/-- `yaffs2_CheckpointClose`. -/
def checkpointClose : Bool × Stream :=
  let s := if s.checkpointOpenForWrite then
      match s.checkpointBuffer with
      | some buf => if s.checkpointByteOffset ≠ 0 then (flushBuffer s res buf).2 else s
      | none => s
    else match s.checkpointBlockList with
      | some list => { s with
          dev := ((list.take s.dev.blocksInCheckpoint.toNat).takeWhile (0 ≤ ·)).foldl
            markCheckpoint s.dev
          checkpointBlockList := none }
      | none => s
  (s.checkpointBuffer.isSome, { s with
    dev := { s.dev with
      nFreeChunks := s.dev.nFreeChunks - s.dev.blocksInCheckpoint * s.dev.nChunksPerBlock
      nErasedBlocks := s.dev.nErasedBlocks - s.dev.blocksInCheckpoint }
    checkpointBuffer := none })

/-- The writes of a checkpoint, one after the other, with what they return. -/
def writeAll (res : ℕ → WriteResult) : List (List (BitVec 8)) → Stream → Option (List ℤ × Stream)
  | [], s => some ([], s)
  | bytes :: rest, s => do
    let r ← checkpointWrite s res bytes
    let t ← writeAll res rest r.2
    some (r.1 :: t.1, t.2)

/-- The reads of a checkpoint, one after the other, with what they return and the bytes
they give. -/
def readAll : List ℕ → Stream → Option (List (ℤ × List (BitVec 8)) × Stream)
  | [], s => some ([], s)
  | n :: rest, s => do
    let r ← checkpointRead s n
    let t ← readAll rest r.2.2
    some ((r.1, r.2.1) :: t.1, t.2)

end AndroidKernel.Yaffs.Checkpoint
