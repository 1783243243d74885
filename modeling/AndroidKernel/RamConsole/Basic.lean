import AndroidKernel.Lib.Bytes
import Mathlib.Algebra.Order.Ring.Int

/-!
# The RAM console

`drivers/staging/android/ram_console.c`. The buffer in memory keeps its bytes over a reboot. With
error correction a parity area follows the data: a slot for each block of the data, and one for the
header. The Reed-Solomon library is taken by what it does to a block and its parity.
-/

namespace AndroidKernel.RamConsole

open Bytes

/-- `lib/reed_solomon`, for blocks of bytes: the parity of a block, and the correction of a block by
its parity in place, with the number of errors or a negative number. A block that matches its parity
is left as it is. -/
structure Code (π : Type) where
  encode : List UInt8 → π
  decode : List UInt8 → π → ℤ × List UInt8
  decode_encode : ∀ block, decode block (encode block) = (0, block)
  length_decode : ∀ block par, (decode block par).2.length = block.length

/-- The number of places where two blocks differ. -/
def distance (xs ys : List UInt8) : ℕ := (xs.zip ys).countP fun p => p.1 != p.2

/-- The code restores every block that differs in at most `t` places from the one of the parity. -/
def Code.Corrects {π : Type} (code : Code π) (t : ℕ) : Prop :=
  ∀ block bad : List UInt8, bad.length = block.length → distance bad block ≤ t →
    code.decode bad (code.encode block) = ((distance bad block : ℤ), block)

/-- `struct ram_console_buffer` with its parity area. -/
structure Buffer (π : Type) where
  sig : ℕ
  start : ℕ
  size : ℕ
  data : List UInt8
  par : ℕ → π

/-- `RAM_CONSOLE_SIG` -/
def ramConsoleSig : ℕ := 0x43474244

/-- The error correction, if it is configured: `ECC_BLOCK_SIZE` is a power of two. -/
structure Ecc (π : Type) where
  code : Code π
  shift : ℕ

/-- `ECC_BLOCK_SIZE` -/
def Ecc.blockSize {π : Type} (ecc : Ecc π) : ℕ := 2 ^ ecc.shift

variable {π : Type}

/-- The header as bytes in memory. -/
def Buffer.header (b : Buffer π) : List UInt8 :=
  leBytes 4 b.sig ++ leBytes 4 b.start ++ leBytes 4 b.size

/-- The header read from its bytes. -/
def Buffer.setHeader (b : Buffer π) (bytes : List UInt8) : Buffer π :=
  { b with
    sig := ofLeBytes (slice bytes 0 4)
    start := ofLeBytes (slice bytes 4 4)
    size := ofLeBytes (slice bytes 8 4) }

/-- The parity slot of the header, behind those of the data. -/
def Ecc.headerSlot (ecc : Ecc π) (n : ℕ) : ℕ := (n + ecc.blockSize - 1) / ecc.blockSize

/-- The bytes of the block at an offset, which may end before a whole block does. -/
def Ecc.block (ecc : Ecc π) (data : List UInt8) (offset : ℕ) : List UInt8 :=
  slice data offset
    (if data.length < offset + ecc.blockSize then data.length - offset else ecc.blockSize)

/-- The loop of `ram_console_update` over the blocks up to `limit`, for at most the given number of
rounds. -/
def Ecc.encodeBlocks (ecc : Ecc π) (data : List UInt8) (limit : ℕ) : ℕ → ℕ → ℕ → (ℕ → π) → ℕ → π
  | 0, _, _, par => par
  | n + 1, offset, slot, par =>
    let par := Function.update par slot (ecc.code.encode (ecc.block data offset))
    if offset + ecc.blockSize < limit then
      ecc.encodeBlocks data limit n (offset + ecc.blockSize) (slot + 1) par
    else par

section Write

variable (ecc : Option (Ecc π))

/-- `ram_console_update` -/
def ramConsoleUpdate (s : List UInt8) (b : Buffer π) : Buffer π :=
  let data := splice b.data b.start s
  match ecc with
  | none => { b with data := data }
  | some ecc =>
    { b with
      data := data
      par := ecc.encodeBlocks data (b.start + s.length) (s.length + 1)
        (b.start - (b.start &&& (ecc.blockSize - 1))) (b.start / ecc.blockSize) b.par }

/-- `ram_console_update_header` -/
def ramConsoleUpdateHeader (b : Buffer π) : Buffer π :=
  match ecc with
  | none => b
  | some ecc =>
    { b with
      par := Function.update b.par (ecc.headerSlot b.data.length) (ecc.code.encode b.header) }

/-- The end of the data is filled and the writing goes on at its begin. -/
def wrapAround (s : List UInt8) (b : Buffer π) : Buffer π :=
  { ramConsoleUpdate ecc s b with start := 0, size := b.data.length }

/-- `ram_console_write`; `ram_console_buffer_size` is the length of the data. -/
def ramConsoleWrite (s : List UInt8) (b : Buffer π) : Buffer π :=
  let n := b.data.length
  let s := if s.length > n then s.drop (s.length - n) else s
  let rem := n - b.start
  let r := if rem < s.length then (s.drop rem, wrapAround ecc (s.take rem) b) else (s, b)
  let b := ramConsoleUpdate ecc r.1 r.2
  ramConsoleUpdateHeader ecc
    { b with
      start := b.start + r.1.length
      size := if b.size < n then b.size + r.1.length else b.size }

end Write

section Init

/-- `ram_console_corrected_bytes` and `ram_console_bad_blocks` -/
structure Errors where
  corrected : ℤ
  bad : ℕ
  deriving DecidableEq

/-- An answer of the decoder is counted. -/
def Errors.count (e : Errors) (numerr : ℤ) : Errors :=
  if numerr > 0 then { e with corrected := e.corrected + numerr }
  else if numerr < 0 then { e with bad := e.bad + 1 }
  else e

/-- The loop of `ram_console_save_old` that corrects the blocks up to `size`, for at most the given
number of rounds. -/
def Ecc.decodeBlocks (ecc : Ecc π) (size : ℕ) (par : ℕ → π) :
    ℕ → ℕ → ℕ → List UInt8 → Errors → List UInt8 × Errors
  | 0, _, _, data, e => (data, e)
  | n + 1, offset, slot, data, e =>
    if offset < size then
      let r := ecc.code.decode (ecc.block data offset) (par slot)
      ecc.decodeBlocks size par n (offset + ecc.blockSize) (slot + 1) (splice data offset r.2)
        (e.count r.1)
    else (data, e)

/-- The text that follows the old log. -/
def Errors.note (e : Errors) : String :=
  if e.corrected ≠ 0 ∨ e.bad ≠ 0 then
    "\n" ++ toString e.corrected ++ " Corrected bytes, " ++ toString e.bad ++
      " unrecoverable blocks\n"
  else "\nNo errors detected\n"

/-- The old log: its bytes, and the text that follows with error correction. -/
structure OldLog where
  bytes : List UInt8
  note : Option String
  deriving DecidableEq

/-- The bytes that `ram_console_save_old` copies. -/
def Buffer.contents (b : Buffer π) : List UInt8 :=
  slice b.data b.start (b.size - b.start) ++ slice b.data 0 b.start

variable (ecc : Option (Ecc π))

/-- `ram_console_save_old`; there may be no memory for the old log. -/
def ramConsoleSaveOld (memory : Bool) (b : Buffer π) (e : Errors) : Option OldLog × Buffer π :=
  match ecc with
  | none => (if memory then some ⟨b.contents, none⟩ else none, b)
  | some ecc =>
    let r := ecc.decodeBlocks b.size b.par b.size 0 0 b.data e
    let b := { b with data := r.1 }
    (if memory then some ⟨b.contents, some r.2.note⟩ else none, b)

/-- The header is corrected by its parity. -/
def decodeHeader (b : Buffer π) : Errors × Buffer π :=
  match ecc with
  | none => (⟨0, 0⟩, b)
  | some ecc =>
    let r := ecc.code.decode b.header (b.par (ecc.headerSlot b.data.length))
    (Errors.count ⟨0, 0⟩ r.1, b.setHeader r.2)

/-- `ram_console_init` for a buffer with a data area as long as its data; with the old log, if the
buffer is valid and there is memory for it. -/
def ramConsoleInit (memory : Bool) (b : Buffer π) : Option OldLog × Buffer π :=
  let r := decodeHeader ecc b
  let b := r.2
  let old :=
    if b.sig = ramConsoleSig ∧ ¬(b.size > b.data.length ∨ b.start > b.size) then
      ramConsoleSaveOld ecc memory b r.1
    else (none, b)
  (old.1, { old.2 with sig := ramConsoleSig, start := 0, size := 0 })

end Init

end AndroidKernel.RamConsole
