import Mathlib.Algebra.Order.Ring.Nat

/-!
# Reading, writing and erasing a NAND chip

The page loops of `drivers/mtd/nand/nand_base.c`, as configured with `CONFIG_MTK_MTD_NAND`. One page
buffer serves as a cache for reads of a part of a page, and as staging buffer for writes of a part.
What the hardware answers is an input: each access to a page or a block has its result. Page
numbers of a device fit an `int`, but the byte address of a page does not need to. The OOB bytes
live in a buffer of their own; of them only the lengths are modelled.
-/

namespace AndroidKernel.Nand

open Function

/-- The data of a page, a byte for each column. -/
abbrev Page := ℕ → UInt8

/-- The fields of `struct nand_chip` and `struct mtd_info` that do not change, and what the
hardware makes of a page when another one is programmed on top of it. -/
structure Chip where
  pageShift : ℕ
  physEraseShift : ℕ
  chipShift : ℕ
  subpageShift : ℕ
  /-- The end of what may be erased. -/
  size : ℕ
  /-- `NAND_SUBPAGE_READ(chip)` -/
  nandSubpageRead : Bool
  program : Page → Page → Page
  subpage_pos : 0 < subpageShift
  subpage_le : subpageShift ≤ pageShift
  page_le : pageShift ≤ physEraseShift
  erase_le : physEraseShift ≤ chipShift

namespace Chip

variable (chip : Chip)

/-- `mtd->writesize` -/
def writesize : ℕ := 2 ^ chip.pageShift

/-- `chip->subpagesize` -/
def subpagesize : ℕ := 2 ^ chip.subpageShift

/-- `pages_per_block` -/
def pagesPerBlock : ℕ := 2 ^ (chip.physEraseShift - chip.pageShift)

/-- `chip->pagemask + 1` -/
def pagesPerChip : ℕ := 2 ^ (chip.chipShift - chip.pageShift)

end Chip

/-- The result of `chip->read_page`. -/
inductive PageRead where
  /-- The contents of the page, with this many bits corrected. -/
  | delivered (corrected : ℕ)
  /-- More errors than could be corrected: other data, and the failure counter goes up. -/
  | uncorrectable (data : Page) (failed corrected : ℕ)
  /-- A negative error number, but not the one for corrected bits; the buffer holds anything. -/
  | error (data : Page) (errno : ℕ) (hne : errno + 1 ≠ 117)

/-- The result of `chip->write_page`. -/
inductive PageWrite where
  | done
  /-- A return value that is not zero; the page holds anything. -/
  | failed (data : Page) (errno : ℕ)

/-- The result of `nand_block_checkbad` and `chip->erase`. -/
inductive BlockErase where
  | bad
  | done
  /-- The pages of the block hold anything. -/
  | failed (data : ℕ → Page)

/-- What changes. -/
structure State where
  pagebuf : ℤ
  databuf : Page
  /-- The pages of each chip. -/
  flash : ℕ → ℕ → Page
  eccFailed : ℕ
  eccCorrected : ℕ

/-- What a call returns. -/
structure Return where
  ret : ℤ
  retlen : ℕ
  oobretlen : ℕ
  datbuf : List UInt8

/-- `-EINVAL` -/
def einval : ℤ := -22

/-- `-EIO` -/
def eio : ℤ := -5

/-- `-EBADMSG` -/
def ebadmsg : ℤ := -74

/-- `-EUCLEAN` -/
def euclean : ℤ := -117

/-- The bytes that `memcpy` takes from the column `col` on. -/
def slice (data : Page) (col bytes : ℕ) : List UInt8 :=
  (List.range bytes).map fun i => data (col + i)

section Read

/-- The arguments of `nand_do_read_ops`. -/
structure ReadOps where
  «from» : ℕ
  len : ℕ
  /-- There is a buffer for OOB bytes. -/
  oob : Bool
  ooblen : ℕ
  maxOobsize : ℕ

variable (chip : Chip) (ops : ReadOps) (reads : ℕ → PageRead)

/-- The return value, the data and the counters of a page read. -/
def PageRead.outcome (content : Page) : PageRead → ℤ × Page × ℕ × ℕ
  | .delivered corrected => (0, content, 0, corrected)
  | .uncorrectable data failed corrected => (0, data, failed + 1, corrected)
  | .error data errno _ => (-(errno + 1 : ℕ), data, 0, 0)

/-- One page that is read from the chip, into the buffer of the caller when it is wanted whole. -/
def fetch (s : State) (chipnr realpage col bytes : ℕ) : State × Except ℤ (List UInt8) :=
  let aligned := bytes == chip.writesize
  let (ret, data, failed, corrected) :=
    (reads realpage).outcome (s.flash chipnr (realpage % chip.pagesPerChip))
  let s := { s with
    eccFailed := s.eccFailed + failed, eccCorrected := s.eccCorrected + corrected }
  let s := if aligned then s else { s with databuf := data }
  if ret < 0 then (s, .error ret)
  else
    let s :=
      if !aligned && !chip.nandSubpageRead && !ops.oob then { s with pagebuf := realpage } else s
    (s, .ok (slice data col bytes))

/-- The page that the loop is at: from the cache, or from the chip. -/
def readPage (s : State) (chipnr realpage col bytes : ℕ) : State × Except ℤ (List UInt8) :=
  if (realpage : ℤ) ≠ s.pagebuf ∨ ops.oob then fetch chip ops reads s chipnr realpage col bytes
  else (s, .ok (slice s.databuf col bytes))

/-- The loop of `nand_do_read_ops`; the last argument is what is in the caller's buffer already.
The first one bounds the number of rounds. -/
def readLoop : ℕ → State → ℕ → ℕ → ℕ → ℕ → ℕ → List UInt8 → Option (State × ℤ × ℕ × ℕ × List UInt8)
  | 0, _, _, _, _, _, _, _ => none
  | fuel + 1, s, chipnr, realpage, col, readlen, oobreadlen, buf =>
    let bytes := min (chip.writesize - col) readlen
    match readPage chip ops reads s chipnr realpage col bytes with
    | (s, .error ret) => some (s, ret, readlen, oobreadlen, buf)
    | (s, .ok data) =>
      let oobreadlen := if ops.oob then oobreadlen - min oobreadlen ops.maxOobsize else oobreadlen
      let readlen := readlen - bytes
      let buf := buf ++ data
      if readlen = 0 then some (s, 0, readlen, oobreadlen, buf)
      else
        let realpage := realpage + 1
        let chipnr := if realpage % chip.pagesPerChip = 0 then chipnr + 1 else chipnr
        readLoop fuel s chipnr realpage 0 readlen oobreadlen buf

/-- `nand_do_read_ops`. The counters do not wrap within a call. -/
def nandDoReadOps (s : State) : Option (State × Return) := do
  let (s', ret, readlen, oobreadlen, buf) ←
    readLoop chip ops reads (ops.len + 1) s (ops.from >>> chip.chipShift)
      (ops.from >>> chip.pageShift) (ops.from % chip.writesize) ops.len ops.ooblen []
  let ret :=
    if ret ≠ 0 then ret
    else if s'.eccFailed - s.eccFailed ≠ 0 then ebadmsg
    else if s'.eccCorrected - s.eccCorrected ≠ 0 then euclean
    else 0
  return (s', ⟨ret, ops.len - readlen, if ops.oob then ops.ooblen - oobreadlen else 0, buf⟩)

end Read

section Write

/-- The arguments of `nand_do_write_ops`; the length is that of the data. -/
structure WriteOps where
  toPos : ℕ
  datbuf : List UInt8
  oob : Bool
  ooblen : ℕ
  ooboffs : ℕ
  maxOobsize : ℕ
  len_lt : datbuf.length < 2 ^ 32

variable (chip : Chip) (ops : WriteOps) (writes : ℕ → PageWrite)

/-- The return value of a page write and what the page holds after it. -/
def PageWrite.outcome (old wbuf : Page) : PageWrite → ℤ × Page
  | .done => (0, chip.program old wbuf)
  | .failed data errno => (-(errno + 1 : ℕ), data)

variable (s : State)

/-- A page of a chip is written. -/
def State.setPage (chipnr page : ℕ) (data : Page) : State :=
  { s with flash := update s.flash chipnr (update (s.flash chipnr) page data) }

/-- A part of a page is put together in the page buffer; a whole page is written from the buffer of
the caller. Also the number of bytes and the page to write. -/
def stage (column : ℕ) (buf : List UInt8) (writelen : ℕ) : State × ℕ × Page :=
  if column ≠ 0 ∨ writelen < chip.writesize - 1 then
    let bytes := min (chip.writesize - column) writelen
    let databuf : Page := fun j =>
      if column ≤ j ∧ j < column + bytes then buf.getD (j - column) 0 else 0xff
    ({ s with pagebuf := -1, databuf := databuf }, bytes, databuf)
  else (s, chip.writesize, fun j => buf.getD j 0)

/-- The loop of `nand_do_write_ops`, with the data that is left and `writelen`. -/
def writeLoop : ℕ → State → ℕ → ℕ → ℕ → List UInt8 → ℕ → Option (State × ℤ × ℕ)
  | 0, _, _, _, _, _, _ => none
  | fuel + 1, s, chipnr, realpage, column, buf, writelen =>
    let (s, bytes, wbuf) := stage chip s column buf writelen
    let page := realpage % chip.pagesPerChip
    let (ret, data) := (writes realpage).outcome chip (s.flash chipnr page) wbuf
    let s := s.setPage chipnr page data
    if ret ≠ 0 then some (s, ret, writelen)
    else
      let writelen := (writelen + 2 ^ 32 - bytes) % 2 ^ 32
      if writelen = 0 then some (s, 0, writelen)
      else
        let realpage := realpage + 1
        let chipnr := if realpage % chip.pagesPerChip = 0 then chipnr + 1 else chipnr
        writeLoop fuel s chipnr realpage 0 (buf.drop bytes) writelen

/-- `chip->pagebuf << chip->page_shift`, an `int`. -/
def pagebufAddr : ℤ := Int.bmod (s.pagebuf * 2 ^ chip.pageShift) (2 ^ 32)

/-- The cached page is dropped when its address is in the range to be written. -/
def invalidate : State :=
  if (ops.toPos : ℤ) ≤ pagebufAddr chip s ∧
      pagebufAddr chip s < ops.toPos + ops.datbuf.length then { s with pagebuf := -1 }
  else s

/-- `nand_do_write_ops`; `wp` is what `nand_check_wp` says. -/
def nandDoWriteOps (wp : Bool) (s : State) : Option (State × Return) :=
  let len := ops.datbuf.length
  if len = 0 then some (s, ⟨0, 0, 0, []⟩)
  else if ops.toPos % chip.subpagesize ≠ 0 ∨ len % chip.subpagesize ≠ 0 then
    some (s, ⟨einval, 0, 0, []⟩)
  else
    let column := ops.toPos % chip.writesize
    if (column ≠ 0 ∨ len % chip.writesize ≠ 0) ∧ ops.oob then some (s, ⟨einval, 0, 0, []⟩)
    else if wp then some (s, ⟨eio, 0, 0, []⟩)
    else
      let s := invalidate chip ops s
      if ops.ooboffs ≠ 0 ∧ ops.ooboffs + ops.ooblen > ops.maxOobsize then
        some (s, ⟨einval, 0, 0, []⟩)
      else do
        let (s, ret, writelen) ← writeLoop chip writes (len + 1) s (ops.toPos >>> chip.chipShift)
          (ops.toPos >>> chip.pageShift) column ops.datbuf len
        return (s, ⟨ret, len - writelen, if ops.oob then ops.ooblen else 0, []⟩)

end Write

section Erase

variable (chip : Chip) (erases : ℕ → BlockErase)

/-- The pages of a block of a chip get new data. -/
def State.setBlock (s : State) (chipnr page : ℕ) (data : ℕ → Page) : State :=
  { s with flash := update s.flash chipnr fun p =>
      if page ≤ p ∧ p < page + chip.pagesPerBlock then data p else s.flash chipnr p }

/-- The loop of `nand_erase_nand` with the length that is left. -/
def eraseLoop : ℕ → State → ℕ → ℕ → ℕ → Option (State × ℤ)
  | 0, _, _, _, _ => none
  | fuel + 1, s, chipnr, page, len =>
    if len = 0 then some (s, 0)
    else
      let drop (s : State) : State :=
        if page ≤ s.pagebuf ∧ s.pagebuf < page + chip.pagesPerBlock then { s with pagebuf := -1 }
        else s
      match erases page with
      | .bad => some (s, eio)
      | .failed data => some ((drop s).setBlock chip chipnr (page % chip.pagesPerChip) data, eio)
      | .done =>
        let s := (drop s).setBlock chip chipnr (page % chip.pagesPerChip) fun _ _ => 0xff
        let len := len - 2 ^ chip.physEraseShift
        let page := page + chip.pagesPerBlock
        let chipnr := if len ≠ 0 ∧ page % chip.pagesPerChip = 0 then chipnr + 1 else chipnr
        eraseLoop fuel s chipnr page len

/-- `nand_erase_nand`, on a chip whose bad block table is not refreshed on the way. -/
def nandEraseNand (wp : Bool) (addr len : ℕ) (s : State) : Option (State × Return) :=
  if addr % 2 ^ chip.physEraseShift ≠ 0 ∨ len % 2 ^ chip.physEraseShift ≠ 0 ∨
      addr + len > chip.size then some (s, ⟨einval, 0, 0, []⟩)
  else if wp then some (s, ⟨eio, 0, 0, []⟩)
  else do
    let (s, ret) ← eraseLoop chip erases (len + 1) s (addr >>> chip.chipShift)
      (addr >>> chip.pageShift) len
    return (s, ⟨ret, 0, 0, []⟩)

end Erase

/-- A call, with what the hardware answers. -/
inductive Call where
  | read (ops : ReadOps) (reads : ℕ → PageRead)
  | write (ops : WriteOps) (writes : ℕ → PageWrite) (wp : Bool)
  | erase (addr len : ℕ) (erases : ℕ → BlockErase) (wp : Bool)

/-- One call. -/
def State.step (chip : Chip) (s : State) : Call → Option (State × Return)
  | .read ops reads => nandDoReadOps chip ops reads s
  | .write ops writes wp => nandDoWriteOps chip ops writes wp s
  | .erase addr len erases wp => nandEraseNand chip erases wp addr len s

/-- The state after a sequence of calls. -/
def State.run (chip : Chip) (s : State) : List Call → Option State
  | [] => some s
  | call :: calls => do
    let (s, _) ← s.step chip call
    s.run chip calls

/-- After `nand_scan_tail`: nothing is cached. -/
def State.init (flash : ℕ → ℕ → Page) (databuf : Page) : State := ⟨-1, databuf, flash, 0, 0⟩

end AndroidKernel.Nand
