import AndroidKernel.Lib.Bytes
import Mathlib.Algebra.Order.Ring.Int
import Mathlib.Data.UInt

/-!
# The extended attributes of a file

`yaffs_nameval.c` keeps names with their values in a buffer of the bytes `xb[0..xb_size)`. A record
is its length as an `int`, the name with its NUL, and the value; a length of zero ends the records.

The memory from `xb` on is a list of bytes, which may be longer than the buffer. A call returns
`none` where the source reads or writes outside that memory. Integers are 32 bits wide, the lowest
byte first.
-/

namespace AndroidKernel.NameVal

open Bytes

/-- A name: the characters before the NUL of a C string. -/
abbrev Name := { s : List UInt8 // 0 ∉ s }

/-- The memory from `xb` on. -/
abbrev Mem := List UInt8

/-- There is no such name. -/
def enodata : ℤ := 61

/-- The name is there already. -/
def eexist : ℤ := 17

/-- There is no room for the record. -/
def enospc : ℤ := 28

/-- The caller's buffer is too small. -/
def erange : ℤ := 34

/-- The flags of `nval_set`: `XATTR_CREATE` and `XATTR_REPLACE`. -/
structure Flags where
  create : Bool
  replace : Bool
  deriving DecidableEq, Repr

variable (xbSize : ℕ) (name : Name) (mem : Mem) (pos : ℕ) (buf : List UInt8)

/-- `memcpy` from the memory to somewhere else. -/
def read (n : ℕ) : Option (List UInt8) :=
  if pos + n ≤ mem.length then some (slice mem pos n) else none

/-- `memcpy` or `memset` to the memory. -/
def write (bytes : List UInt8) : Option Mem :=
  if pos + bytes.length ≤ mem.length then some (splice mem pos bytes) else none

/-- `memcpy(&size, xb + pos, sizeof(int))`. -/
def readInt : Option ℤ := (read mem pos 4).map fun bytes => (ofLeBytes bytes : ℤ).bmod (2 ^ 32)

/-- The size of the next record. The test `pos < xb_size - sizeof(int)` is unsigned. -/
def nextSize (pos : ℤ) : Option ℤ :=
  if pos % 2 ^ 32 < (xbSize - 4) % 2 ^ 32 then
    if 0 ≤ pos then readInt mem pos.toNat else none
  else some 0

/-- Whether `yaffs_strncmp` of the bytes with a name returns 0. -/
def strncmpEq : List UInt8 → List UInt8 → ℕ → Option Bool
  | _, _, 0 => some true
  | [], _, _ + 1 => none
  | x :: xs, name, n + 1 =>
    if x = name.headD 0 then
      if x = 0 then some true else strncmpEq xs name.tail n
    else some false

/-- `yaffs_strnlen` of the bytes. -/
def strnlen : List UInt8 → ℕ → Option ℕ
  | _, 0 => some 0
  | [], _ + 1 => none
  | x :: xs, n + 1 => if x = 0 then some 0 else (strnlen xs n).map (· + 1)

/-- What `yaffs_strncpy` writes: at most `n` characters of the name, then zeros up to `n`. -/
def strncpy (n : ℕ) : List UInt8 := name.1.take n ++ List.replicate (n - name.1.length) 0

section Walk

variable (xbSize : ℕ) (mem : Mem)

/-- The loop over the records that `nval_find` and `nval_used` share: it ends at a record for which
the test holds, with its size, or behind the last one. -/
def walk (test : ℕ → ℤ → Option Bool) : ℕ → ℕ → ℤ → Option (ℕ × Option ℤ)
  | 0, _, _ => none
  | fuel + 1, pos, size =>
    if 0 < size ∧ size < xbSize ∧ pos + size < xbSize then do
      if ← test pos size then some (pos, some size)
      else
        let pos := pos + size.toNat
        walk test fuel pos (← nextSize xbSize mem pos)
    else some (pos, none)

/-- `nval_find`: the position of the record with the name, with its size. The position only grows
within the buffer, which bounds the rounds. -/
def nvalFind (name : Name) : Option (Option (ℕ × ℤ)) := do
  let r ← walk xbSize mem (fun pos size => strncmpEq (mem.drop (pos + 4)) name size.toNat)
    (xbSize + 1) 0 (← readInt mem 0)
  return r.2.map fun size => (r.1, size)

/-- `nval_used`: the bytes that the records take. -/
def nvalUsed : Option ℕ := do
  let r ← walk xbSize mem (fun _ _ => some false) (xbSize + 1) 0 (← readInt mem 0)
  return r.1

end Walk

/-- `nval_del`: the records behind move over the one with the name, and the end of the buffer is
cleared. -/
def nvalDel : Option (ℤ × Mem) := do
  match ← nvalFind xbSize mem name with
  | none => return (-enodata, mem)
  | some (pos, _) =>
    let size ← readInt mem pos
    let rest ← read mem (pos + size.toNat) (xbSize - (pos + size.toNat))
    let mem ← write mem pos rest
    let mem ← write mem (xbSize - size.toNat) (List.replicate size.toNat 0)
    return (0, mem)

/-- The length of a record, `sizeof(int) + namelen + 1 + bsize` as an `int`. -/
def reclen : ℤ := ((4 + min name.1.length xbSize + 1 + buf.length : ℕ) : ℤ).bmod (2 ^ 32)

/-- `nval_set` from where the record is written. -/
def putRecord (start : ℕ) (mem : Mem) : Option Mem := do
  let len := (reclen xbSize name buf % 2 ^ 32).toNat
  let mem ← write mem start (leBytes 4 len)
  let mem ← write mem (start + 4) (strncpy name len)
  write mem (start + 4 + (min name.1.length xbSize + 1)) buf

/-- `nval_set`. -/
def nvalSet (flags : Flags) (mem : Mem) : Option (ℤ × Mem) := do
  let found ← nvalFind xbSize mem name
  if flags.create && found.isSome then return (-eexist, mem)
  if flags.replace && found.isNone then return (-enodata, mem)
  let start ← nvalUsed xbSize mem
  let space : ℤ := xbSize - start + (found.elim 0 Prod.snd)
  if reclen xbSize name buf > space then return (-enospc, mem)
  if found.isSome then
    let r ← nvalDel xbSize name mem
    let start ← nvalUsed xbSize r.2
    return (0, ← putRecord xbSize name buf start r.2)
  else return (0, ← putRecord xbSize name buf start mem)

/-- `nval_get` over the name: `pos` and `size` when it stops at the NUL. The bytes are those from
`xb + pos` on. -/
def skipName (xbSize : ℕ) : List UInt8 → ℕ → ℤ → Option (ℕ × ℤ)
  | [], _, _ => none
  | x :: xs, pos, size =>
    if x ≠ 0 ∧ size > 0 ∧ pos < xbSize then skipName xbSize xs (pos + 1) (size - 1)
    else some (pos, size)

/-- `nval_get`: the result, and the bytes in the caller's buffer of `bsize` bytes. -/
def nvalGet (bsize : ℕ) (mem : Mem) : Option (ℤ × List UInt8) := do
  match ← nvalFind xbSize mem name with
  | none => return (-enodata, [])
  | some (pos, _) =>
    let size ← readInt mem pos
    let r ← skipName xbSize (mem.drop (pos + 4)) (pos + 4) (size - 4)
    if r.2 - 1 ≤ bsize then
      -- a negative size is a large one for memcpy
      return (r.2 - 1, ← read mem (r.1 + 1) ((r.2 - 1) % 2 ^ 32).toNat)
    else return (-erange, [])

/-- The loop of `nval_list`. The test `size > sizeof(int)` is unsigned. -/
def listLoop (xbSize bsize : ℕ) (mem : Mem) : ℕ → ℤ → ℤ → List UInt8 → Bool → Option (List UInt8)
  | 0, _, _, _, _ => none
  | fuel + 1, pos, size, buf, filled =>
    if (size < 0 ∨ 4 < size) ∧ size ≤ xbSize ∧ pos + size < xbSize ∧ filled = false then do
      let nameLen ← strnlen (mem.drop (pos + 4).toNat) ((size - 4) % 2 ^ 32).toNat
      let pos' := pos + size
      if buf.length + nameLen + 1 < bsize then
        let name ← read mem (pos + 4).toNat nameLen
        listLoop xbSize bsize mem fuel pos' (← nextSize xbSize mem pos') (buf ++ name ++ [0]) false
      else listLoop xbSize bsize mem fuel pos' (← nextSize xbSize mem pos') buf true
    else some buf

/-- `nval_list`: what it writes to the caller's buffer of `bsize` bytes. -/
def nvalList (bsize : ℕ) (mem : Mem) : Option (List UInt8) := do
  listLoop xbSize bsize mem (xbSize + 1) 0 (← readInt mem 0) [] false

/-- `nval_hasvalues`. -/
def nvalHasvalues : Option Bool := do
  return 0 < (← nvalUsed xbSize mem)

end AndroidKernel.NameVal
