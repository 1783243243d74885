import Mathlib.Algebra.Order.Ring.Nat

/-!
# Early memory regions

The region arrays of `mm/memblock.c`, where the physical memory and the reserved parts of it are
kept before the page allocator runs. Addresses and sizes are `u64`, counts `unsigned long`.
-/

namespace AndroidKernel.Mm.Memblock

/-- `MAX_MEMBLOCK_REGIONS` -/
def maxMemblockRegions : ℕ := 128

/-- Arithmetic on `u64` -/
def u64 (n : ℕ) : ℕ := n % 2 ^ 64

/-- Subtraction on `u64` -/
def u64Sub (a b : ℕ) : ℕ := u64 (a + 2 ^ 64 - b)

/-- `cnt - 1` on `unsigned long` -/
def pred (cnt : ℕ) : ℕ := (cnt + 2 ^ 32 - 1) % 2 ^ 32

/-- `struct memblock_property` -/
structure Property where
  base : ℕ
  size : ℕ
  deriving DecidableEq

/-- `struct memblock_region`. The array has `MAX_MEMBLOCK_REGIONS + 1` entries. -/
structure Region where
  cnt : ℕ
  region : ℕ → Property

/-- `memblock_addrs_adjacent` -/
def memblockAddrsAdjacent (base1 size1 base2 size2 : ℕ) : ℤ :=
  if base2 = u64 (base1 + size1) then 1
  else if base1 = u64 (base2 + size2) then -1
  else 0

namespace Region

variable (rgn : Region) (base size : ℕ)

/-- `memblock_regions_adjacent` -/
def memblockRegionsAdjacent (r1 r2 : ℕ) : ℤ :=
  memblockAddrsAdjacent (rgn.region r1).base (rgn.region r1).size (rgn.region r2).base
    (rgn.region r2).size

/-- An entry of the array is written. -/
def set (i : ℕ) (p : Property) : Region := { rgn with region := Function.update rgn.region i p }

/-- The loop of `memblock_remove_region` from the index `i` on, for `n` more rounds. -/
def shiftDown (a : ℕ → Property) (i : ℕ) : ℕ → ℕ → Property
  | 0 => a
  | n + 1 => shiftDown (Function.update a i (a (i + 1))) (i + 1) n

/-- `memblock_remove_region`; none when the loop leaves the array. -/
def memblockRemoveRegion (r : ℕ) : Option Region :=
  if pred rgn.cnt ≤ maxMemblockRegions then
    some ⟨pred rgn.cnt, shiftDown rgn.region r (pred rgn.cnt - r)⟩
  else none

/-- `memblock_coalesce_regions` -/
def memblockCoalesceRegions (r1 r2 : ℕ) : Option Region :=
  (rgn.set r1 ⟨(rgn.region r1).base,
    u64 ((rgn.region r1).size + (rgn.region r2).size)⟩).memblockRemoveRegion r2

/-- Where the first loop of `memblock_add_region` ends. -/
inductive Scan where
  /-- The region is there already. -/
  | present
  /-- The region with the index `i` was extended. -/
  | extended (i : ℕ) (rgn : Region)
  /-- No region was changed. -/
  | apart

/-- The first loop of `memblock_add_region` from the index `i` on, for `n` more rounds. -/
def scan (rgn : Region) (base size : ℕ) (i : ℕ) : ℕ → Scan
  | 0 => .apart
  | n + 1 =>
    let p := rgn.region i
    if p.base = base ∧ p.size = size then .present
    else
      let adjacent := memblockAddrsAdjacent base size p.base p.size
      if adjacent > 0 then
        .extended i (rgn.set i ⟨u64Sub p.base size, u64 (p.size + size)⟩)
      else if adjacent < 0 then
        .extended i (rgn.set i ⟨p.base, u64 (p.size + size)⟩)
      else scan rgn base size (i + 1) n

/-- The second loop of `memblock_add_region`, for the indices below `n`. -/
def insertLoop (base size : ℕ) : ℕ → (ℕ → Property) → ℕ → Property
  | 0, a => a
  | i + 1, a =>
    if base < (a i).base then insertLoop base size i (Function.update a (i + 1) (a i))
    else Function.update a (i + 1) ⟨base, size⟩

/-- The end of `memblock_add_region`: the region gets an entry of its own. -/
def insert : Region :=
  let a := insertLoop base size rgn.cnt rgn.region
  ⟨rgn.cnt + 1, if base < (a 0).base then Function.update a 0 ⟨base, size⟩ else a⟩

/-- `memblock_add_region` from the check of the next region on. -/
def addAt (i coalesced : ℕ) : Option (ℤ × Region) := do
  let (coalesced, rgn) ←
    if i < pred rgn.cnt ∧ rgn.memblockRegionsAdjacent i (i + 1) ≠ 0 then
      (rgn.memblockCoalesceRegions i (i + 1)).map fun rgn => (coalesced + 1, rgn)
    else some (coalesced, rgn)
  if coalesced ≠ 0 then some (coalesced, rgn)
  else if rgn.cnt ≥ maxMemblockRegions then some (-1, rgn)
  else some (0, rgn.insert base size)

/-- `memblock_add_region` -/
def memblockAddRegion : Option (ℤ × Region) :=
  if rgn.cnt = 1 ∧ (rgn.region 0).size = 0 then
    some (0, rgn.set 0 ⟨base, size⟩)
  else
    match rgn.scan base size 0 rgn.cnt with
    | .present => some (0, rgn)
    | .extended i rgn => rgn.addAt base size i 1
    | .apart => rgn.addAt base size rgn.cnt 0

/-- The loop of `__memblock_remove` from the index `i` on, for `n` more rounds. -/
def find (rgn : Region) (base stop : ℕ) (i : ℕ) : ℕ → Option ℕ
  | 0 => none
  | n + 1 =>
    let p := rgn.region i
    if p.base ≤ base ∧ stop ≤ u64 (p.base + p.size) then some i
    else find rgn base stop (i + 1) n

/-- `__memblock_remove` -/
def memblockRemove : Option (ℤ × Region) :=
  let stop := u64 (base + size)
  match rgn.find base stop 0 rgn.cnt with
  | none => some (-1, rgn)
  | some i =>
    let p := rgn.region i
    let rgnend := u64 (p.base + p.size)
    if p.base = base ∧ rgnend = stop then (rgn.memblockRemoveRegion i).map fun rgn => (0, rgn)
    else if p.base = base then some (0, rgn.set i ⟨stop, u64Sub p.size size⟩)
    else if rgnend = stop then some (0, rgn.set i ⟨p.base, u64Sub p.size size⟩)
    else (rgn.set i ⟨p.base, u64Sub base p.base⟩).memblockAddRegion stop (u64Sub rgnend stop)

end Region

end AndroidKernel.Mm.Memblock

namespace AndroidKernel.Mm

open Memblock

/-- `struct memblock` -/
structure Memblock where
  memory : Memblock.Region
  reserved : Memblock.Region

namespace Memblock

/-- A call of the interface. -/
inductive Call where
  | memblockAdd (base size : ℕ)
  | memblockReserve (base size : ℕ)
  | memblockRemove (base size : ℕ)
  | memblockFree (base size : ℕ)

/-- The state that `memblock_init` leaves; the rest of the arrays is zero. -/
def init : Memblock := ⟨⟨1, fun _ => ⟨0, 0⟩⟩, ⟨1, fun _ => ⟨0, 0⟩⟩⟩

/-- One call, with its result; none when it does not return. -/
def step (m : Memblock) : Call → Option (ℤ × Memblock)
  | .memblockAdd base size =>
    (m.memory.memblockAddRegion base size).map fun (r, rgn) => (r, { m with memory := rgn })
  | .memblockReserve base size =>
    if size = 0 then none
    else
      (m.reserved.memblockAddRegion base size).map fun (r, rgn) => (r, { m with reserved := rgn })
  | .memblockRemove base size =>
    (m.memory.memblockRemove base size).map fun (r, rgn) => (r, { m with memory := rgn })
  | .memblockFree base size =>
    (m.reserved.memblockRemove base size).map fun (r, rgn) => (r, { m with reserved := rgn })

/-- The state after a sequence of calls. -/
def run (m : Memblock) : List Call → Option Memblock
  | [] => some m
  | call :: calls => do
    let (_, m) ← m.step call
    m.run calls

end Memblock

end AndroidKernel.Mm
