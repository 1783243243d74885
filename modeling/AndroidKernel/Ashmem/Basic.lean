import Mathlib.Algebra.Order.Ring.Int
import Mathlib.Data.List.Basic

/-!
# Pinning of ashmem pages

The model of the unpinned ranges in `mm/ashmem.c`. Each area keeps a list of its unpinned
ranges, those not purged are also on the list of least recently used ranges that the shrinker
works on, and everything runs under `ashmem_mutex`. Page numbers are natural numbers: the code
only adds one to an end that is smaller than another end, and only subtracts one from a start
that is larger than another start. The sizes of ranges and their count are 32-bit numbers.
-/

namespace AndroidKernel.Ashmem

open Function

/-- `struct ashmem_range`, with a name that stands for its address. -/
structure Range where
  id : ℕ
  pgstart : ℕ
  pgend : ℕ
  /-- `ASHMEM_WAS_PURGED` -/
  purged : Bool
  deriving DecidableEq

namespace Range

variable (r : Range)

/-- `range_size` -/
def size : BitVec 32 := BitVec.ofNat 32 r.pgend - BitVec.ofNat 32 r.pgstart + 1

/-- `range_on_lru` -/
def onLru : Bool := !r.purged

/-- `page_range_subsumes_range` -/
def subsumes (start stop : ℕ) : Bool := r.pgstart ≥ start && r.pgend ≤ stop

/-- `page_range_subsumed_by_range` -/
def subsumedBy (start stop : ℕ) : Bool := r.pgstart ≤ start && r.pgend ≥ stop

/-- `page_in_range` -/
def pageIn (page : ℕ) : Bool := r.pgstart ≤ page && r.pgend ≥ page

/-- `page_range_in_range` -/
def rangeIn (start stop : ℕ) : Bool := r.pageIn start || r.pageIn stop || r.subsumes start stop

/-- `range_before_page` -/
def beforePage (page : ℕ) : Bool := r.pgend < page

end Range

/-- `ashmem_lru_list` by area and range, `lru_count`, and the next name for a range. -/
structure Lru where
  list : List (ℕ × ℕ)
  count : BitVec 32
  next : ℕ

namespace Lru

variable (lru : Lru) (asma : ℕ)

/-- `lru_add` -/
def add (r : Range) : Lru :=
  { lru with list := lru.list ++ [(asma, r.id)], count := lru.count + r.size }

/-- `lru_del` -/
def del (r : Range) : Lru :=
  { lru with list := lru.list.erase (asma, r.id), count := lru.count - r.size }

/-- What `range_alloc` does to the list, for a range it makes. -/
def rangeAlloc (r : Range) : Lru :=
  let lru := { lru with next := lru.next + 1 }
  if r.onLru then lru.add asma r else lru

/-- What `range_del` does to the list. -/
def rangeDel (r : Range) : Lru := if r.onLru then lru.del asma r else lru

/-- What `range_shrink` does to the count, for a range before and after. -/
def rangeShrink (r r' : Range) : Lru :=
  if r.onLru then { lru with count := lru.count - (r.size - r'.size) } else lru

end Lru

/-- The loop of `ashmem_pin` over the unpinned list: whether it met a purged range, and what it
leaves. `alloc` says whether `range_alloc` succeeds. -/
def ashmemPin (asma : ℕ) (alloc : Bool) (pgstart pgend : ℕ) :
    List Range → Lru → Bool × List Range × Lru
  | [], lru => (false, [], lru)
  | r :: l, lru =>
    if r.beforePage pgstart then (false, r :: l, lru)
    else if r.rangeIn pgstart pgend then
      if r.subsumes pgstart pgend then
        let (ret, l', lru') := ashmemPin asma alloc pgstart pgend l (lru.rangeDel asma r)
        (r.purged || ret, l', lru')
      else if r.pgstart ≥ pgstart then
        let r' := { r with pgstart := pgend + 1 }
        let (ret, l', lru') := ashmemPin asma alloc pgstart pgend l (lru.rangeShrink r r')
        (r.purged || ret, r' :: l', lru')
      else if r.pgend ≤ pgend then
        let r' := { r with pgend := pgstart - 1 }
        let (ret, l', lru') := ashmemPin asma alloc pgstart pgend l (lru.rangeShrink r r')
        (r.purged || ret, r' :: l', lru')
      else
        let r' := { r with pgend := pgstart - 1 }
        let rest : Range := ⟨lru.next, pgend + 1, r.pgend, r.purged⟩
        if alloc then (r.purged, rest :: r' :: l, (lru.rangeAlloc asma rest).rangeShrink r r')
        else (r.purged, r' :: l, lru.rangeShrink r r')
    else
      let (ret, l', lru') := ashmemPin asma alloc pgstart pgend l lru
      (ret, r :: l', lru')

/-- Where one pass of `ashmem_unpin` over the unpinned list ends. -/
inductive Scan where
  /-- The pages are unpinned already. -/
  | covered
  /-- A range to merge with, between those before and behind it. -/
  | merge (before : List Range) (r : Range) (behind : List Range)
  /-- The place for a new range. -/
  | insert (before behind : List Range)

/-- The pass goes over one more range first. -/
def Scan.push (r : Range) : Scan → Scan
  | covered => covered
  | merge before r' behind => merge (r :: before) r' behind
  | insert before behind => insert (r :: before) behind

/-- One pass of `ashmem_unpin` over the unpinned list. -/
def scan (pgstart pgend : ℕ) : List Range → Scan
  | [] => .insert [] []
  | r :: l =>
    if r.beforePage pgstart then .insert [] (r :: l)
    else if r.subsumedBy pgstart pgend then .covered
    else if r.rangeIn pgstart pgend then .merge [] r l
    else (scan pgstart pgend l).push r

/-- `ashmem_unpin`, with as many restarts as there are ranges to merge with: whether it succeeds,
and what it leaves. -/
def ashmemUnpin (asma : ℕ) (alloc : Bool) :
    ℕ → ℕ → ℕ → Bool → List Range → Lru → Bool × List Range × Lru
  | restarts, pgstart, pgend, purged, l, lru =>
    match scan pgstart pgend l, restarts with
    | .covered, _ => (true, l, lru)
    | .merge before r behind, restarts + 1 =>
      ashmemUnpin asma alloc restarts (min r.pgstart pgstart) (max r.pgend pgend)
        (purged || r.purged) (before ++ behind) (lru.rangeDel asma r)
    | .merge _ _ _, 0 => (false, l, lru)
    | .insert before behind, _ =>
      let r : Range := ⟨lru.next, pgstart, pgend, purged⟩
      if alloc then (true, before ++ r :: behind, lru.rangeAlloc asma r)
      else (false, before ++ behind, lru)

/-- `ashmem_get_pin_status`: true stands for `ASHMEM_IS_UNPINNED`. -/
def ashmemGetPinStatus (pgstart pgend : ℕ) : List Range → Bool
  | [] => false
  | r :: l =>
    if r.beforePage pgstart then false
    else if r.rangeIn pgstart pgend then true
    else ashmemGetPinStatus pgstart pgend l

/-- The areas with their unpinned lists, and the list of least recently used ranges. -/
structure State where
  unpinned : ℕ → List Range
  lru : Lru

namespace State

/-- No page is unpinned. -/
def init : State := ⟨fun _ => [], ⟨[], 0, 0⟩⟩

variable (s : State)

/-- `ASHMEM_PIN` on an area: true stands for `ASHMEM_WAS_PURGED`. -/
def pin (asma : ℕ) (alloc : Bool) (pgstart pgend : ℕ) : Bool × State :=
  let (ret, l, lru) := ashmemPin asma alloc pgstart pgend (s.unpinned asma) s.lru
  (ret, ⟨update s.unpinned asma l, lru⟩)

/-- `ASHMEM_UNPIN` on an area: false stands for `-ENOMEM`. -/
def unpin (asma : ℕ) (alloc : Bool) (pgstart pgend : ℕ) : Bool × State :=
  let (ret, l, lru) := ashmemUnpin asma alloc (s.unpinned asma).length pgstart pgend false
    (s.unpinned asma) s.lru
  (ret, ⟨update s.unpinned asma l, lru⟩)

/-- The range that an entry of the list of least recently used ranges stands for. -/
def range (entry : ℕ × ℕ) : Option Range := (s.unpinned entry.1).find? fun r => r.id == entry.2

/-- `range->purged = ASHMEM_WAS_PURGED` and `lru_del` -/
def purge (entry : ℕ × ℕ) (r : Range) : State where
  unpinned := update s.unpinned entry.1
    ((s.unpinned entry.1).map fun q => if q.id == entry.2 then { q with purged := true } else q)
  lru := s.lru.del entry.1 r

/-- The loop of `ashmem_shrink`: the ranges handed to `vmtruncate_range`, by area. -/
def shrinkLoop : List (ℕ × ℕ) → ℤ → State → List (ℕ × Range) × State
  | [], _, s => ([], s)
  | entry :: l, nrToScan, s =>
    match s.range entry with
    | none => shrinkLoop l nrToScan s
    | some r =>
      let nrToScan := Int.bmod (nrToScan - r.size.toNat) (2 ^ 32)
      if nrToScan ≤ 0 then ([(entry.1, r)], s.purge entry r)
      else
        let (gone, s) := shrinkLoop l nrToScan (s.purge entry r)
        ((entry.1, r) :: gone, s)

/-- `ashmem_shrink`; `fs` is `__GFP_FS`. -/
def shrink (nrToScan : ℤ) (fs : Bool) : List (ℕ × Range) × State :=
  if nrToScan = 0 ∨ ¬ fs then ([], s) else shrinkLoop s.lru.list nrToScan s

end State

/-- What can happen to the areas. -/
inductive Op where
  | pin (asma : ℕ) (alloc : Bool) (pgstart pgend : ℕ)
  | unpin (asma : ℕ) (alloc : Bool) (pgstart pgend : ℕ)
  | shrink (nrToScan : ℤ) (fs : Bool)

/-- The area after an operation. -/
def State.step (s : State) : Op → State
  | .pin asma alloc pgstart pgend => (s.pin asma alloc pgstart pgend).2
  | .unpin asma alloc pgstart pgend => (s.unpin asma alloc pgstart pgend).2
  | .shrink nrToScan fs => (s.shrink nrToScan fs).2

end AndroidKernel.Ashmem
