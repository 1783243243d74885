import Mathlib.Data.Fintype.Basic
import Mathlib.Data.Nat.Bitwise

/-!
# The buddy allocator of `mm/page_alloc.c`

A zone with its free lists, the fields of its pages that the allocator keeps, and the functions that
take blocks out of the lists and put them back. Pages are page frame numbers. Compound pages, the
debug checks and the tracing are left out.
-/

namespace AndroidKernel.Mm

open Function

/-- `MIGRATE_UNMOVABLE` and so on. -/
inductive MigrateType where
  | unmovable
  | reclaimable
  | movable
  | reserve
  | isolate
  deriving DecidableEq, Repr

instance : Fintype MigrateType where
  elems := {.unmovable, .reclaimable, .movable, .reserve, .isolate}
  complete t := by cases t <;> decide

/-- `MAX_ORDER` -/
def maxOrder : ℕ := 11

/-- `pageblock_order` -/
def pageblockOrder : ℕ := maxOrder - 1

/-- `struct zone`, and what the allocator reads of the pages. -/
structure Zone where
  /-- `free_area[order].free_list[migratetype]` -/
  freeList : ℕ → MigrateType → List ℕ
  /-- `free_area[order].nr_free` -/
  nrFree : ℕ → ℤ
  /-- `PageBuddy` -/
  pageBuddy : ℕ → Bool
  /-- `page_private`, which is `page_order` of a buddy page. -/
  pagePrivate : ℕ → ℕ
  pageblockMigratetype : ℕ → MigrateType
  /-- `pfn_valid_within` -/
  pfnValid : ℕ → Bool
  /-- `page_zone_id` of the pages, and the one of this zone. -/
  zoneId : ℕ → ℕ
  id : ℕ
  zoneStartPfn : ℕ
  spannedPages : ℕ
  /-- `page_group_by_mobility_disabled` -/
  groupingDisabled : Bool

/-- `__page_find_buddy` -/
def pageFindBuddy (page pageIdx order : ℕ) : ℕ := page + (pageIdx ^^^ 2 ^ order) - pageIdx

/-- `__find_combined_index` -/
def findCombinedIndex (pageIdx order : ℕ) : ℕ := Nat.ldiff pageIdx (2 ^ order)

/-- `fallbacks`. The rows are shorter than the array, whose remaining elements are zero. -/
def fallbacks : MigrateType → List MigrateType
  | .unmovable => [.reclaimable, .movable, .reserve, .unmovable]
  | .reclaimable => [.unmovable, .movable, .reserve, .unmovable]
  | .movable => [.reclaimable, .unmovable, .reserve, .unmovable]
  | .reserve => [.reserve, .reserve, .reserve, .unmovable]
  | .isolate => [.unmovable, .unmovable, .unmovable, .unmovable]

namespace Zone

variable (z : Zone) (page order : ℕ) (t : MigrateType)

/-- `set_page_order` -/
def setPageOrder : Zone :=
  { z with
    pagePrivate := update z.pagePrivate page order
    pageBuddy := update z.pageBuddy page true }

/-- `rmv_page_order` -/
def rmvPageOrder : Zone :=
  { z with
    pageBuddy := update z.pageBuddy page false
    pagePrivate := update z.pagePrivate page 0 }

/-- `set_page_private` by the owner of a page. -/
def setPagePrivate (value : ℕ) : Zone := { z with pagePrivate := update z.pagePrivate page value }

/-- `list_del(&page->lru)` -/
def listDel : Zone := { z with freeList := fun order t => (z.freeList order t).erase page }

/-- The zone with another free list. -/
def setList (list : List ℕ) : Zone :=
  { z with freeList := update z.freeList order (update (z.freeList order) t list) }

/-- `list_add(&page->lru, &zone->free_area[order].free_list[migratetype])` -/
def listAdd : Zone := z.setList order t (page :: z.freeList order t)

/-- `list_add_tail(&page->lru, &zone->free_area[order].free_list[migratetype])` -/
def listAddTail : Zone := z.setList order t (z.freeList order t ++ [page])

/-- `zone->free_area[order].nr_free += n` -/
def addNrFree (n : ℤ) : Zone := { z with nrFree := update z.nrFree order (z.nrFree order + n) }

/-- `page_is_buddy` -/
def pageIsBuddy (buddy order : ℕ) : Bool :=
  z.pfnValid buddy && z.zoneId page == z.zoneId buddy && z.pageBuddy buddy &&
    z.pagePrivate buddy == order

/-- The loop of `__free_one_page`, with its local variables. -/
def coalesce : ℕ → Zone → ℕ → ℕ → ℕ → Zone × ℕ × ℕ × ℕ
  | 0, z, page, pageIdx, order => (z, page, pageIdx, order)
  | fuel + 1, z, page, pageIdx, order =>
    let buddy := pageFindBuddy page pageIdx order
    if order < maxOrder - 1 ∧ z.pageIsBuddy page buddy order then
      let z := ((z.listDel buddy).addNrFree order (-1)).rmvPageOrder buddy
      let combinedIdx := findCombinedIndex pageIdx order
      coalesce fuel z (page + combinedIdx - pageIdx) combinedIdx (order + 1)
    else (z, page, pageIdx, order)

/-- Whether `__free_one_page` expects the block to be merged soon: the buddy of the next higher
order is free. -/
def mergesSoon (pageIdx order : ℕ) : Bool :=
  let buddy := pageFindBuddy page pageIdx order
  let combinedIdx := findCombinedIndex pageIdx order
  let higherPage := page + combinedIdx - pageIdx
  let higherBuddy := pageFindBuddy higherPage combinedIdx (order + 1)
  decide (order < maxOrder - 1) && z.pfnValid buddy &&
    z.pageIsBuddy higherPage higherBuddy (order + 1)

/-- `__free_one_page` -/
def freeOnePage : Zone :=
  let pageIdx := page &&& (2 ^ maxOrder - 1)
  let (z, page, pageIdx, order) := coalesce maxOrder z page pageIdx order
  let z := z.setPageOrder page order
  let z := if z.mergesSoon page pageIdx order then z.listAddTail page order t
    else z.listAdd page order t
  z.addNrFree order 1

/-- `expand`, from order `high` down to `low`. -/
def expand (page low : ℕ) (t : MigrateType) : ℕ → Zone → Zone
  | 0, z => z
  | high + 1, z =>
    if low < high + 1 then
      let z := ((z.listAdd (page + 2 ^ high) high t).addNrFree high 1).setPageOrder
        (page + 2 ^ high) high
      expand page low t high z
    else z

/-- The loop of `__rmqueue_smallest`, with the number of orders that are left. -/
def rmqueueFrom (z : Zone) (order : ℕ) (t : MigrateType) : ℕ → Option (ℕ × Zone)
  | 0 => none
  | left + 1 =>
    let currentOrder := maxOrder - (left + 1)
    match z.freeList currentOrder t with
    | [] => rmqueueFrom z order t left
    | page :: _ =>
      let z := ((z.listDel page).rmvPageOrder page).addNrFree currentOrder (-1)
      some (page, expand page order t currentOrder z)

/-- `__rmqueue_smallest` -/
def rmqueueSmallest : Option (ℕ × Zone) := z.rmqueueFrom order t (maxOrder - order)

/-- The loop of `move_freepages` from `page` up to `endPage`, with the number of pages moved. -/
def moveFreepages (t : MigrateType) (endPage page moved : ℕ) (z : Zone) : ℕ × Zone :=
  if endPage < page then (moved, z)
  else if ¬ z.pfnValid page ∨ ¬ z.pageBuddy page then
    moveFreepages t endPage (page + 1) moved z
  else
    let order := z.pagePrivate page
    let z := (z.listDel page).listAdd page order t
    moveFreepages t endPage (page + 2 ^ order) (moved + 2 ^ order) z
termination_by endPage + 1 - page
decreasing_by
  · omega
  · exact Nat.sub_lt_sub_left (by omega) (Nat.lt_add_of_pos_right (Nat.two_pow_pos _))

/-- `move_freepages_block` -/
def moveFreepagesBlock : ℕ × Zone :=
  let nrPages := 2 ^ pageblockOrder
  let startPfn := page / nrPages * nrPages
  let endPfn := startPfn + nrPages - 1
  let startPage := if startPfn < z.zoneStartPfn then page else startPfn
  if z.zoneStartPfn + z.spannedPages ≤ endPfn then (0, z)
  else moveFreepages t endPfn startPage 0 z

/-- `set_pageblock_migratetype` -/
def setPageblockMigratetype : Zone :=
  let t := if z.groupingDisabled then .unmovable else t
  { z with pageblockMigratetype := update z.pageblockMigratetype (page / 2 ^ pageblockOrder) t }

/-- `change_pageblock_range`, for a number of pageblocks. -/
def changePageblockRange (t : MigrateType) : ℕ → ℕ → Zone → Zone
  | 0, _, z => z
  | n + 1, page, z =>
    changePageblockRange t n (page + 2 ^ pageblockOrder) (z.setPageblockMigratetype page t)

/-- What `__rmqueue_fallback` does with the first page of a list of another type. -/
def stealFallback (start : MigrateType) (currentOrder page : ℕ) (t : MigrateType) : Zone :=
  let z := z.addNrFree currentOrder (-1)
  let steals := pageblockOrder / 2 ≤ currentOrder ∨ start = .reclaimable ∨ z.groupingDisabled
  let (t, z) :=
    if steals then
      let (pages, z) := z.moveFreepagesBlock page start
      let z := if 2 ^ (pageblockOrder - 1) ≤ pages ∨ z.groupingDisabled then
          z.setPageblockMigratetype page start
        else z
      (start, z)
    else (t, z)
  let z := (z.listDel page).rmvPageOrder page
  let z := if pageblockOrder ≤ currentOrder then
      changePageblockRange start (2 ^ (currentOrder - pageblockOrder)) page z
    else z
  expand page order t currentOrder z

/-- The inner loop of `__rmqueue_fallback` over a row of `fallbacks`. -/
def fallbackTypes (z : Zone) (order : ℕ) (start : MigrateType) (currentOrder : ℕ) :
    List MigrateType → Option (ℕ × Zone)
  | [] => none
  | t :: types =>
    if t = .reserve then fallbackTypes z order start currentOrder types
    else
      match z.freeList currentOrder t with
      | [] => fallbackTypes z order start currentOrder types
      | page :: _ => some (page, z.stealFallback order start currentOrder page t)

/-- The outer loop of `__rmqueue_fallback`, for the orders below `current`. -/
def fallbackOrders (z : Zone) (order : ℕ) (start : MigrateType) : ℕ → Option (ℕ × Zone)
  | 0 => none
  | currentOrder + 1 =>
    if order ≤ currentOrder then
      match z.fallbackTypes order start currentOrder (fallbacks start) with
      | some found => some found
      | none => z.fallbackOrders order start currentOrder
    else none

/-- `__rmqueue_fallback` -/
def rmqueueFallback (start : MigrateType) : Option (ℕ × Zone) :=
  z.fallbackOrders order start maxOrder

/-- `__rmqueue` -/
def rmqueue : Option (ℕ × Zone) :=
  match z.rmqueueSmallest order t with
  | some found => some found
  | none =>
    if t = .reserve then none
    else
      match z.rmqueueFallback order t with
      | some found => some found
      | none => z.rmqueueSmallest order .reserve

end Zone

end AndroidKernel.Mm
