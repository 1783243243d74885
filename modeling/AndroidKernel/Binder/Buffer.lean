import AndroidKernel.Binder.Fault
import AndroidKernel.Lib.LinkedList
import AndroidKernel.Lib.RbTree
import Mathlib.Algebra.Order.Ring.Nat

/-!
# The binder buffer allocator

The model of the transaction-buffer allocator of `drivers/staging/android/binder.c`.
A process maps one area; it is tiled by buffers whose headers lie in the area
itself and whose sizes are not stored but computed from the next header. Addresses
and sizes are 32-bit machine words. A `BUG` of the source, and the release of a
page that is not there, are faults.
-/

namespace AndroidKernel.Binder

open RbTree LinkedList Function

/-- `PAGE_SIZE` -/
def pageSize : ℕ := 4096

/-- `sizeof(struct binder_buffer)` -/
def headerSize : ℕ := 40

/-- `ALIGN(x, sizeof(void *))` on a 32-bit word -/
def align (x : ℕ) : ℕ := (x + 3) % 2 ^ 32 / 4 * 4

/-- `PAGE_ALIGN(x)` on a 32-bit word -/
def pageAlign (x : ℕ) : ℕ := (x + 4095) % 2 ^ 32 / 4096 * 4096

/-- `x & PAGE_MASK` -/
def pageMask (x : ℕ) : ℕ := x / 4096 * 4096

/-- `x - y` on 32-bit words -/
def sub32 (x y : ℕ) : ℕ := (x + (2 ^ 32 - y)) % 2 ^ 32

/-- The fields of `struct binder_buffer` that the allocator reads. -/
structure BufferHeader where
  free : Bool
  asyncTransaction : Bool
  dataSize : ℕ
  offsetsSize : ℕ
  deriving DecidableEq

/-- The allocator's part of `struct binder_proc`. Buffers are named by the address of
their header. -/
structure BufferArea where
  /-- `proc->buffer`, the start of the area. -/
  buffer : ℕ
  bufferSize : ℕ
  /-- All buffers, in list order. -/
  buffers : List ℕ
  header : ℕ → BufferHeader
  freeBuffers : RbTree.Tree ℕ
  allocatedBuffers : RbTree.Tree ℕ
  freeAsyncSpace : ℕ
  /-- `proc->pages[i] != NULL` -/
  pages : ℕ → Bool
  /-- `proc->vma != NULL` -/
  vma : Bool

variable (rb : Balance ℕ) (p : BufferArea) (buffer dataSize offsetsSize : ℕ) (isAsync : Bool)

/-- `binder_buffer_size` -/
def BufferArea.binderBufferSize : ℕ :=
  match next p.buffers buffer with
  | none => sub32 (p.buffer + p.bufferSize) (buffer + headerSize)
  | some n => sub32 n (buffer + headerSize)

/-- `binder_insert_free_buffer` -/
def BufferArea.binderInsertFreeBuffer (newBuffer : ℕ) : Except Fault BufferArea :=
  let newBufferSize := p.binderBufferSize newBuffer
  let goLeft (b : ℕ) : Option Bool :=
    if (p.header b).free then some (decide (newBufferSize < p.binderBufferSize b)) else none
  if (p.header newBuffer).free then
    match p.freeBuffers.link goLeft newBuffer with
    | some t => .ok { p with freeBuffers := rb.insertColor t newBuffer }
    | none => .error .insertFreeBuffer
  else .error .insertFreeBuffer

/-- `binder_insert_allocated_buffer` -/
def BufferArea.binderInsertAllocatedBuffer (newBuffer : ℕ) : Except Fault BufferArea :=
  let goLeft (b : ℕ) : Option Bool :=
    if (p.header b).free then none
    else if newBuffer < b then some true
    else if newBuffer > b then some false
    else none
  if (p.header newBuffer).free then .error .insertAllocatedBuffer
  else
    match p.allocatedBuffers.link goLeft newBuffer with
    | some t => .ok { p with allocatedBuffers := rb.insertColor t newBuffer }
    | none => .error .insertAllocatedBuffer

/-- The descent of `binder_buffer_lookup`. -/
def BufferArea.lookupIn (p : BufferArea) (kernPtr : ℕ) : RbTree.Tree ℕ → Except Fault (Option ℕ)
  | .nil => .ok none
  | .node _ left b right =>
    if (p.header b).free then .error .bufferLookup
    else if kernPtr < b then p.lookupIn kernPtr left
    else if kernPtr > b then p.lookupIn kernPtr right
    else .ok (some b)

/-- `binder_buffer_lookup`, for the header address that belongs to a user pointer. -/
def BufferArea.binderBufferLookup (kernPtr : ℕ) : Except Fault (Option ℕ) :=
  p.lookupIn kernPtr p.allocatedBuffers

/-- What happens to one page of an allocating `binder_update_page_range`. -/
inductive PageStep where
  | done
  | allocPageFailed
  | mapKernelFailed
  | vmInsertPageFailed
  deriving DecidableEq

/-- The environment of one `binder_update_page_range` call. -/
structure PageFaults where
  /-- No `mm`, or the `vma` is gone by the time `mmap_sem` is taken. -/
  noVma : Bool
  /-- The fate of the pages of the call, in order. -/
  step : ℕ → PageStep

/-- The environment in which every page can be allocated and mapped. -/
def PageFaults.none : PageFaults := ⟨false, fun _ => .done⟩

/-- `__free_page(*page); *page = NULL;` -/
def freePage (pages : ℕ → Bool) (i : ℕ) : Except Fault (ℕ → Bool) :=
  if pages i then .ok (update pages i false) else .error .pageAbsent

/-- The downward loop of `binder_update_page_range` over `n` pages from `first`. -/
def freePages (first : ℕ) : ℕ → (ℕ → Bool) → Except Fault (ℕ → Bool)
  | 0, pages => .ok pages
  | n + 1, pages => freePage pages (first + n) >>= freePages first n

/-- The upward loop of `binder_update_page_range`, at its `k`-th page with `n` pages left.
A failing step jumps into the downward loop. -/
def allocPages (step : ℕ → PageStep) (first : ℕ) :
    ℕ → ℕ → (ℕ → Bool) → Except Fault (Bool × (ℕ → Bool))
  | _, 0, pages => .ok (true, pages)
  | k, n + 1, pages =>
    if pages (first + k) then .error .pagePresent
    else
      match step k with
      | .done => allocPages step first (k + 1) n (update pages (first + k) true)
      | .allocPageFailed => (freePages first k pages).map fun pages => (false, pages)
      | .mapKernelFailed | .vmInsertPageFailed =>
        (freePage (update pages (first + k) true) (first + k) >>= freePages first k).map
          fun pages => (false, pages)

/-- `binder_update_page_range(proc, 1, start, end, ..)`: `false` stands for `-ENOMEM`. -/
def BufferArea.allocatePageRange (start stop : ℕ) (faults : PageFaults) :
    Except Fault (Bool × BufferArea) :=
  if stop ≤ start then .ok (true, p)
  else if faults.noVma then .ok (false, p)
  else
    (allocPages faults.step ((start - p.buffer) / pageSize) 0 ((stop - start) / pageSize)
      p.pages).map fun r => (r.1, { p with pages := r.2 })

/-- `binder_update_page_range(proc, 0, start, end, ..)` -/
def BufferArea.freePageRange (start stop : ℕ) : Except Fault BufferArea :=
  if stop ≤ start then .ok p
  else
    (freePages ((start - p.buffer) / pageSize) ((stop - start) / pageSize) p.pages).map
      fun pages => { p with pages := pages }

/-- The best-fit descent of `binder_alloc_buf`: the best node met so far, and whether
the descent stopped on an exact fit. -/
def BufferArea.bestFit (p : BufferArea) (size : ℕ) :
    RbTree.Tree ℕ → Option ℕ → Except Fault (Option ℕ × Bool)
  | .nil, best => .ok (best, false)
  | .node _ left b right, best =>
    if (p.header b).free then
      if size < p.binderBufferSize b then p.bestFit size left (some b)
      else if size > p.binderBufferSize b then p.bestFit size right best
      else .ok (some b, true)
    else .error .allocBuf

/-- `ALIGN(data_size, sizeof(void *)) + ALIGN(offsets_size, sizeof(void *))` -/
def totalSize : ℕ := (align dataSize + align offsetsSize) % 2 ^ 32

/-- The value of `buffer_size` in `binder_alloc_buf` after the search: what is taken from
the chosen buffer, with the header of the remainder when it is split. -/
def takenSize (size bufferSize : ℕ) (exactFit : Bool) : ℕ :=
  if exactFit then bufferSize
  else if (size + headerSize + 4) % 2 ^ 32 ≥ bufferSize then size
  else (size + headerSize) % 2 ^ 32

/-- The part of `binder_alloc_buf` after the pages are mapped: move the buffer to the
allocated tree, and give the rest of it back as a free buffer. -/
def BufferArea.takeBuffer (size : ℕ) (split : Bool) : Except Fault BufferArea := do
  let p := { p with
    freeBuffers := rb.erase p.freeBuffers buffer
    header := update p.header buffer { p.header buffer with free := false } }
  let p ← p.binderInsertAllocatedBuffer rb buffer
  if split then
    let newBuffer := buffer + headerSize + size
    let p := { p with
      buffers := insertAfter buffer newBuffer p.buffers
      header := update p.header newBuffer { p.header newBuffer with free := true } }
    p.binderInsertFreeBuffer rb newBuffer
  else .ok p

/-- The bookkeeping at the end of `binder_alloc_buf`. -/
def BufferArea.recordSizes : BufferArea :=
  { p with
    header := update p.header buffer
      { p.header buffer with
        dataSize := dataSize, offsetsSize := offsetsSize, asyncTransaction := isAsync }
    freeAsyncSpace :=
      if isAsync then
        sub32 p.freeAsyncSpace ((totalSize dataSize offsetsSize + headerSize) % 2 ^ 32)
      else p.freeAsyncSpace }

/-- `binder_alloc_buf` from the chosen buffer on. -/
def BufferArea.allocFrom (exactFit : Bool) (dataSize offsetsSize : ℕ) (isAsync : Bool)
    (faults : PageFaults) : Except Fault (Option ℕ × BufferArea) := do
  let size := totalSize dataSize offsetsSize
  let data := buffer + headerSize
  let hasPageAddr := pageMask (data + p.binderBufferSize buffer)
  let bufferSize := takenSize size (p.binderBufferSize buffer) exactFit
  let endPageAddr := min (pageAlign (data + bufferSize)) hasPageAddr
  let (mapped, p) ← p.allocatePageRange (pageAlign data) endPageAddr faults
  if mapped then
    let p ← p.takeBuffer rb buffer size (decide (bufferSize ≠ size))
    .ok (some buffer, p.recordSizes buffer dataSize offsetsSize isAsync)
  else .ok (none, p)

/-- `binder_alloc_buf`: the buffer handed out, or none, and the new state. -/
def BufferArea.binderAllocBuf (faults : PageFaults) : Except Fault (Option ℕ × BufferArea) :=
  let size := totalSize dataSize offsetsSize
  if ¬ p.vma then .ok (none, p)
  else if size < dataSize ∨ size < offsetsSize then .ok (none, p)
  else if isAsync ∧ p.freeAsyncSpace < (size + headerSize) % 2 ^ 32 then .ok (none, p)
  else do
    match ← p.bestFit size p.freeBuffers none with
    | (none, _) => .ok (none, p)
    | (some buffer, exactFit) => p.allocFrom rb buffer exactFit dataSize offsetsSize isAsync faults

/-- `buffer_start_page` -/
def bufferStartPage : ℕ := pageMask buffer

/-- `buffer_end_page` -/
def bufferEndPage : ℕ := pageMask (buffer + headerSize - 1)

/-- Whether `binder_delete_free_buffer` gives back the first page of a header, whose
neighbours are the headers at `pr` and, if any, `nx`. -/
def freePageStart (pr buffer : ℕ) (nx : Option ℕ) : Bool :=
  !(bufferEndPage pr == bufferStartPage buffer) &&
    !(nx.any fun n => bufferStartPage n == bufferEndPage buffer &&
      bufferStartPage n == bufferStartPage buffer)

/-- Whether `binder_delete_free_buffer` gives back the last page of a header. -/
def freePageEnd (pr buffer : ℕ) (nx : Option ℕ) : Bool :=
  !(bufferEndPage pr == bufferStartPage buffer && bufferEndPage pr == bufferEndPage buffer) &&
    !(nx.any fun n => bufferStartPage n == bufferEndPage buffer)

/-- `binder_delete_free_buffer` -/
def BufferArea.binderDeleteFreeBuffer : Except Fault BufferArea :=
  match prev p.buffers buffer with
  | none => .error .deleteFreeBuffer
  | some pr =>
    if (p.header pr).free then
      let nx := next p.buffers buffer
      let fst := freePageStart pr buffer nx
      let lst := freePageEnd pr buffer nx
      let p := { p with buffers := p.buffers.erase buffer }
      if fst || lst then
        p.freePageRange (if fst then bufferStartPage buffer else bufferEndPage buffer)
          ((if lst then bufferEndPage buffer else bufferStartPage buffer) + pageSize)
      else .ok p
    else .error .deleteFreeBuffer

/-- The first coalescing step of `binder_free_buf`: absorb a free successor. -/
def BufferArea.mergeNext : Except Fault BufferArea :=
  match next p.buffers buffer with
  | none => .ok p
  | some nx =>
    if (p.header nx).free then
      { p with freeBuffers := rb.erase p.freeBuffers nx }.binderDeleteFreeBuffer nx
    else .ok p

/-- The second coalescing step of `binder_free_buf`: let a free predecessor absorb the
buffer. The result names the buffer that is left to be inserted. -/
def BufferArea.mergePrev : Except Fault (ℕ × BufferArea) :=
  match prev p.buffers buffer with
  | none => .ok (buffer, p)
  | some pr =>
    if (p.header pr).free then
      (p.binderDeleteFreeBuffer buffer).map fun p =>
        (pr, { p with freeBuffers := rb.erase p.freeBuffers pr })
    else .ok (buffer, p)

/-- The part of `binder_free_buf` that turns an allocated buffer into a free one, before
it is merged with its neighbours. -/
def BufferArea.releaseBuffer : Except Fault BufferArea := do
  let hdr := p.header buffer
  let size := totalSize hdr.dataSize hdr.offsetsSize
  let data := buffer + headerSize
  let async := if hdr.asyncTransaction then (p.freeAsyncSpace + (size + headerSize)) % 2 ^ 32
    else p.freeAsyncSpace
  let p ← { p with freeAsyncSpace := async }.freePageRange (pageAlign data)
    (pageMask (data + p.binderBufferSize buffer))
  .ok { p with
    allocatedBuffers := rb.erase p.allocatedBuffers buffer
    header := update p.header buffer { p.header buffer with free := true } }

/-- `binder_free_buf`. That `buffer->transaction` is cleared is checked by its callers'
model. -/
def BufferArea.binderFreeBuf : Except Fault BufferArea := do
  let hdr := p.header buffer
  if hdr.free ∨ totalSize hdr.dataSize hdr.offsetsSize > p.binderBufferSize buffer ∨
      buffer < p.buffer ∨ buffer > p.buffer + p.bufferSize then
    .error .freeBuf
  else
    let p ← p.releaseBuffer rb buffer
    let p ← p.mergeNext rb buffer
    let (buffer, p) ← p.mergePrev rb buffer
    p.binderInsertFreeBuffer rb buffer

/-- The kernel address range that `binder_mmap` maps for a process: page aligned, a whole
number of pages, at most `SZ_4M`, and not up to the end of the address space. -/
structure VmArea where
  addr : ℕ
  pageCount : ℕ
  addr_aligned : addr % 4096 = 0
  pageCount_pos : 0 < pageCount
  pageCount_le : pageCount ≤ 1024
  addr_add_lt : addr + pageCount * 4096 < 2 ^ 32

/-- The area as `binder_mmap` sets it up before any page is mapped. -/
def freshArea (area : VmArea) (header : ℕ → BufferHeader) : BufferArea where
  buffer := area.addr
  bufferSize := area.pageCount * pageSize
  buffers := []
  header := header
  freeBuffers := .nil
  allocatedBuffers := .nil
  freeAsyncSpace := 0
  pages := fun _ => false
  vma := false

/-- `binder_mmap` for an address range: map the first page and put one free buffer there that
spans the area. The rest of its header is what the page holds. `none` stands for `-ENOMEM`. -/
def binderMmap (area : VmArea) (header : ℕ → BufferHeader) (step : ℕ → PageStep) :
    Except Fault (Option BufferArea) := do
  let (mapped, p) ← (freshArea area header).allocatePageRange area.addr (area.addr + pageSize)
    ⟨false, step⟩
  if mapped then
    let buffer := p.buffer
    let p := { p with
      buffers := [buffer]
      header := update p.header buffer { p.header buffer with free := true } }
    let p ← p.binderInsertFreeBuffer rb buffer
    .ok (some { p with freeAsyncSpace := p.bufferSize / 2, vma := true })
  else .ok none

end AndroidKernel.Binder
