import AndroidKernel.Binder.BufferTiling

/-!
# The pages behind the buffers

A page of the area is present exactly when a header, or the used part of an allocated
buffer, lies on it. Allocation, release and the merging of headers compute their page
ranges with different roundings; the lemmas here say what each range contains, so that
no page is mapped twice or released twice.
-/

namespace AndroidKernel.Binder

open RbTree LinkedList Function Except Nat Option

variable {p p' : BufferArea} {n first : ℕ} {pages : ℕ → Bool}

/-- Set the presence of the `n` pages from `first` on. -/
def fillPages (v : Bool) (first n : ℕ) (pages : ℕ → Bool) : ℕ → Bool :=
  fun i => if first ≤ i ∧ i < first + n then v else pages i

theorem fillPages_zero (v : Bool) (first : ℕ) (pages : ℕ → Bool) :
    fillPages v first 0 pages = pages := by
  funext i
  exact if_neg (by omega)

theorem freePages_ok (hpages : ∀ k < n, pages (first + k) = true) :
    freePages first n pages = .ok (fillPages false first n pages) := by
  induction n generalizing pages with
  | zero => rw [fillPages_zero, freePages]
  | succ n ih =>
    have hlast : freePage pages (first + n) = .ok (update pages (first + n) false) := by
      simp [freePage, hpages n (by omega)]
    have hrest : ∀ k < n, update pages (first + n) false (first + k) = true := by
      intro k hk
      rw [update_of_ne (by omega)]
      exact hpages k (by omega)
    rw [freePages, hlast]
    refine (ih hrest).trans (congrArg ok ?_)
    funext i
    by_cases hi : i = first + n <;> grind [fillPages, update_apply]

/-- The upward loop, entered with its first `k` pages mapped, either maps the rest or
takes back everything it mapped. -/
theorem allocPages_ok (step : ℕ → PageStep) {k : ℕ}
    (hpages : ∀ j < k + n, pages (first + j) = false) :
    ∃ mapped, allocPages step first k n (fillPages true first k pages) =
      .ok (mapped, if mapped then fillPages true first (k + n) pages else pages) := by
  induction n generalizing k with
  | zero => exact ⟨true, rfl⟩
  | succ n ih =>
    have hset : update (fillPages true first k pages) (first + k) true =
        fillPages true first (k + 1) pages := by
      funext i
      by_cases hi : i = first + k <;> grind [fillPages, update_apply]
    have hback : fillPages false first k (fillPages true first k pages) = pages := by
      funext i
      by_cases hi : first ≤ i ∧ i < first + k
      · obtain ⟨j, rfl⟩ := Nat.exists_eq_add_of_le hi.1
        simp [fillPages, hi, hpages j (by omega)]
      · simp [fillPages, hi]
    have hfree : freePages first k (fillPages true first k pages) = .ok pages := by
      rw [freePages_ok (fun j hj => if_pos (by omega)), hback]
    have hpage : freePage (fillPages true first (k + 1) pages) (first + k) =
        .ok (fillPages true first k pages) := by
      have hpresent : fillPages true first (k + 1) pages (first + k) = true := if_pos (by omega)
      rw [freePage, if_pos hpresent]
      refine congrArg ok ?_
      funext i
      by_cases hi : i = first + k
      · simp [hi, fillPages, hpages k (by omega)]
      · grind [fillPages, update_apply]
    have habsent : fillPages true first k pages (first + k) = false := by
      rw [fillPages, if_neg (by omega)]
      exact hpages k (by omega)
    rw [allocPages, if_neg (by simp [habsent]), hset]
    cases step k with
    | done =>
      obtain ⟨mapped, hmapped⟩ := ih (k := k + 1) (fun j hj => hpages j (by omega))
      refine ⟨mapped, hmapped.trans ?_⟩
      rw [add_right_comm k 1 n, add_assoc k n 1]
    | allocPageFailed => exact ⟨false, by simp [hfree, Except.map]⟩
    | mapKernelFailed | vmInsertPageFailed =>
      exact ⟨false, by simp [hpage, hfree, Except.map, bind, Except.bind]⟩

namespace BufferArea

variable {stop start : ℕ}

/-- The address of a page of the area. -/
def pageAddr (p : BufferArea) (i : ℕ) : ℕ := p.buffer + i * 4096

/-- Set the presence of the pages from `start` up to `stop`. -/
def setPages (p : BufferArea) (start stop : ℕ) (v : Bool) : BufferArea :=
  { p with pages := fun i => if start ≤ p.pageAddr i ∧ p.pageAddr i < stop then v else p.pages i }

theorem setPages_of_le (h : stop ≤ start) (v : Bool) : p.setPages start stop v = p := by
  have hpages : (fun i => if start ≤ p.pageAddr i ∧ p.pageAddr i < stop then v else p.pages i) =
      p.pages := by
    funext i
    exact if_neg (by omega)
  rw [setPages, hpages]

theorem setPages_false_iff {i : ℕ} : (p.setPages start stop false).pages i = true ↔
      p.pages i = true ∧ ¬ (start ≤ p.pageAddr i ∧ p.pageAddr i < stop) := by
  by_cases hin : start ≤ p.pageAddr i ∧ p.pageAddr i < stop
  · simp [setPages, hin]
  · simp only [setPages, hin, if_false, not_false_eq_true, and_true]

theorem setPages_true_iff {i : ℕ} : (p.setPages start stop true).pages i = true ↔
      p.pages i = true ∨ start ≤ p.pageAddr i ∧ p.pageAddr i < stop := by
  by_cases hin : start ≤ p.pageAddr i ∧ p.pageAddr i < stop <;> simp [setPages, hin]

theorem fillPages_eq (v : Bool) (hbuffer : p.buffer % 4096 = 0) (hstart : start % 4096 = 0)
    (hstop : stop % 4096 = 0) (hle : p.buffer ≤ start) (hlt : start < stop) :
    fillPages v ((start - p.buffer) / pageSize) ((stop - start) / pageSize) p.pages =
      (p.setPages start stop v).pages := by
  funext i
  simp only [fillPages, setPages, pageAddr, pageSize]
  exact if_congr (by omega) rfl rfl

/-- `binder_update_page_range` with `allocate == 0` on pages that are all present. -/
theorem freePageRange_ok (hbuffer : p.buffer % 4096 = 0) (hstart : start % 4096 = 0)
    (hstop : stop % 4096 = 0) (hle : p.buffer ≤ start)
    (hpages : ∀ i, start ≤ p.pageAddr i → p.pageAddr i < stop → p.pages i = true) :
    p.freePageRange start stop = .ok (p.setPages start stop false) := by
  unfold freePageRange
  split_ifs with hempty
  · rw [setPages_of_le hempty]
  · have hpresent : ∀ k < (stop - start) / pageSize,
        p.pages ((start - p.buffer) / pageSize + k) = true := by
      intro k hk
      simp only [pageSize, pageAddr] at *
      exact hpages _ (by omega) (by omega)
    rw [freePages_ok hpresent, fillPages_eq false hbuffer hstart hstop hle (by omega)]
    rfl

/-- `binder_update_page_range` with `allocate == 1` on pages that are all absent maps all
of them or none. -/
theorem allocatePageRange_ok (faults : PageFaults) (hbuffer : p.buffer % 4096 = 0)
    (hstart : start % 4096 = 0) (hstop : stop % 4096 = 0) (hle : p.buffer ≤ start)
    (hpages : ∀ i, start ≤ p.pageAddr i → p.pageAddr i < stop → p.pages i = false) :
    ∃ mapped, p.allocatePageRange start stop faults =
      .ok (mapped, if mapped then p.setPages start stop true else p) := by
  unfold allocatePageRange
  split_ifs with hempty hvma
  · exact ⟨true, by rw [setPages_of_le hempty, if_pos rfl]⟩
  · exact ⟨false, rfl⟩
  · have habsent : ∀ j < 0 + (stop - start) / pageSize,
        p.pages ((start - p.buffer) / pageSize + j) = false := by
      intro j hj
      simp only [pageSize, pageAddr] at *
      exact hpages _ (by omega) (by omega)
    obtain ⟨mapped, hmapped⟩ := allocPages_ok faults.step habsent
    rw [fillPages_zero, zero_add, fillPages_eq true hbuffer hstart hstop hle (by omega)] at hmapped
    refine ⟨mapped, ?_⟩
    rw [hmapped]
    cases mapped <;> rfl

/-- The address behind the used part of a buffer: its header and, when it is allocated,
its aligned data and offsets. -/
def usedEnd (p : BufferArea) (b : ℕ) : ℕ :=
  b + headerSize + if (p.header b).free then 0
    else totalSize (p.header b).dataSize (p.header b).offsetsSize

/-- Page `i` intersects the used part of a buffer. -/
def Uses (p : BufferArea) (b i : ℕ) : Prop := b < p.pageAddr i + 4096 ∧ p.pageAddr i < p.usedEnd b

/-- The pages that are present are those in use. -/
def Resident (p : BufferArea) : Prop := ∀ i, p.pages i = true ↔ ∃ b ∈ p.buffers, p.Uses b i

/-- Every buffer has room for what it holds, and an allocated one for little more: what
is left over could not hold a header and a word. -/
structure Fits (p : BufferArea) : Prop where
  used_le : ∀ b ∈ p.buffers, p.usedEnd b ≤ p.bufferEnd b
  end_le : ∀ b ∈ p.buffers, (p.header b).free = false → p.bufferEnd b ≤ p.usedEnd b + 44

theorem usedEnd_of_free {b : ℕ} (h : (p.header b).free = true) : p.usedEnd b = b + headerSize := by
  simp [usedEnd, h]

theorem add_headerSize_le_usedEnd (p : BufferArea) (b : ℕ) : b + headerSize ≤ p.usedEnd b :=
  le_add_right _ _

theorem pageAddr_mod (h : p.Tiled) (i : ℕ) : p.pageAddr i % 4096 = 0 := by
  have := h.buffer_aligned
  unfold pageAddr
  omega

end BufferArea

/-- The four page comparisons of `binder_delete_free_buffer` select the pages of a header
that hold neither the end of the previous header nor the start of the next one. -/
theorem freed_page_iff {pr c q : ℕ} {nx : Option ℕ} (hq : q % 4096 = 0)
    (hpr : pr + headerSize ≤ c) (hnx : ∀ n ∈ nx, c + headerSize ≤ n) :
    ((freePageStart pr c nx || freePageEnd pr c nx) = true ∧
      (if freePageStart pr c nx then bufferStartPage c else bufferEndPage c) ≤ q ∧
      q < (if freePageEnd pr c nx then bufferEndPage c else bufferStartPage c) + pageSize) ↔
    (c < q + 4096 ∧ q < c + headerSize) ∧ q ≠ bufferEndPage pr ∧
      ∀ n ∈ nx, q ≠ bufferStartPage n := by
  simp only [bufferStartPage, bufferEndPage, pageMask, headerSize, pageSize, freePageStart,
    freePageEnd] at *
  cases nx with
  | none =>
    simp only [any_none, Bool.not_false, Bool.and_true, Bool.or_eq_true, Bool.not_eq_true',
      beq_eq_false_iff_ne, Bool.and_eq_false_iff, not_mem_none, false_implies,
      implies_true, and_true] at *
    split_ifs <;> omega
  | some n =>
    simp only [any_some, mem_def, Option.some.injEq, forall_eq', Bool.or_eq_true,
      Bool.and_eq_true, Bool.not_eq_true', beq_eq_false_iff_ne, Bool.and_eq_false_iff] at *
    split_ifs <;> omega

namespace BufferArea

variable {b c d i pr : ℕ}

/-- A page that holds part of a header and part of an earlier buffer holds the end of the
previous header, when that one is free. -/
theorem Uses.eq_endPage (ht : p.Tiled) (hf : p.Fits) (hnext : next p.buffers pr = some c)
    (hpr : (p.header pr).free = true) (hd : d ∈ p.buffers) (hlt : d < c) (huse : p.Uses d i)
    (hc : c < p.pageAddr i + 4096) : p.pageAddr i = bufferEndPage pr := by
  have haddr := pageAddr_mod ht i
  have hle := ht.add_headerSize_le hnext
  have hprmem := (mem_of_next hnext).1
  have hbefore : p.pageAddr i < pr + headerSize := by
    have hdend := huse.2
    rcases lt_trichotomy d pr with hdp | rfl | hpd
    · have h1 := ht.end_le_of_lt hd hprmem hdp
      have h2 := hf.used_le d hd
      omega
    · rwa [usedEnd_of_free hpr] at hdend
    · have h1 := ht.end_le_of_lt hprmem hd hpd
      rw [bufferEnd_of_next hnext] at h1
      omega
  simp only [bufferEndPage, pageMask, headerSize] at *
  omega

/-- A page that holds part of a header and part of a later buffer holds the start of the
next header. -/
theorem Uses.eq_startPage (ht : p.Tiled) (hc : c ∈ p.buffers) (hd : d ∈ p.buffers) (hlt : c < d)
    (huse : p.Uses d i) (hheader : p.pageAddr i < c + headerSize) :
    ∃ n ∈ next p.buffers c, p.pageAddr i = bufferStartPage n := by
  have haddr := pageAddr_mod ht i
  have hend := ht.end_le_of_lt hc hd hlt
  cases hnext : next p.buffers c with
  | none =>
    rw [bufferEnd, hnext, getD_none] at hend
    have hbounds := ht.end_bounds hd
    simp only [headerSize] at hbounds
    omega
  | some n =>
    rw [bufferEnd_of_next hnext] at hend
    have hle := ht.add_headerSize_le hnext
    have hstart := huse.1
    refine ⟨n, rfl, ?_⟩
    simp only [bufferStartPage, pageMask, headerSize] at *
    omega

/-- The pages of the header `c` that hold neither the end of the header `pr` nor the start of
the header behind `c`. -/
def OwnPage (p : BufferArea) (pr c i : ℕ) : Prop :=
  (c < p.pageAddr i + 4096 ∧ p.pageAddr i < c + headerSize) ∧ p.pageAddr i ≠ bufferEndPage pr ∧
    ∀ n ∈ next p.buffers c, p.pageAddr i ≠ bufferStartPage n

/-- A header between a free buffer and the rest of the list is removed together with the
pages of its own. -/
theorem Resident.erase (hres : p.Resident) (ht : p.Tiled) (hf : p.Fits)
    (hnext : next p.buffers pr = some c) (hpr : (p.header pr).free = true)
    (hc : (p.header c).free = true)
    (hpages : ∀ i, pages i = true ↔ p.pages i = true ∧ ¬ p.OwnPage pr c i) :
    BufferArea.Resident { p with buffers := p.buffers.erase c, pages := pages } := by
  have hle := ht.add_headerSize_le hnext
  obtain ⟨hprmem, hcmem⟩ := mem_of_next hnext
  intro i
  have haddr := pageAddr_mod ht i
  refine (hpages i).trans ?_
  simp only [ht.tiles.nodup.mem_erase_iff]
  constructor
  · rintro ⟨hpage, hown⟩
    obtain ⟨d, hd, huse⟩ := (hres i).mp hpage
    by_cases hdc : d = c
    · subst hdc
      rw [Uses, usedEnd_of_free hc] at huse
      by_cases hend : p.pageAddr i = bufferEndPage pr
      · refine ⟨pr, ⟨?_, hprmem⟩, ?_⟩
        · simp only [headerSize] at hle
          omega
        · have hlt := p.add_headerSize_le_usedEnd pr
          show p.Uses pr i
          simp only [Uses, bufferEndPage, pageMask, headerSize] at *
          omega
      · have hn : ∃ n ∈ next p.buffers d, p.pageAddr i = bufferStartPage n := by
          by_contra hnone
          exact hown ⟨huse, hend, fun n hn heq => hnone ⟨n, hn, heq⟩⟩
        obtain ⟨n, hn, heq⟩ := hn
        have hlt := ht.add_headerSize_le hn
        have hused := p.add_headerSize_le_usedEnd n
        refine ⟨n, ⟨?_, (mem_of_next hn).2⟩, ?_⟩
        · simp only [headerSize] at hlt
          omega
        · show p.Uses n i
          simp only [Uses, bufferStartPage, pageMask, headerSize] at *
          omega
    · exact ⟨d, ⟨hdc, hd⟩, huse⟩
  · rintro ⟨d, ⟨hdc, hd⟩, huse⟩
    have huse' : p.Uses d i := huse
    refine ⟨(hres i).mpr ⟨d, hd, huse'⟩, ?_⟩
    rintro ⟨⟨hc1, hc2⟩, hend, hstart⟩
    rcases lt_or_gt_of_ne hdc with hlt | hgt
    · exact hend (huse'.eq_endPage ht hf hnext hpr hd hlt hc1)
    · obtain ⟨n, hn, heq⟩ := huse'.eq_startPage ht hcmem hd hgt hc2
      exact hstart n hn heq

/-- `binder_delete_free_buffer` on a free buffer behind a free one: it releases exactly the
pages that nothing else uses. -/
theorem binderDeleteFreeBuffer_ok (ht : p.Tiled) (hf : p.Fits) (hres : p.Resident)
    (hnext : next p.buffers pr = some c) (hpr : (p.header pr).free = true)
    (hc : (p.header c).free = true) :
    ∃ pages, p.binderDeleteFreeBuffer c =
        .ok { p with buffers := p.buffers.erase c, pages := pages } ∧
      BufferArea.Resident { p with buffers := p.buffers.erase c, pages := pages } := by
  have hle := ht.add_headerSize_le hnext
  have hbuffer := ht.buffer_aligned
  have hcmem := (mem_of_next hnext).2
  have hcbound := (ht.tiles.bounds hcmem).1
  have hnx : ∀ n ∈ next p.buffers c, c + headerSize ≤ n := fun n hn => ht.add_headerSize_le hn
  have hiff : ∀ i, _ ↔ p.OwnPage pr c i := fun i => freed_page_iff (pageAddr_mod ht i) hle hnx
  have hpresent : ∀ i, p.OwnPage pr c i → p.pages i = true := by
    intro i hown
    refine (hres i).mpr ⟨c, hcmem, ?_⟩
    rw [Uses, usedEnd_of_free hc]
    exact hown.1
  simp only [binderDeleteFreeBuffer, prev_of_next ht.tiles.nodup hnext, hpr, if_true]
  by_cases hany : (freePageStart pr c (next p.buffers c) ||
      freePageEnd pr c (next p.buffers c)) = true
  · rw [if_pos hany, freePageRange_ok]
    · refine ⟨_, rfl, hres.erase ht hf hnext hpr hc fun i => ?_⟩
      have hrange := (hiff i).symm
      simp only [hany, true_and] at hrange
      rw [hrange]
      exact setPages_false_iff
    · exact hbuffer
    · simp only [bufferStartPage, bufferEndPage, pageMask]
      split_ifs <;> omega
    · simp only [bufferStartPage, bufferEndPage, pageMask, pageSize]
      split_ifs <;> omega
    · simp only [bufferStartPage, bufferEndPage, pageMask, headerSize]
      split_ifs <;> omega
    · intro i h1 h2
      exact hpresent i ((hiff i).mp ⟨hany, h1, h2⟩)
  · rw [if_neg hany]
    refine ⟨p.pages, rfl, hres.erase ht hf hnext hpr hc fun i => ?_⟩
    rw [← hiff i]
    simp [hany]

/-- The page on which a buffer ends, when it ends inside it, holds the next header. -/
theorem Tiled.end_page_used (ht : p.Tiled) (hmask : pageMask (p.bufferEnd b) ≤ p.pageAddr i)
    (hlt : p.pageAddr i < p.bufferEnd b) : ∃ n, next p.buffers b = some n ∧ p.Uses n i := by
  have h1 := ht.buffer_aligned
  have h2 := ht.size_aligned
  have haddr := pageAddr_mod ht i
  cases hnext : next p.buffers b with
  | none =>
    simp only [bufferEnd, hnext, getD_none, pageMask] at hmask hlt
    omega
  | some n =>
    have hused := p.add_headerSize_le_usedEnd n
    rw [bufferEnd_of_next hnext] at hmask hlt
    refine ⟨n, rfl, ?_⟩
    simp only [Uses, pageMask, headerSize] at *
    omega

/-- The whole pages between a header and the end of its buffer are used by no other one. -/
theorem Fits.inner_page_unused (hf : p.Fits) (ht : p.Tiled) (hb : b ∈ p.buffers)
    (hd : d ∈ p.buffers) (hne : d ≠ b) (hstart : b + headerSize ≤ p.pageAddr i)
    (hstop : p.pageAddr i < pageMask (p.bufferEnd b)) : ¬ p.Uses d i := by
  rintro ⟨hd1, hd2⟩
  have haddr := pageAddr_mod ht i
  rcases lt_or_gt_of_ne hne with hlt | hgt
  · have h1 := ht.end_le_of_lt hd hb hlt
    have h2 := hf.used_le d hd
    omega
  · have h1 := ht.end_le_of_lt hb hd hgt
    simp only [pageMask] at hstop
    omega

/-- `PAGE_ALIGN` does not wrap inside the area. -/
theorem Tiled.pageAlign_eq (ht : p.Tiled) {x : ℕ}
    (hx : x ≤ p.buffer + p.bufferSize) : pageAlign x = (x + 4095) / 4096 * 4096 := by
  have h1 := ht.buffer_aligned
  have h2 := ht.size_aligned
  have h3 := ht.stop_lt
  rw [pageAlign, mod_eq_of_lt (by omega)]

section

variable (hres : p.Resident) (ht : p.Tiled) (hf : p.Fits) (hb : b ∈ p.buffers)
include hres ht hf hb

theorem Resident.release_present (hfree : (p.header b).free = false)
    (hstart : pageAlign (b + headerSize) ≤ p.pageAddr i)
    (hstop : p.pageAddr i < pageMask (p.bufferEnd b)) : p.pages i = true := by
  have haddr := pageAddr_mod ht i
  have hbounds := ht.end_bounds hb
  have hslack := hf.end_le b hb hfree
  rw [ht.pageAlign_eq (by omega)] at hstart
  refine (hres i).mpr ⟨b, hb, ?_⟩
  simp only [Uses, pageMask, headerSize] at *
  omega

/-- Releasing the whole pages of a buffer that becomes free keeps the residency. -/
theorem Resident.release {hdr : BufferHeader} (hfree : hdr.free = true)
    (hbuffer : p'.buffer = p.buffer) (hbuffers : p'.buffers = p.buffers)
    (hheader : p'.header = update p.header b hdr)
    (hpages : p'.pages =
      (p.setPages (pageAlign (b + headerSize)) (pageMask (p.bufferEnd b)) false).pages) :
    p'.Resident := by
  have hbounds := ht.end_bounds hb
  have hused : p'.usedEnd b = b + headerSize := usedEnd_of_free (by simp [hheader, hfree])
  have hother : ∀ d, d ≠ b → ∀ i, p'.Uses d i ↔ p.Uses d i := by
    intro d hd i
    simp [Uses, usedEnd, pageAddr, hbuffer, hheader, update_of_ne hd]
  intro i
  have haddr := pageAddr_mod ht i
  have hself : p'.Uses b i ↔ b < p.pageAddr i + 4096 ∧ p.pageAddr i < b + headerSize := by
    simp only [Uses, hused, pageAddr, hbuffer]
  rw [hpages, hbuffers, setPages_false_iff, hres i, ht.pageAlign_eq (by omega)]
  constructor
  · rintro ⟨⟨d, hd, huse⟩, hout⟩
    by_cases hdb : d = b
    · subst hdb
      have hend := hf.used_le d hd
      by_cases hheaderPage : p.pageAddr i < d + headerSize
      · exact ⟨d, hd, hself.mpr ⟨huse.1, hheaderPage⟩⟩
      · have hstop : pageMask (p.bufferEnd d) ≤ p.pageAddr i := by
          by_contra hlt
          exact hout ⟨by omega, by omega⟩
        obtain ⟨n, hnext, hn⟩ := ht.end_page_used hstop (lt_of_lt_of_le huse.2 hend)
        have hlt := ht.add_headerSize_le hnext
        have hnd : n ≠ d := by
          simp only [headerSize] at hlt
          omega
        exact ⟨n, (mem_of_next hnext).2, (hother n hnd i).mpr hn⟩
    · exact ⟨d, hd, (hother d hdb i).mpr huse⟩
  · rintro ⟨d, hd, huse⟩
    by_cases hdb : d = b
    · subst hdb
      have hheaderPage := hself.mp huse
      have hle := p.add_headerSize_le_usedEnd d
      exact ⟨⟨d, hd, hheaderPage.1, by omega⟩, by omega⟩
    · have huse' := (hother d hdb i).mp huse
      refine ⟨⟨d, hd, huse'⟩, ?_⟩
      rintro ⟨hstart, hstop⟩
      exact hf.inner_page_unused ht hb hd hdb (by omega) hstop huse'

theorem Resident.alloc_absent (hfree : (p.header b).free = true)
    (hstart : b + headerSize ≤ p.pageAddr i) (hstop : p.pageAddr i < pageMask (p.bufferEnd b)) :
    p.pages i = false := by
  rw [← Bool.not_eq_true, hres i]
  rintro ⟨d, hd, huse⟩
  by_cases hdb : d = b
  · subst hdb
    rw [Uses, usedEnd_of_free hfree] at huse
    omega
  · exact hf.inner_page_unused ht hb hd hdb hstart hstop huse

end

/-- Mapping the pages from the header of a free buffer up to an address in it makes
resident what the buffer uses below that address. -/
theorem Resident.alloc_iff {x : ℕ} (hres : p.Resident) (ht : p.Tiled) (hb : b ∈ p.buffers)
    (hfree : (p.header b).free = true) (hx : b + headerSize ≤ x) (hend : x ≤ p.bufferEnd b) :
    (p.setPages (pageAlign (b + headerSize)) (min (pageAlign x) (pageMask (p.bufferEnd b)))
      true).pages i = true ↔
    (∃ d ∈ p.buffers, d ≠ b ∧ p.Uses d i) ∨ b < p.pageAddr i + 4096 ∧ p.pageAddr i < x := by
  have haddr := pageAddr_mod ht i
  have hbounds := ht.end_bounds hb
  have huses : p.Uses b i ↔ b < p.pageAddr i + 4096 ∧ p.pageAddr i < b + headerSize := by
    rw [Uses, usedEnd_of_free hfree]
  rw [setPages_true_iff, hres i, ht.pageAlign_eq (by omega), ht.pageAlign_eq (by omega)]
  constructor
  · rintro (⟨d, hd, huse⟩ | ⟨hstart, hstop⟩)
    · by_cases hdb : d = b
      · subst hdb
        have := huses.mp huse
        exact Or.inr ⟨this.1, by omega⟩
      · exact Or.inl ⟨d, hd, hdb, huse⟩
    · exact Or.inr ⟨by omega, by omega⟩
  · rintro (⟨d, hd, -, huse⟩ | ⟨h1, h2⟩)
    · exact Or.inl ⟨d, hd, huse⟩
    · by_cases hheader : p.pageAddr i < b + headerSize
      · exact Or.inl ⟨b, hb, huses.mpr ⟨h1, hheader⟩⟩
      · by_cases hmask : pageMask (p.bufferEnd b) ≤ p.pageAddr i
        · obtain ⟨n, hnext, hn⟩ := ht.end_page_used hmask (by omega)
          exact Or.inl ⟨n, (mem_of_next hnext).2, hn⟩
        · exact Or.inr ⟨by omega, by omega⟩

end BufferArea

end AndroidKernel.Binder
