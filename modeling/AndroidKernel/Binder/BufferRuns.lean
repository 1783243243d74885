import AndroidKernel.Binder.BufferPages
import AndroidKernel.Lib.Except

/-!
# Runs of the buffer allocator

Every allocation and every release of an allocated buffer keeps the tiling, the two
trees and the page residency, and stops at none of the allocator's `BUG`s. By
induction the same holds along every run from the state that `binder_mmap` leaves.
-/

namespace AndroidKernel.Binder

open RbTree LinkedList Function BufferArea

variable {p p' : BufferArea} {exactFit : Bool} (rb : Balance ℕ)

namespace BufferArea

variable {b : ℕ} {a : ℕ} {t : RbTree.Tree ℕ}

/-- All invariants of the allocator, with an exempt buffer as in `BufferArea.Inv`. -/
structure Sound (p : BufferArea) (pend : Option ℕ) : Prop extends
    p.Inv pend, p.Fits where
  resident : p.Resident

/-- `binder_buffer_size` and the end of a buffer depend on its successor only. -/
theorem bufferEnd_congr (hbuffer : p'.buffer = p.buffer) (hsize : p'.bufferSize = p.bufferSize)
    (hnext : next p'.buffers b = next p.buffers b) : p'.bufferEnd b = p.bufferEnd b := by
  simp only [BufferArea.bufferEnd, hbuffer, hsize, hnext]

theorem usedEnd_congr (hheader : p'.header b = p.header b) : p'.usedEnd b = p.usedEnd b := by
  simp only [usedEnd, hheader]

theorem Fits.erase {c : ℕ} (hf : p.Fits) (ht : p.Tiled) (hnext : next p.buffers b = some c)
    (hb : (p.header b).free = true) (hbuffer : p'.buffer = p.buffer)
    (hsize : p'.bufferSize = p.bufferSize) (hbuffers : p'.buffers = p.buffers.erase c)
    (hheader : p'.header = p.header) : p'.Fits := by
  have hnodup := ht.tiles.nodup
  obtain ⟨hbmem, hcmem⟩ := mem_of_next hnext
  have hused : ∀ d, p'.usedEnd d = p.usedEnd d := fun d => usedEnd_congr (by rw [hheader])
  have hother : ∀ d, d ≠ b → d ≠ c → p'.bufferEnd d = p.bufferEnd d := by
    intro d hdb hdc
    apply bufferEnd_congr hbuffer hsize
    rw [hbuffers]
    exact next_erase_of_ne hdc fun he => hdb (next_injective hnodup he hnext)
  have hself : p'.bufferEnd b = p.bufferEnd c := by
    rw [bufferEnd, bufferEnd, hbuffers, next_erase_next hnodup hnext, hbuffer, hsize]
  constructor
  · intro d hd
    rw [hbuffers, hnodup.mem_erase_iff] at hd
    rw [hused]
    by_cases hdb : d = b
    · subst hdb
      have hle := ht.add_headerSize_le hnext
      have hend := ht.end_bounds hcmem
      rw [hself, usedEnd_of_free hb]
      omega
    · rw [hother d hdb hd.1]
      exact hf.used_le d hd.2
  · intro d hd hdfree
    rw [hbuffers, hnodup.mem_erase_iff] at hd
    rw [hheader] at hdfree
    have hdb : d ≠ b := by
      rintro rfl
      rw [hb] at hdfree
      cases hdfree
    rw [hused, hother d hdb hd.1]
    exact hf.end_le d hd.2 hdfree

/-- The buffer list after the first coalescing step. -/
def mergedNext (p : BufferArea) (a : ℕ) : List ℕ :=
  match next p.buffers a with
  | some c => if (p.header c).free then p.buffers.erase c else p.buffers
  | none => p.buffers

/-- The first coalescing step leaves the exempt buffer in front of no free one. -/
theorem Sound.mergeNext (h : p.Sound (some a)) (ha : a ∈ p.buffers)
    (hfree : (p.header a).free = true) :
    ∃ t pages, p.mergeNext rb a =
        .ok { p with buffers := p.mergedNext a, freeBuffers := t, pages := pages } ∧
      BufferArea.Sound { p with buffers := p.mergedNext a, freeBuffers := t, pages := pages }
        (some a) ∧
      a ∈ p.mergedNext a ∧ ∀ c, next (p.mergedNext a) a = some c → (p.header c).free = false := by
  cases hnext : next p.buffers a with
  | none =>
    simp only [BufferArea.mergeNext, mergedNext, hnext]
    exact ⟨p.freeBuffers, p.pages, rfl, h, ha, by simp⟩
  | some nx =>
    have hlt := h.add_headerSize_le hnext
    simp only [headerSize] at hlt
    by_cases hnx : (p.header nx).free = true
    · simp only [BufferArea.mergeNext, mergedNext, hnext, hnx, if_true]
      let q : BufferArea := { p with freeBuffers := rb.erase p.freeBuffers nx }
      have htiled : q.Tiled := h.toTiled.congr rfl rfl h.tiles
      have hfits : q.Fits := ⟨h.used_le, h.end_le⟩
      have hres : q.Resident := h.resident
      obtain ⟨pages, hdelete, hres'⟩ := binderDeleteFreeBuffer_ok htiled hfits hres hnext hfree hnx
      refine ⟨rb.erase p.freeBuffers nx, pages, hdelete, ⟨?_, ?_, hres'⟩, ?_, ?_⟩
      · exact h.merge hnext hfree hnx (Or.inl ⟨rfl, rfl⟩) rfl rfl rfl rfl
          (rb.inorder_erase _ _) rfl
      · exact h.toFits.erase h.toTiled hnext hfree rfl rfl rfl rfl
      · rw [h.tiles.nodup.mem_erase_iff]
        exact ⟨by omega, ha⟩
      · intro c hc
        rw [next_erase_next h.tiles.nodup hnext] at hc
        have hlt' := h.add_headerSize_le hc
        by_contra hcfree
        rw [Bool.not_eq_false] at hcfree
        rcases h.separated nx c hc hnx hcfree with he | he <;> cases he <;> omega
    · simp only [BufferArea.mergeNext, mergedNext, hnext, hnx]
      refine ⟨p.freeBuffers, p.pages, rfl, h, ha, ?_⟩
      intro c hc
      cases hnext.symm.trans hc
      simpa using hnx

/-- The buffer that the second coalescing step leaves to be inserted. -/
def mergedBuffer (p : BufferArea) (a : ℕ) : ℕ :=
  match prev p.buffers a with
  | some pr => if (p.header pr).free then pr else a
  | none => a

/-- The buffer list after the second coalescing step. -/
def mergedPrev (p : BufferArea) (a : ℕ) : List ℕ :=
  match prev p.buffers a with
  | some pr => if (p.header pr).free then p.buffers.erase a else p.buffers
  | none => p.buffers

theorem Sound.mergePrev (h : p.Sound (some a)) (ha : a ∈ p.buffers)
    (hfree : (p.header a).free = true)
    (hnext : ∀ c, next p.buffers a = some c → (p.header c).free = false) :
    ∃ t pages, p.mergePrev rb a = .ok (p.mergedBuffer a,
        { p with buffers := p.mergedPrev a, freeBuffers := t, pages := pages }) ∧
      BufferArea.Sound { p with buffers := p.mergedPrev a, freeBuffers := t, pages := pages }
        (some (p.mergedBuffer a)) ∧
      p.mergedBuffer a ∈ p.mergedPrev a ∧ (p.header (p.mergedBuffer a)).free = true ∧
      (∀ c, next (p.mergedPrev a) (p.mergedBuffer a) = some c → (p.header c).free = false) ∧
      ∀ c, next (p.mergedPrev a) c = some (p.mergedBuffer a) → (p.header c).free = false := by
  have hnodup := h.tiles.nodup
  cases hprev : prev p.buffers a with
  | none =>
    simp only [BufferArea.mergePrev, mergedBuffer, mergedPrev, hprev]
    refine ⟨p.freeBuffers, p.pages, rfl, h, ha, hfree, hnext, ?_⟩
    intro c hc
    rw [prev_of_next hnodup hc] at hprev
    cases hprev
  | some pr =>
    have hpa := next_of_prev hnodup hprev
    have hlt := h.add_headerSize_le hpa
    simp only [headerSize] at hlt
    by_cases hpr : (p.header pr).free = true
    · simp only [BufferArea.mergePrev, mergedBuffer, mergedPrev, hprev, hpr, if_true]
      obtain ⟨pages, hdelete, hres⟩ :=
        binderDeleteFreeBuffer_ok h.toTiled h.toFits h.resident hpa hpr hfree
      refine ⟨rb.erase p.freeBuffers pr, pages, ?_, ⟨?_, ?_, hres⟩, ?_, trivial, ?_, ?_⟩
      · rw [hdelete]
        rfl
      · exact h.merge hpa hpr hfree (Or.inr ⟨rfl, rfl⟩) rfl rfl rfl rfl
          (rb.inorder_erase _ _) rfl
      · exact h.toFits.erase h.toTiled hpa hpr rfl rfl rfl rfl
      · rw [hnodup.mem_erase_iff]
        exact ⟨by omega, (mem_of_next hpa).1⟩
      · intro c hc
        rw [next_erase_next hnodup hpa] at hc
        exact hnext c hc
      · intro c hc
        rw [next_erase_iff hnodup hpa] at hc
        rcases hc with ⟨rfl, hc⟩ | ⟨-, hca, hc⟩
        · have hlt' := h.add_headerSize_le hc
          simp only [headerSize] at hlt'
          omega
        · by_contra hcfree
          rw [Bool.not_eq_false] at hcfree
          rcases h.separated c pr hc hcfree hpr with he | he <;> cases he
          · exact hca rfl
          · omega
    · simp only [BufferArea.mergePrev, mergedBuffer, mergedPrev, hprev, hpr]
      refine ⟨p.freeBuffers, p.pages, rfl, h, ha, hfree, hnext, ?_⟩
      intro c hc
      cases hprev.symm.trans (prev_of_next hnodup hc)
      simpa using hpr

/-- `free_async_space` after a buffer is released. -/
def freedAsyncSpace (p : BufferArea) (b : ℕ) : ℕ :=
  if (p.header b).asyncTransaction then
    (p.freeAsyncSpace + (totalSize (p.header b).dataSize (p.header b).offsetsSize + headerSize))
      % 2 ^ 32
  else p.freeAsyncSpace

/-- The headers after a buffer is released. -/
def freedHeader (p : BufferArea) (b : ℕ) : ℕ → BufferHeader :=
  update p.header b { p.header b with free := true }

/-- Turning an allocated buffer into a free one leaves it to be merged and inserted. -/
theorem Sound.releaseBuffer (h : p.Sound none) (hb : b ∈ p.allocatedBuffers.inorder) :
    ∃ pages, p.releaseBuffer rb b = .ok { p with
        header := p.freedHeader b, allocatedBuffers := rb.erase p.allocatedBuffers b,
        freeAsyncSpace := p.freedAsyncSpace b, pages := pages } ∧
      Sound { p with
        header := p.freedHeader b, allocatedBuffers := rb.erase p.allocatedBuffers b,
        freeAsyncSpace := p.freedAsyncSpace b, pages := pages } (some b) := by
  obtain ⟨hmem, hfree, -⟩ := (h.allocated_mem b).mp hb
  have hbounds := h.end_bounds hmem
  have hbuffer := h.buffer_aligned
  have hstart := (h.tiles.bounds hmem).1
  have hnotMem : b ∉ p.freeBuffers.inorder := by
    intro hm
    rw [((h.free_mem b).mp hm).2.1] at hfree
    cases hfree
  have hflag : ∀ c, c ≠ b → (p.freedHeader b c) = p.header c := fun c hc => update_of_ne hc _ _
  let q : BufferArea := { p with freeAsyncSpace := p.freedAsyncSpace b }
  have hrange : q.freePageRange (pageAlign (b + headerSize)) (pageMask (p.bufferEnd b)) =
      .ok (q.setPages (pageAlign (b + headerSize)) (pageMask (p.bufferEnd b)) false) := by
    have halign := h.pageAlign_eq (show b + headerSize ≤ p.buffer + p.bufferSize by omega)
    apply freePageRange_ok
    · exact hbuffer
    · omega
    · simp only [pageMask]
      omega
    · show p.buffer ≤ _
      omega
    · intro i h1 h2
      exact h.resident.release_present h.toTiled h.toFits hmem hfree h1 h2
  refine ⟨(q.setPages (pageAlign (b + headerSize)) (pageMask (p.bufferEnd b)) false).pages,
    ?_, ⟨?_, ⟨?_, ?_⟩, ?_⟩⟩
  · simp only [BufferArea.releaseBuffer, h.size_eq hmem]
    exact congrArg (· >>= _) hrange
  · refine h.detach ⟨rfl, rfl, rfl⟩ (fun c hc => congrArg BufferHeader.free (hflag c hc)) ?_
      (rb.inorder_erase _ _)
    rw [List.erase_of_not_mem hnotMem]
  · intro c hc
    by_cases hcb : c = b
    · subst hcb
      rw [usedEnd_of_free (by simp [freedHeader])]
      exact hbounds.1
    · rw [usedEnd_congr (hflag c hcb)]
      exact h.used_le c hc
  · intro c hc hcfree
    by_cases hcb : c = b
    · subst hcb
      simp [freedHeader] at hcfree
    · rw [usedEnd_congr (hflag c hcb)]
      exact h.end_le c hc (by rw [← hflag c hcb]; exact hcfree)
  · exact h.resident.release h.toTiled h.toFits hmem rfl rfl rfl rfl rfl

/-- The buffer list after a buffer is released and merged with its neighbours. -/
def freedList (p : BufferArea) (b : ℕ) : List ℕ :=
  let p := { p with header := p.freedHeader b }
  mergedPrev { p with buffers := p.mergedNext b } b

/-- `binder_free_buf` succeeds on every allocated buffer and keeps all invariants. -/
theorem Sound.binderFreeBuf (h : p.Sound none) (hb : b ∈ p.allocatedBuffers.inorder) :
    ∃ t pages, p.binderFreeBuf rb b = .ok { p with
        buffers := p.freedList b, header := p.freedHeader b, freeBuffers := t,
        allocatedBuffers := rb.erase p.allocatedBuffers b,
        freeAsyncSpace := p.freedAsyncSpace b, pages := pages } ∧
      BufferArea.Sound { p with
        buffers := p.freedList b, header := p.freedHeader b, freeBuffers := t,
        allocatedBuffers := rb.erase p.allocatedBuffers b,
        freeAsyncSpace := p.freedAsyncSpace b, pages := pages } none := by
  obtain ⟨hmem, hfree, -⟩ := (h.allocated_mem b).mp hb
  have hbounds := h.end_bounds hmem
  have hused := h.used_le b hmem
  have hsize := h.size_eq hmem
  have hstart := (h.tiles.bounds hmem).1
  have hcheck : ¬ ((p.header b).free ∨ totalSize (p.header b).dataSize (p.header b).offsetsSize >
      p.binderBufferSize b ∨ b < p.buffer ∨ b > p.buffer + p.bufferSize) := by
    simp only [usedEnd, hfree, Bool.false_eq_true, if_false, false_or] at hused ⊢
    simp only [headerSize] at *
    omega
  have hfreed : (p.freedHeader b b).free = true := by simp [freedHeader]
  obtain ⟨pages₁, hrelease, hsound₁⟩ := h.releaseBuffer rb hb
  obtain ⟨t₂, pages₂, hnext, hsound₂, hmem₂, hnextFree⟩ := hsound₁.mergeNext rb hmem hfreed
  obtain ⟨t₃, pages₃, hprev, hsound₃, hmem₃, hfree₃, hnextFree₃, hprevFree₃⟩ :=
    hsound₂.mergePrev rb hmem₂ hfreed hnextFree
  obtain ⟨t₄, hinsert, hinv⟩ := hsound₃.toInv.insert_free rb hmem₃ hfree₃ hnextFree₃ hprevFree₃
  refine ⟨t₄, pages₃, ?_, hinv, ⟨hsound₃.used_le, hsound₃.end_le⟩, hsound₃.resident⟩
  simp only [BufferArea.binderFreeBuf, if_neg hcheck, hrelease, bind, Except.bind, hnext, hprev]
  exact hinsert

/-- The buffer list after `size` bytes were taken from the buffer `b`. -/
def takenList (p : BufferArea) (b size : ℕ) (split : Bool) : List ℕ :=
  if split then insertAfter b (b + headerSize + size) p.buffers else p.buffers

/-- The headers after `size` bytes were taken from the buffer `b`. -/
def takenHeader (p : BufferArea) (b size : ℕ) (split : Bool) : ℕ → BufferHeader :=
  let header := update p.header b { p.header b with free := false }
  let new := b + headerSize + size
  if split then update header new { header new with free := true } else header

/-- Splitting an allocated buffer that no free one follows: the remainder goes into the
free tree. -/
theorem Inv.split_insert {new : ℕ} (h : p.Inv none) (hb : b ∈ p.buffers)
    (hfree : (p.header b).free = false)
    (hnext : ∀ c, next p.buffers b = some c → (p.header c).free = false)
    (hstart : b + headerSize ≤ new) (hend : new + headerSize ≤ p.bufferEnd b) :
    ∃ t, BufferArea.binderInsertFreeBuffer rb { p with
        buffers := insertAfter b new p.buffers
        header := update p.header new { p.header new with free := true } } new =
      .ok { p with
        buffers := insertAfter b new p.buffers
        header := update p.header new { p.header new with free := true }
        freeBuffers := t } ∧
      BufferArea.Inv { p with
        buffers := insertAfter b new p.buffers
        header := update p.header new { p.header new with free := true }
        freeBuffers := t } none := by
  have hne : b ≠ new := by
    simp only [headerSize] at hstart
    omega
  have hnew : new ∉ p.buffers := by
    intro hm
    have hle := h.end_le_of_lt hb hm (by omega)
    simp only [headerSize] at hend
    omega
  have hother : ∀ c, c ≠ new →
      update p.header new { p.header new with free := true } c = p.header c :=
    fun c hc => update_of_ne hc _ _
  have hsplit : BufferArea.Inv { p with
      buffers := insertAfter b new p.buffers
      header := update p.header new { p.header new with free := true } } (some new) :=
    h.split hb hfree hstart hend rfl rfl rfl
      (fun c hc => congrArg BufferHeader.free (hother c hc)) rfl rfl
  apply hsplit.insert_free rb
  · exact (mem_insertAfter hb).mpr (Or.inl rfl)
  · simp
  · intro c hc
    dsimp only at hc ⊢
    rw [next_insertAfter_new hb hnew] at hc
    rw [hother c fun he => hnew (he ▸ (mem_of_next hc).2)]
    exact hnext c hc
  · intro c hc
    have hcb : c = b := next_injective hsplit.tiles.nodup hc (next_insertAfter_self hb)
    dsimp only
    rw [hcb, hother b hne]
    exact hfree

/-- Taking a buffer from the free tree, with or without a remainder, keeps the tiling. -/
theorem Inv.takeBuffer {size : ℕ} {split : Bool} (h : p.Inv none) (hb : b ∈ p.freeBuffers.inorder)
    (hroom : split = true → b + headerSize + size + headerSize ≤ p.bufferEnd b) :
    ∃ t t', p.takeBuffer rb b size split = .ok { p with
        buffers := p.takenList b size split, header := p.takenHeader b size split,
        freeBuffers := t, allocatedBuffers := t' } ∧
      BufferArea.Inv { p with
        buffers := p.takenList b size split, header := p.takenHeader b size split,
        freeBuffers := t, allocatedBuffers := t' } none := by
  obtain ⟨hmem, hfree, -⟩ := (h.free_mem b).mp hb
  have hnotMem : b ∉ p.allocatedBuffers.inorder := by
    intro hm
    rw [((h.allocated_mem b).mp hm).2.1] at hfree
    cases hfree
  let q : BufferArea := { p with
    freeBuffers := rb.erase p.freeBuffers b
    header := update p.header b { p.header b with free := false } }
  have hother : ∀ c, c ≠ b → q.header c = p.header c := fun c hc => update_of_ne hc _ _
  have hq : q.Inv (some b) := by
    refine h.detach ⟨rfl, rfl, rfl⟩ (fun c hc => congrArg BufferHeader.free (hother c hc))
      (rb.inorder_erase _ _) ?_
    rw [List.erase_of_not_mem hnotMem]
  have hbfree : (q.header b).free = false := by simp [q]
  obtain ⟨t', hinsert, hinv⟩ := hq.insert_allocated rb hmem hbfree
  cases split with
  | false =>
    refine ⟨rb.erase p.freeBuffers b, t', ?_, hinv⟩
    exact congrArg (· >>= _) hinsert
  | true =>
    have hnext : ∀ c, next p.buffers b = some c → (q.header c).free = false := by
      intro c hc
      have hlt := h.add_headerSize_le hc
      simp only [headerSize] at hlt
      rw [hother c (by omega)]
      by_contra hcfree
      rw [Bool.not_eq_false] at hcfree
      rcases h.separated b c hc hfree hcfree with he | he <;> cases he
    obtain ⟨t, hinsert', hinv'⟩ :=
      hinv.split_insert rb hmem hbfree hnext (Nat.le_add_right _ size) (hroom rfl)
    refine ⟨t, t', ?_, hinv'⟩
    exact (congrArg (· >>= _) hinsert).trans hinsert'

/-- What the best-fit descent has found in the buffers `l`, when `best` was found before. -/
inductive BestFit (p : BufferArea) (size : ℕ) (l : List ℕ) (best : Option ℕ) :
    Option ℕ → Bool → Prop where
  | missed (hall : ∀ c ∈ l, p.binderBufferSize c < size) : BestFit p size l best best false
  | exactly (b : ℕ) (hb : b ∈ l) (hsize : p.binderBufferSize b = size) :
    BestFit p size l best (some b) true
  | larger (b : ℕ) (hb : b ∈ l) (hsize : size < p.binderBufferSize b)
    (hleast : ∀ c ∈ l, size ≤ p.binderBufferSize c → p.binderBufferSize b ≤ p.binderBufferSize c) :
    BestFit p size l best (some b) false

/-- In a tree of free buffers ordered by size the descent finds the smallest one that is
large enough. -/
theorem bestFit_ok (size : ℕ) (best : Option ℕ) (hfree : ∀ b ∈ t.inorder, (p.header b).free = true)
    (hsorted : Sorted p.binderBufferSize t.inorder) :
    ∃ r exactFit, p.bestFit size t best = .ok (r, exactFit) ∧
      BestFit p size t.inorder best r exactFit := by
  induction t generalizing best with
  | nil => exact ⟨best, false, rfl, .missed (by simp [Tree.inorder])⟩
  | node red left b right ihl ihr =>
    simp only [Tree.inorder, Sorted, List.pairwise_append, List.pairwise_cons] at hsorted
    obtain ⟨hl, ⟨hb, hr⟩, hcross⟩ := hsorted
    have hlb : ∀ c ∈ left.inorder, p.binderBufferSize c ≤ p.binderBufferSize b :=
      fun c hc => hcross c hc b List.mem_cons_self
    have hmem : ∀ c, c ∈ (RbTree.Tree.node red left b right).inorder ↔
        c ∈ left.inorder ∨ c = b ∨ c ∈ right.inorder := by
      simp [Tree.inorder]
    have hbfree := hfree b ((hmem b).mpr (by simp))
    simp only [bestFit, hbfree, if_true]
    split_ifs with hlt hgt
    · obtain ⟨r, exactFit, hfit, hspec⟩ :=
        ihl (some b) (fun c hc => hfree c ((hmem c).mpr (Or.inl hc))) hl
      refine ⟨r, exactFit, hfit, ?_⟩
      cases hspec with
      | missed hall => exact .larger b ((hmem b).mpr (by simp)) hlt (by grind)
      | exactly c hc hsize => exact .exactly c ((hmem c).mpr (Or.inl hc)) hsize
      | larger c hc hsize hleast =>
        refine .larger c ((hmem c).mpr (Or.inl hc)) hsize fun d hd hd' => ?_
        have hcb := hlb c hc
        rcases (hmem d).mp hd with hd | rfl | hd
        · exact hleast d hd hd'
        · exact hcb
        · exact hcb.trans (hb d hd)
    · obtain ⟨r, exactFit, hfit, hspec⟩ :=
        ihr best (fun c hc => hfree c ((hmem c).mpr (Or.inr (Or.inr hc)))) hr
      refine ⟨r, exactFit, hfit, ?_⟩
      cases hspec with
      | missed hall => exact .missed (by grind)
      | exactly c hc hsize => exact .exactly c ((hmem c).mpr (Or.inr (Or.inr hc))) hsize
      | larger c hc hsize hleast =>
        exact .larger c ((hmem c).mpr (Or.inr (Or.inr hc))) hsize (by grind)
    · exact ⟨some b, true, rfl, .exactly b ((hmem b).mpr (by simp)) (by omega)⟩

/-- `binder_buffer_lookup` finds exactly the allocated buffers. -/
theorem lookupIn_ok (kernPtr : ℕ) (hfree : ∀ b ∈ t.inorder, (p.header b).free = false)
    (hsorted : t.inorder.Pairwise (· < ·)) :
    p.lookupIn kernPtr t = .ok (if kernPtr ∈ t.inorder then some kernPtr else none) := by
  induction t with
  | nil => rfl
  | node red left b right ihl ihr =>
    simp only [Tree.inorder, List.pairwise_append, List.pairwise_cons] at hsorted
    obtain ⟨hl, ⟨hb, hr⟩, hcross⟩ := hsorted
    have hlb : ∀ c ∈ left.inorder, c < b := fun c hc => hcross c hc b List.mem_cons_self
    have hmem : ∀ c, c ∈ (RbTree.Tree.node red left b right).inorder ↔
        c ∈ left.inorder ∨ c = b ∨ c ∈ right.inorder := by
      simp [Tree.inorder]
    have hbfree := hfree b ((hmem b).mpr (by simp))
    have hleft := ihl (fun c hc => hfree c ((hmem c).mpr (Or.inl hc))) hl
    have hright := ihr (fun c hc => hfree c ((hmem c).mpr (Or.inr (Or.inr hc)))) hr
    simp only [lookupIn, hbfree, Bool.false_eq_true, if_false, hmem]
    rcases Nat.lt_trichotomy kernPtr b with hlt | rfl | hgt
    · rw [if_pos hlt, hleft]
      exact congrArg Except.ok (if_congr (by grind) rfl rfl)
    · simp
    · rw [if_neg (by omega), if_pos hgt, hright]
      exact congrArg Except.ok (if_congr (by grind) rfl rfl)

theorem Inv.lookup_ok (h : p.Inv none) (kernPtr : ℕ) : p.binderBufferLookup kernPtr =
      .ok (if kernPtr ∈ p.allocatedBuffers.inorder then some kernPtr else none) :=
  lookupIn_ok kernPtr (fun b hb => ((h.allocated_mem b).mp hb).2.1) h.allocated_sorted

/-- The state after a successful allocation. -/
def allocated (p : BufferArea) (b dataSize offsetsSize : ℕ) (isAsync split : Bool)
    (t t' : RbTree.Tree ℕ) (pages : ℕ → Bool) : BufferArea :=
  recordSizes { p with
    buffers := p.takenList b (totalSize dataSize offsetsSize) split
    header := p.takenHeader b (totalSize dataSize offsetsSize) split
    freeBuffers := t
    allocatedBuffers := t'
    pages := pages } b dataSize offsetsSize isAsync

/-- The results of `binder_alloc_buf`. -/
inductive AllocSpec (p : BufferArea) (dataSize offsetsSize : ℕ) (isAsync : Bool) :
    Option ℕ → BufferArea → Prop where
  | failed : AllocSpec p dataSize offsetsSize isAsync none p
  | taken (b : ℕ) (split : Bool) (t t' : RbTree.Tree ℕ) (pages : ℕ → Bool)
    (hb : b ∈ p.freeBuffers.inorder)
    (hroom : split = true →
      b + headerSize + totalSize dataSize offsetsSize + headerSize ≤ p.bufferEnd b) :
    AllocSpec p dataSize offsetsSize isAsync (some b)
      (p.allocated b dataSize offsetsSize isAsync split t t' pages)

section Allocated

variable {b dataSize offsetsSize : ℕ} {isAsync split : Bool} {t t' : RbTree.Tree ℕ}
  {pages : ℕ → Bool} {d size : ℕ}

theorem allocated_header_self :
    (p.allocated b dataSize offsetsSize isAsync split t t' pages).header b =
      ⟨false, isAsync, dataSize, offsetsSize⟩ := by
  have hne : b ≠ b + headerSize + totalSize dataSize offsetsSize := by
    simp only [headerSize]
    omega
  cases split <;> simp [allocated, recordSizes, takenHeader, update_of_ne hne]

theorem allocated_header_new :
    ((p.allocated b dataSize offsetsSize isAsync true t t' pages).header
      (b + headerSize + totalSize dataSize offsetsSize)).free = true := by
  have hne : b + headerSize + totalSize dataSize offsetsSize ≠ b := by
    simp only [headerSize]
    omega
  simp [allocated, recordSizes, takenHeader, update_of_ne hne]

theorem allocated_header_other (hdb : d ≠ b)
    (hnew : split = true → d ≠ b + headerSize + totalSize dataSize offsetsSize) :
    (p.allocated b dataSize offsetsSize isAsync split t t' pages).header d = p.header d := by
  cases split with
  | false => simp [allocated, recordSizes, takenHeader, update_of_ne hdb]
  | true => simp [allocated, recordSizes, takenHeader, update_of_ne hdb, update_of_ne (hnew rfl)]

theorem allocated_usedEnd_self :
    (p.allocated b dataSize offsetsSize isAsync split t t' pages).usedEnd b =
      b + headerSize + totalSize dataSize offsetsSize := by
  simp [usedEnd, allocated_header_self]

theorem mem_takenList (hb : b ∈ p.buffers) :
    d ∈ p.takenList b size split ↔ d ∈ p.buffers ∨ split = true ∧ d = b + headerSize + size := by
  cases split with
  | false => simp [takenList]
  | true => simp [takenList, mem_insertAfter hb, or_comm]

theorem Tiled.remainder_notMem (ht : p.Tiled) (hb : b ∈ p.buffers)
    (hroom : b + headerSize + size + headerSize ≤ p.bufferEnd b) :
    b + headerSize + size ∉ p.buffers := by
  intro hm
  have hle := ht.end_le_of_lt hb hm (by simp only [headerSize]; omega)
  simp only [headerSize] at hroom hle
  omega

theorem Fits.allocated (hf : p.Fits) (ht : p.Tiled) (hb : b ∈ p.buffers) (hroom : split = true →
      b + headerSize + totalSize dataSize offsetsSize + headerSize ≤ p.bufferEnd b)
    (hexact : split = false → b + headerSize + totalSize dataSize offsetsSize ≤ p.bufferEnd b ∧
      p.bufferEnd b ≤ b + headerSize + totalSize dataSize offsetsSize + 44) :
    (p.allocated b dataSize offsetsSize isAsync split t t' pages).Fits := by
  set p' := p.allocated b dataSize offsetsSize isAsync split t t' pages with hp'
  have hkeep : ∀ d ∈ p.buffers, d ≠ b →
      p'.header d = p.header d ∧ p'.bufferEnd d = p.bufferEnd d := by
    intro d hd hdb
    cases hs : split with
    | false =>
      subst hs
      exact ⟨allocated_header_other hdb (by simp), rfl⟩
    | true =>
      subst hs
      have hdn : d ≠ b + headerSize + totalSize dataSize offsetsSize := fun he =>
        ht.remainder_notMem hb (hroom rfl) (he ▸ hd)
      exact ⟨allocated_header_other hdb fun _ => hdn,
        bufferEnd_congr rfl rfl (next_insertAfter_of_ne hdb hdn)⟩
  have hend : b + headerSize + totalSize dataSize offsetsSize ≤ p'.bufferEnd b ∧
      p'.bufferEnd b ≤ b + headerSize + totalSize dataSize offsetsSize + 44 := by
    cases hs : split with
    | false =>
      subst hs
      exact hexact rfl
    | true =>
      subst hs
      have hself : p'.bufferEnd b = b + headerSize + totalSize dataSize offsetsSize :=
        bufferEnd_of_next (next_insertAfter_self hb)
      omega
  have hmem : ∀ d ∈ p'.buffers, d ∈ p.buffers ∨
      split = true ∧ d = b + headerSize + totalSize dataSize offsetsSize := fun d hd =>
    (mem_takenList hb).mp hd
  constructor
  · intro d hd
    rcases hmem d hd with hd | ⟨rfl, rfl⟩
    · by_cases hdb : d = b
      · subst hdb
        rw [hp', allocated_usedEnd_self]
        exact hend.1
      · obtain ⟨hheader, hend'⟩ := hkeep d hd hdb
        rw [usedEnd_congr hheader, hend']
        exact hf.used_le d hd
    · have hnotMem := ht.remainder_notMem hb (hroom rfl)
      rw [usedEnd_of_free allocated_header_new, bufferEnd]
      rw [show next p'.buffers _ = _ from next_insertAfter_new hb hnotMem]
      exact hroom rfl
  · intro d hd hdfree
    rcases hmem d hd with hd | ⟨rfl, rfl⟩
    · by_cases hdb : d = b
      · subst hdb
        rw [hp', allocated_usedEnd_self]
        exact hend.2
      · obtain ⟨hheader, hend'⟩ := hkeep d hd hdb
        rw [usedEnd_congr hheader, hend']
        exact hf.end_le d hd (by rw [← hheader]; exact hdfree)
    · rw [allocated_header_new] at hdfree
      cases hdfree

/-- The pages mapped for an allocation are those that the allocation starts to use. -/
theorem Resident.allocated (hres : p.Resident) (ht : p.Tiled) (hb : b ∈ p.buffers)
    (hfree : (p.header b).free = true)
    (hroom : b + headerSize + (totalSize dataSize offsetsSize + if split then headerSize else 0) ≤
      p.bufferEnd b)
    (hpages : pages = (p.setPages (pageAlign (b + headerSize))
      (min (pageAlign (b + headerSize +
        (totalSize dataSize offsetsSize + if split then headerSize else 0)))
        (pageMask (p.bufferEnd b))) true).pages) :
    (p.allocated b dataSize offsetsSize isAsync split t t' pages).Resident := by
  intro i
  have hiff := hres.alloc_iff (i := i) ht hb hfree (Nat.le_add_right _ _) hroom
  refine Iff.trans (by rw [← hpages]; rfl) (hiff.trans ?_)
  set p' := p.allocated b dataSize offsetsSize isAsync split t t' pages with hp'
  have hself : p'.Uses b i ↔ b < p.pageAddr i + 4096 ∧
      p.pageAddr i < b + headerSize + totalSize dataSize offsetsSize := by
    rw [Uses, hp', allocated_usedEnd_self]
    rfl
  have hother : ∀ d ∈ p.buffers, d ≠ b → (p'.Uses d i ↔ p.Uses d i) := by
    intro d hd hdb
    have hheader : p'.header d = p.header d := by
      refine allocated_header_other hdb fun hs he => ?_
      subst hs
      exact ht.remainder_notMem hb (by simpa [Nat.add_assoc] using hroom) (he ▸ hd)
    rw [Uses, usedEnd_congr hheader]
    rfl
  have hnew : split = true → (p'.Uses (b + headerSize + totalSize dataSize offsetsSize) i ↔
      b + headerSize + totalSize dataSize offsetsSize < p.pageAddr i + 4096 ∧
        p.pageAddr i < b + headerSize + totalSize dataSize offsetsSize + headerSize) := by
    rintro rfl
    rw [Uses, usedEnd_of_free allocated_header_new]
    rfl
  simp only [show p'.buffers = p.takenList b _ split from rfl, mem_takenList hb]
  constructor
  · rintro (⟨d, hd, hdb, huse⟩ | ⟨h1, h2⟩)
    · exact ⟨d, Or.inl hd, (hother d hd hdb).mpr huse⟩
    · by_cases hin : p.pageAddr i < b + headerSize + totalSize dataSize offsetsSize
      · exact ⟨b, Or.inl hb, hself.mpr ⟨h1, hin⟩⟩
      · cases hs : split with
        | false => simp [hs] at h2; omega
        | true =>
          refine ⟨_, Or.inr ⟨rfl, rfl⟩, (hnew hs).mpr ⟨by omega, ?_⟩⟩
          simp only [hs, if_true] at h2
          omega
  · rintro ⟨d, hd | ⟨hs, rfl⟩, huse⟩
    · by_cases hdb : d = b
      · subst hdb
        have := hself.mp huse
        exact Or.inr ⟨this.1, by omega⟩
      · exact Or.inl ⟨d, hd, hdb, (hother d hd hdb).mp huse⟩
    · have := (hnew hs).mp huse
      simp only [hs, if_true]
      exact Or.inr ⟨by omega, by omega⟩

/-- Recording the sizes changes no `free` flag. -/
theorem allocated_free (d : ℕ) :
    ((p.allocated b dataSize offsetsSize isAsync split t t' pages).header d).free =
      (p.takenHeader b (totalSize dataSize offsetsSize) split d).free := by
  by_cases hdb : d = b <;> simp [allocated, recordSizes, hdb]

end Allocated

end BufferArea

/-- What is taken from a buffer that is large enough, and whether it is split. -/
theorem takenSize_cases {size bufferSize : ℕ} (hlt : bufferSize + 4096 < 2 ^ 32)
    (hexact : exactFit = true → bufferSize = size)
    (hlarger : exactFit = false → size < bufferSize) :
    takenSize size bufferSize exactFit = size ∧ size ≤ bufferSize ∧ bufferSize ≤ size + 44 ∨
      takenSize size bufferSize exactFit = size + headerSize ∧ size + 44 < bufferSize := by
  unfold takenSize
  cases exactFit with
  | true =>
    have := hexact rfl
    exact Or.inl ⟨by simpa using this, by omega, by omega⟩
  | false =>
    have := hlarger rfl
    simp only [Bool.false_eq_true, if_false]
    by_cases hge : (size + headerSize + 4) % 2 ^ 32 ≥ bufferSize
    · rw [if_pos hge]
      simp only [headerSize] at hge
      exact Or.inl ⟨rfl, by omega, by omega⟩
    · rw [if_neg hge]
      simp only [headerSize] at hge ⊢
      exact Or.inr ⟨by omega, by omega⟩

namespace BufferArea

/-- `binder_alloc_buf` on a free buffer that is large enough. -/
theorem Sound.allocFrom {b dataSize offsetsSize : ℕ} (isAsync : Bool)
    (faults : PageFaults) (h : p.Sound none) (hb : b ∈ p.freeBuffers.inorder)
    (hexact : exactFit = true → p.binderBufferSize b = totalSize dataSize offsetsSize)
    (hlarger : exactFit = false → totalSize dataSize offsetsSize < p.binderBufferSize b) :
    ∃ r p', p.allocFrom rb b exactFit dataSize offsetsSize isAsync faults = .ok (r, p') ∧
      p'.Sound none ∧ p.AllocSpec dataSize offsetsSize isAsync r p' := by
  obtain ⟨hmem, hfree, -⟩ := (h.free_mem b).mp hb
  have hsize := h.size_eq hmem
  have hbounds := h.end_bounds hmem
  have hstart := (h.tiles.bounds hmem).1
  have hbuffer := h.buffer_aligned
  have hlt : p.binderBufferSize b + 4096 < 2 ^ 32 := by
    have h1 := h.size_aligned
    have h2 := h.stop_lt
    simp only [headerSize] at *
    omega
  have hcases := takenSize_cases hlt hexact hlarger
  set size := totalSize dataSize offsetsSize with hsizeDef
  set taken := takenSize size (p.binderBufferSize b) exactFit with htaken
  set split := decide (taken ≠ size) with hsplit
  have htakenEq : taken = size + if split then headerSize else 0 := by
    rcases hcases with ⟨heq, -⟩ | ⟨heq, -⟩ <;> simp [hsplit, heq, headerSize]
  have hroomAll : b + headerSize + taken ≤ p.bufferEnd b := by
    simp only [headerSize] at *
    omega
  have halign := h.pageAlign_eq (show b + headerSize ≤ p.buffer + p.bufferSize by omega)
  have halign' := h.pageAlign_eq (show b + headerSize + taken ≤ p.buffer + p.bufferSize by omega)
  have hstop : min (pageAlign (b + headerSize + taken)) (pageMask (p.bufferEnd b)) % 4096 = 0 := by
    simp only [halign', pageMask]
    omega
  have habsent : ∀ i, pageAlign (b + headerSize) ≤ p.pageAddr i →
      p.pageAddr i < min (pageAlign (b + headerSize + taken)) (pageMask (p.bufferEnd b)) →
      p.pages i = false := by
    intro i h1 h2
    exact h.resident.alloc_absent h.toTiled h.toFits hmem hfree (by omega) (by omega)
  obtain ⟨mapped, hrange⟩ := allocatePageRange_ok faults hbuffer (by omega) hstop (by omega) habsent
  simp only [BufferArea.allocFrom, hsize, ← hsizeDef, ← htaken, hrange]
  cases mapped with
  | false => exact ⟨none, p, rfl, h, .failed⟩
  | true =>
    set pages := (p.setPages (pageAlign (b + headerSize))
      (min (pageAlign (b + headerSize + taken)) (pageMask (p.bufferEnd b))) true).pages
    have hinv : Inv { p with pages := pages } none :=
      h.toInv.congr ⟨rfl, rfl, rfl⟩ (fun _ _ => rfl) rfl rfl
    have hroom : split = true → b + headerSize + size + headerSize ≤ p.bufferEnd b := by
      intro hs
      rw [hs, if_pos rfl] at htakenEq
      omega
    obtain ⟨t, t', htake, hinv'⟩ := hinv.takeBuffer rb hb hroom
    refine ⟨some b, p.allocated b dataSize offsetsSize isAsync split t t' pages, ?_,
      ⟨?_, ?_, ?_⟩, .taken b split t t' pages hb hroom⟩
    · show (takeBuffer rb { p with pages := pages } b size split >>= fun p' =>
        Except.ok (some b, p'.recordSizes b dataSize offsetsSize isAsync)) = _
      rw [htake]
      rfl
    · exact hinv'.congr ⟨rfl, rfl, rfl⟩ (fun d _ => allocated_free d) rfl rfl
    · refine h.toFits.allocated h.toTiled hmem hroom fun hs => ?_
      rw [hs] at htakenEq
      simp only [headerSize, Bool.false_eq_true, if_false] at *
      omega
    · refine h.resident.allocated h.toTiled hmem hfree ?_ ?_
      · rw [← hsizeDef, ← htakenEq]
        exact hroomAll
      · rw [← hsizeDef, ← htakenEq]

/-- `binder_alloc_buf` never stops, keeps all invariants, and changes nothing when it
fails. -/
theorem Sound.binderAllocBuf (h : p.Sound none)
    (dataSize offsetsSize : ℕ) (isAsync : Bool) (faults : PageFaults) :
    ∃ r p', p.binderAllocBuf rb dataSize offsetsSize isAsync faults = .ok (r, p') ∧
      p'.Sound none ∧ p.AllocSpec dataSize offsetsSize isAsync r p' := by
  unfold BufferArea.binderAllocBuf
  dsimp only
  by_cases hvma : p.vma = true
  swap
  · exact ⟨none, p, if_pos hvma, h, .failed⟩
  rw [if_neg (not_not_intro hvma)]
  split_ifs with hsize hasync
  · exact ⟨none, p, rfl, h, .failed⟩
  · exact ⟨none, p, rfl, h, .failed⟩
  · obtain ⟨r, exactFit, hfit, hspec⟩ := bestFit_ok (totalSize dataSize offsetsSize) none
      (fun b hb => ((h.free_mem b).mp hb).2.1) h.free_sorted
    rw [hfit]
    cases hspec with
    | missed _ => exact ⟨none, p, rfl, h, .failed⟩
    | exactly b hb heq => exact h.allocFrom rb isAsync faults hb (fun _ => heq) (by simp)
    | larger b hb hlt _ => exact h.allocFrom rb isAsync faults hb (by simp) (fun _ => hlt)

end BufferArea

/-- The operations on one mapped area. -/
inductive BufferOp where
  | alloc (dataSize offsetsSize : ℕ) (isAsync : Bool) (faults : PageFaults)
  /-- A release through `binder_buffer_lookup`, as in `BC_FREE_BUFFER`. -/
  | free (kernPtr : ℕ)
  /-- `binder_vma_close` -/
  | vmaClose

namespace BufferArea

/-- One operation of the allocator. -/
def step (p : BufferArea) : BufferOp → Except Fault BufferArea
  | .alloc dataSize offsetsSize isAsync faults =>
    (p.binderAllocBuf rb dataSize offsetsSize isAsync faults).map Prod.snd
  | .free kernPtr => do
    match ← p.binderBufferLookup kernPtr with
    | none => .ok p
    | some buffer => p.binderFreeBuf rb buffer
  | .vmaClose => .ok { p with vma := false }

/-- A run of the allocator. -/
def run (p : BufferArea) (ops : List BufferOp) : Except Fault BufferArea := ops.foldlM (step rb) p

theorem Sound.step (h : p.Sound none)
    (op : BufferOp) : ∃ p', p.step rb op = .ok p' ∧ p'.Sound none ∧
      p'.buffer = p.buffer ∧ p'.bufferSize = p.bufferSize := by
  cases op with
  | alloc dataSize offsetsSize isAsync faults =>
    obtain ⟨r, p', halloc, hsound, hspec⟩ := h.binderAllocBuf rb dataSize offsetsSize isAsync faults
    refine ⟨p', by simp [BufferArea.step, halloc, Except.map], hsound, ?_⟩
    cases hspec <;> exact ⟨rfl, rfl⟩
  | free kernPtr =>
    simp only [BufferArea.step, h.lookup_ok]
    by_cases hmem : kernPtr ∈ p.allocatedBuffers.inorder
    · obtain ⟨t, pages, hfree, hsound⟩ := h.binderFreeBuf rb hmem
      rw [if_pos hmem]
      exact ⟨_, hfree, hsound, rfl, rfl⟩
    · rw [if_neg hmem]
      exact ⟨p, rfl, h, rfl, rfl⟩
  | vmaClose =>
    exact ⟨_, rfl, ⟨h.toInv.congr ⟨rfl, rfl, rfl⟩ (fun _ _ => rfl) rfl rfl,
      ⟨h.used_le, h.end_le⟩, h.resident⟩, rfl, rfl⟩

theorem Sound.run (h : p.Sound none)
    (ops : List BufferOp) : ∃ p', p.run rb ops = .ok p' ∧ p'.Sound none ∧
      p'.buffer = p.buffer ∧ p'.bufferSize = p.bufferSize := by
  induction ops generalizing p with
  | nil => exact ⟨p, rfl, h, rfl, rfl⟩
  | cons op ops ih =>
    obtain ⟨p₁, hstep, hsound, hbuffer, hsize⟩ := h.step rb op
    obtain ⟨p₂, hrun, hsound', hbuffer', hsize'⟩ := ih hsound
    refine ⟨p₂, ?_, hsound', hbuffer'.trans hbuffer, hsize'.trans hsize⟩
    rw [run, List.foldlM_cons, hstep]
    exact hrun

/-- One free buffer that spans a freshly mapped area, not yet in the free tree. -/
theorem Sound.single (hbuffer : p.buffer % 4096 = 0)
    (hsize : p.bufferSize % 4096 = 0) (hpos : 0 < p.bufferSize)
    (hstop : p.buffer + p.bufferSize < 2 ^ 32) (hbuffers : p.buffers = [p.buffer])
    (hfree : (p.header p.buffer).free = true) (htree : p.freeBuffers = .nil)
    (htree' : p.allocatedBuffers = .nil) (hpages : ∀ i, p.pages i = true ↔ i = 0) :
    p.Sound (some p.buffer) := by
  have hend : p.bufferEnd p.buffer = p.buffer + p.bufferSize := by simp [bufferEnd, hbuffers]
  refine ⟨⟨⟨hbuffer, hsize, hstop, ?_⟩, ?_, ?_, ?_, ?_, ?_, ?_⟩, ⟨?_, ?_⟩, ?_⟩
  · rw [hbuffers]
    refine ⟨rfl, p.bufferSize - headerSize, ?_⟩
    simp only [Tiles, headerSize]
    omega
  · intro b
    simp only [htree, hbuffers, Tree.inorder, List.not_mem_nil, List.mem_singleton, false_iff]
    rintro ⟨rfl, -, hne⟩
    exact hne rfl
  · simp [htree, Tree.inorder]
  · simp [htree, Tree.inorder, Sorted]
  · intro b
    simp only [htree', hbuffers, Tree.inorder, List.not_mem_nil, List.mem_singleton, false_iff]
    rintro ⟨rfl, -, hne⟩
    exact hne rfl
  · simp [htree', Tree.inorder]
  · simp [hbuffers, next]
  · intro b hb
    obtain rfl : b = p.buffer := by simpa [hbuffers] using hb
    rw [usedEnd_of_free hfree, hend]
    simp only [headerSize]
    omega
  · intro b hb hbfree
    obtain rfl : b = p.buffer := by simpa [hbuffers] using hb
    rw [hfree] at hbfree
    cases hbfree
  · intro i
    simp only [hpages, hbuffers, List.mem_singleton, exists_eq_left, Uses,
      usedEnd_of_free hfree, pageAddr, headerSize]
    omega

end BufferArea

/-- `binder_mmap` either fails or leaves a sound area. -/
theorem binderMmap_ok (area : VmArea) (header : ℕ → BufferHeader) (step : ℕ → PageStep) :
    ∃ r, binderMmap rb area header step = .ok r ∧ ∀ p, r = some p → p.Sound none ∧
      p.buffer = area.addr ∧ p.bufferSize = area.pageCount * pageSize := by
  have haligned := area.addr_aligned
  have hpos := area.pageCount_pos
  have hlt := area.addr_add_lt
  let p := freshArea area header
  have hstop : (area.addr + pageSize) % 4096 = 0 := by
    simp only [pageSize]
    omega
  obtain ⟨mapped, hrange⟩ :=
    p.allocatePageRange_ok ⟨false, step⟩ haligned haligned hstop (Nat.le_refl _)
      (fun _ _ _ => rfl)
  unfold binderMmap
  rw [hrange]
  cases mapped with
  | false => exact ⟨none, rfl, by simp⟩
  | true =>
    let q : BufferArea := { p.setPages area.addr (area.addr + pageSize) true with
      buffers := [area.addr]
      header := update header area.addr { header area.addr with free := true } }
    have hq : q.Sound (some q.buffer) := by
      refine .single haligned ?_ ?_ hlt rfl (by simp [q, p, BufferArea.setPages, freshArea]) rfl rfl
        fun i => ?_
      · exact Nat.mul_mod_left _ _
      · exact Nat.mul_pos hpos (by decide)
      · refine BufferArea.setPages_true_iff.trans ?_
        simp only [p, freshArea, BufferArea.pageAddr, pageSize, Bool.false_eq_true, false_or]
        omega
    obtain ⟨t, hinsert, hinv⟩ := hq.toInv.insert_free rb List.mem_cons_self
      (by simp [q, p, BufferArea.setPages, freshArea]) (by simp [q, next]) (by simp [q, next])
    have hplace : (q.binderInsertFreeBuffer rb q.buffer >>= fun p' =>
        Except.ok (some { p' with freeAsyncSpace := p'.bufferSize / 2, vma := true })) = _ :=
      congrArg (· >>= _) hinsert
    refine ⟨_, hplace, ?_⟩
    rintro p' hp'
    cases hp'
    exact ⟨⟨hinv.congr ⟨rfl, rfl, rfl⟩ (fun _ _ => rfl) rfl rfl, ⟨hq.used_le, hq.end_le⟩,
      hq.resident⟩, rfl, rfl⟩

variable {rb} {area : VmArea} {header : ℕ → BufferHeader} {step : ℕ → PageStep}
  {p₀ : BufferArea}

/-- Every run from `binder_mmap` on succeeds and ends in a sound area. -/
theorem sound_of_binderMmap (hmmap : binderMmap rb area header step = .ok (some p₀))
    (ops : List BufferOp) : ∃ p, p₀.run rb ops = .ok p ∧ p.Sound none ∧
      p.buffer = area.addr ∧ p.bufferSize = area.pageCount * pageSize := by
  obtain ⟨r, hr, hsound⟩ := binderMmap_ok rb area header step
  cases hmmap.symm.trans hr
  obtain ⟨h₀, hbuffer₀, hsize₀⟩ := hsound p₀ rfl
  obtain ⟨p, hrun, h, hbuffer, hsize⟩ := h₀.run rb ops
  exact ⟨p, hrun, h, hbuffer.trans hbuffer₀, hsize.trans hsize₀⟩

/-- Along every run of allocations and releases the buffers are listed by address and tile
the mapped area, the free tree holds the free buffers by size, the allocated tree the other
ones by address, and no two neighbours are both free. -/
theorem buffers_tile_area (hmmap : binderMmap rb area header step = .ok (some p₀))
    (ops : List BufferOp) :
    ∃ p, p₀.run rb ops = .ok p ∧ (p.buffers.head? = some area.addr ∧ p.buffers.Pairwise (· < ·) ∧
        ∀ b ∈ p.buffers, b + headerSize + p.binderBufferSize b =
          (next p.buffers b).getD (area.addr + area.pageCount * pageSize)) ∧
      ((∀ b, b ∈ p.freeBuffers.inorder ↔ b ∈ p.buffers ∧ (p.header b).free = true) ∧
        p.freeBuffers.inorder.Nodup ∧ Sorted p.binderBufferSize p.freeBuffers.inorder) ∧
      ((∀ b, b ∈ p.allocatedBuffers.inorder ↔ b ∈ p.buffers ∧ (p.header b).free = false) ∧
        p.allocatedBuffers.inorder.Pairwise (· < ·)) ∧
      ∀ b c, next p.buffers b = some c →
        ¬ ((p.header b).free = true ∧ (p.header c).free = true) := by
  obtain ⟨p, hrun, h, hbuffer, hsize⟩ := sound_of_binderMmap hmmap ops
  have hpos : 0 < area.pageCount * pageSize := Nat.mul_pos area.pageCount_pos (by decide)
  refine ⟨p, hrun, ⟨?_, h.tiles.pairwise_lt, ?_⟩, ⟨?_, h.free_nodup, h.free_sorted⟩,
    ⟨?_, h.allocated_sorted⟩, ?_⟩
  · have htiles := h.tiles
    cases hlist : p.buffers with
    | nil =>
      rw [hlist] at htiles
      simp only [Tiles] at htiles
      omega
    | cons b l =>
      rw [hlist] at htiles
      rw [List.head?_cons, htiles.1, hbuffer]
  · intro b hb
    rw [h.size_eq hb, BufferArea.bufferEnd, hbuffer, hsize]
  · intro b
    simpa using h.free_mem b
  · intro b
    simpa using h.allocated_mem b
  · rintro b c hnext ⟨hb, hc⟩
    rcases h.separated b c hnext hb hc with he | he <;> cases he

/-- When the first page can be mapped, `binder_mmap` succeeds. -/
theorem binderMmap_done (rb : Balance ℕ) (area : VmArea) (header : ℕ → BufferHeader) :
    ∃ p₀, binderMmap rb area header (fun _ => .done) = .ok (some p₀) := by
  have hlt : ¬ area.addr + pageSize ≤ area.addr := by
    simp only [pageSize]
    omega
  have hone : (area.addr + pageSize - area.addr) / pageSize = 1 := by
    rw [Nat.add_sub_cancel_left]
    rfl
  have hrange : (freshArea area header).allocatePageRange area.addr (area.addr + pageSize)
      ⟨false, fun _ => .done⟩ = .ok (true, { freshArea area header with
        pages := update (fun _ => false) ((area.addr - area.addr) / pageSize) true }) := by
    rw [BufferArea.allocatePageRange, if_neg hlt, if_neg (by simp), hone]
    rfl
  rw [binderMmap, hrange]
  simp [freshArea, BufferArea.binderInsertFreeBuffer, Tree.link, bind, Except.bind]

/-- The area of one page at the address `0x1000`. -/
def onePage : VmArea := ⟨4096, 1, by decide, by decide, by decide, by decide⟩

/-- An allocation that splits the only buffer of an area of one page, and its release. -/
theorem buffers_tile_onePage :
    ∃ p₀, binderMmap (.spine ℕ) onePage (fun _ => ⟨false, false, 0, 0⟩) (fun _ => .done) =
        .ok (some p₀) ∧
      ∃ p, p₀.run (.spine ℕ) [.alloc 16 4 false .none, .free 4096] = .ok p ∧
        p.buffers.head? = some 4096 := by
  obtain ⟨p₀, hp₀⟩ := binderMmap_done (.spine ℕ) onePage (fun _ => ⟨false, false, 0, 0⟩)
  obtain ⟨p, hrun, htile, -⟩ := buffers_tile_area hp₀ [.alloc 16 4 false .none, .free 4096]
  exact ⟨p₀, hp₀, p, hrun, htile.1⟩

/-- Along every run of allocations, with any page allocation or mapping failing, and
releases, a page is present exactly when it intersects a header or the used part of an
allocated buffer; all bytes of headers and of allocated buffers are on present pages. No
page is mapped or released twice, as the run stops at no fault. -/
theorem pages_match_buffers (hmmap : binderMmap rb area header step = .ok (some p₀))
    (ops : List BufferOp) :
    ∃ p, p₀.run rb ops = .ok p ∧
      (∀ i, p.pages i = true ↔ ∃ b ∈ p.buffers, b < p.pageAddr i + pageSize ∧
        p.pageAddr i < b + headerSize + if (p.header b).free then 0
          else totalSize (p.header b).dataSize (p.header b).offsetsSize) ∧
      ∀ b ∈ p.buffers, ∀ x, b ≤ x → (x < b + headerSize ∨
          (p.header b).free = false ∧ x < b + headerSize + p.binderBufferSize b) →
        p.pages ((x - p.buffer) / pageSize) = true := by
  obtain ⟨p, hrun, h, -, -⟩ := sound_of_binderMmap hmmap ops
  refine ⟨p, hrun, h.resident, ?_⟩
  intro b hb x hbx hx
  have hbuffer := (h.tiles.bounds hb).1
  have haligned := h.buffer_aligned
  have hused := p.add_headerSize_le_usedEnd b
  rw [h.size_eq hb] at hx
  rw [h.resident]
  by_cases hin : p.pageAddr ((x - p.buffer) / pageSize) < p.usedEnd b
  · refine ⟨b, hb, ?_, hin⟩
    simp only [pageAddr, pageSize]
    omega
  · obtain ⟨hfree, hend⟩ : (p.header b).free = false ∧ x < p.bufferEnd b := by
      refine hx.resolve_left fun hlt => hin ?_
      simp only [pageAddr, pageSize]
      omega
    have hslack := h.end_le b hb hfree
    simp only [pageAddr, pageSize] at hin
    obtain ⟨n, hnext, huse⟩ := h.end_page_used (b := b) (i := (x - p.buffer) / pageSize)
      (by simp only [pageAddr, pageMask, pageSize]; omega)
      (by simp only [pageAddr, pageSize]; omega)
    exact ⟨n, (mem_of_next hnext).2, huse⟩

/-- The area of four pages at the address `0x1000`. -/
def fourPages : VmArea := ⟨4096, 4, by decide, by decide, by decide, by decide⟩

/-- A run in the area of four pages, and what holds of the area after it. -/
theorem run_fourPages (ops : List BufferOp) (f : BufferArea → Bool)
    (h : (binderMmap (.spine ℕ) fourPages (fun _ => ⟨false, false, 0, 0⟩)
      fun _ => .done).toOption.any fun r =>
        r.any fun p₀ => (p₀.run (.spine ℕ) ops).toOption.any f) :
    ∃ p₀ p, binderMmap (.spine ℕ) fourPages (fun _ => ⟨false, false, 0, 0⟩) (fun _ => .done) =
      .ok (some p₀) ∧ p₀.run (.spine ℕ) ops = .ok p ∧ f p = true := by
  obtain ⟨r, hmmap, hr⟩ := Except.exists_ok h
  obtain ⟨p₀, rfl, hp₀⟩ := Option.any_eq_true _ _ |>.mp hr
  obtain ⟨p, hrun, hp⟩ := Except.exists_ok hp₀
  exact ⟨p₀, p, hmmap, hrun, hp⟩

/-- Two buffers are allocated, and the first one, of 9000 bytes, is released: the page in its middle
is not present any more, and those with the headers are. -/
theorem pages_match_fourPages : ∃ p₀ p,
    binderMmap (.spine ℕ) fourPages (fun _ => ⟨false, false, 0, 0⟩) (fun _ => .done) =
      .ok (some p₀) ∧
    p₀.run (.spine ℕ) [.alloc 9000 0 false .none, .alloc 16 4 false .none, .free 4096] = .ok p ∧
    p.buffers = [4096, 13136, 13196] ∧ p.pages 1 = false ∧
    ∀ b ∈ p.buffers, p.pages ((b - p.buffer) / pageSize) = true := by
  obtain ⟨p₀, p, hp₀, hrun, hp⟩ := run_fourPages
    [.alloc 9000 0 false .none, .alloc 16 4 false .none, .free 4096]
    (fun p => p.buffers == [4096, 13136, 13196] && !p.pages 1) (by decide +kernel)
  obtain ⟨_, hrun', -, hbytes⟩ := pages_match_buffers hp₀ _
  cases hrun.symm.trans hrun'
  simp only [Bool.and_eq_true, beq_iff_eq, Bool.not_eq_true'] at hp
  exact ⟨p₀, p, hp₀, hrun, hp.1, hp.2,
    fun b hb => hbytes b hb b le_rfl (.inl (by simp [headerSize]))⟩

end AndroidKernel.Binder
