import AndroidKernel.Binder.BufferRuns
import Mathlib.Algebra.Order.BigOperators.Group.Finset

/-!
# What an allocation takes and what it is charged

In a sound area `binder_alloc_buf` refuses the sizes whose rounded sum is no 32-bit word, and
serves other ones from a smallest free buffer with room for them. The charges of the allocated
asynchronous buffers and what is left of the budget add up to half of the area.
-/

namespace AndroidKernel.Binder

open RbTree LinkedList Except BufferArea List Finset

/-- The sum of two sizes, each rounded up to whole words, as a number. -/
def alignedSum (dataSize offsetsSize : ℕ) : ℕ := (dataSize + 3) / 4 * 4 + (offsetsSize + 3) / 4 * 4

/-- Every page of a range can be allocated and mapped. -/
def PageFaults.Succeeds (faults : PageFaults) (start stop : ℕ) : Prop :=
  stop ≤ start ∨ faults.noVma = false ∧ ∀ k < (stop - start) / pageSize, faults.step k = .done

theorem allocPages_mapped_iff {step : ℕ → PageStep} {first k n : ℕ} {pages pages' : ℕ → Bool}
    {mapped : Bool} (h : allocPages step first k n pages = .ok (mapped, pages')) :
    mapped = true ↔ ∀ j, k ≤ j → j < k + n → step j = .done := by
  induction n generalizing k pages with
  | zero =>
    cases h
    simp only [true_iff]
    omega
  | succ n ih =>
    rw [allocPages] at h
    split at h
    · cases h
    split at h
    · rename_i hdone
      rw [ih h]
      constructor
      · intro hall j hkj hj
        rcases Nat.eq_or_lt_of_le hkj with rfl | hlt
        · exact hdone
        · exact hall j hlt (by omega)
      · exact fun hall j hkj hj => hall j (by omega) (by omega)
    all_goals
      -- The loop stops at the page `k`.
      rename_i hfail
      obtain ⟨_, -, hpair⟩ := of_map h
      cases hpair
      simp only [Bool.false_eq_true, false_iff]
      intro hall
      cases hfail.symm.trans (hall k le_rfl (by omega))

namespace BufferArea

variable {p p' : BufferArea} {b dataSize offsetsSize : ℕ} {isAsync : Bool} {faults : PageFaults}
  {rb : Balance ℕ}

theorem allocatePageRange_mapped_iff {start stop : ℕ} {mapped : Bool}
    (h : p.allocatePageRange start stop faults = .ok (mapped, p')) :
    mapped = true ↔ faults.Succeeds start stop := by
  unfold allocatePageRange at h
  unfold PageFaults.Succeeds
  split_ifs at h with hempty hvma
  · cases h
    simp [hempty]
  · cases h
    simp [hempty, hvma]
  · obtain ⟨⟨m, pages⟩, hpages, hpair⟩ := of_map h
    cases hpair
    rw [allocPages_mapped_iff hpages]
    simp [hempty, hvma]

/-- The end of the pages that `binder_alloc_buf` maps for a chosen buffer. -/
def endPageAddr (p : BufferArea) (b size : ℕ) : ℕ :=
  min (pageAlign (b + headerSize +
      takenSize size (p.binderBufferSize b) (decide (p.binderBufferSize b = size))))
    (pageMask (b + headerSize + p.binderBufferSize b))

/-- An allocated buffer has room for `size` bytes and meets no other allocated buffer. -/
structure Holds (p : BufferArea) (b size : ℕ) : Prop where
  allocated : b ∈ p.allocatedBuffers.inorder
  room : size ≤ p.binderBufferSize b
  apart : ∀ c ∈ p.allocatedBuffers.inorder, c ≠ b →
    c + headerSize + p.binderBufferSize c ≤ b ∨ b + headerSize + p.binderBufferSize b ≤ c

/-- A call hands out `b` if the pages for it can be mapped, and changes nothing otherwise. -/
structure ServedFrom (p : BufferArea) (b size : ℕ) (faults : PageFaults)
    (call : Except Fault (Option ℕ × BufferArea)) : Prop where
  fails : ¬ faults.Succeeds (pageAlign (b + headerSize)) (p.endPageAddr b size) →
    call = .ok (none, p)
  succeeds : faults.Succeeds (pageAlign (b + headerSize)) (p.endPageAddr b size) →
    ∃ p', call = .ok (some b, p') ∧ p'.Holds b size

theorem AllocSpec.holds (hspec : p.AllocSpec dataSize offsetsSize isAsync (some b) p')
    (h : p.Sound none) (h' : p'.Sound none) : p'.Holds b (totalSize dataSize offsetsSize) := by
  cases hspec with
  | taken _ split t t' pages hb _ =>
    have hold := ((h.free_mem b).mp hb).1
    have hmem : b ∈ p.takenList b (totalSize dataSize offsetsSize) split :=
      (mem_takenList hold).mpr (Or.inl hold)
    have hused := h'.used_le b hmem
    rw [allocated_usedEnd_self, ← h'.size_eq hmem] at hused
    refine ⟨(h'.allocated_mem b).mpr ⟨hmem, ?_, by simp⟩, by omega, fun c hc hne => ?_⟩
    · rw [allocated_header_self]
    · have hcmem := ((h'.allocated_mem c).mp hc).1
      rw [h'.size_eq hcmem, h'.size_eq hmem]
      rcases Nat.lt_or_gt_of_ne hne with hlt | hgt
      · exact Or.inl (h'.end_le_of_lt hcmem hmem hlt)
      · exact Or.inr (h'.end_le_of_lt hmem hcmem hgt)

theorem Sound.servedFrom {exactFit : Bool} (rb : Balance ℕ) (faults : PageFaults)
    (h : p.Sound none) (hb : b ∈ p.freeBuffers.inorder)
    (hexact : exactFit = decide (p.binderBufferSize b = totalSize dataSize offsetsSize))
    (hle : totalSize dataSize offsetsSize ≤ p.binderBufferSize b) :
    p.ServedFrom b (totalSize dataSize offsetsSize) faults
      (p.allocFrom rb b exactFit dataSize offsetsSize isAsync faults) := by
  obtain ⟨r, p', hfrom, hsound, hspec⟩ := h.allocFrom rb isAsync faults hb
    (fun he => of_decide_eq_true (hexact ▸ he))
    (fun he => lt_of_le_of_ne hle (Ne.symm (of_decide_eq_false (hexact ▸ he))))
  obtain ⟨⟨mapped, q⟩, hrange, hrest⟩ := of_bind hfrom
  have hmapped := allocatePageRange_mapped_iff hrange
  rw [hexact] at hmapped
  cases mapped with
  | false =>
    cases hrest
    cases hspec
    exact ⟨fun _ => hfrom, fun hs => absurd (hmapped.mpr hs) (by simp)⟩
  | true =>
    obtain ⟨p₁, -, hp'⟩ := of_bind hrest
    cases hp'
    exact ⟨fun hs => absurd (hmapped.mp rfl) hs, fun _ => ⟨_, hfrom, hspec.holds h hsound⟩⟩

/-- For every sound area and every pair of 32-bit sizes, `binder_alloc_buf` refuses the sizes
exactly if their rounded sum is no 32-bit word. With an area and enough asynchronous space it
fails otherwise only if no free buffer is large enough, or if a page of a smallest such buffer
cannot be mapped; then it changes nothing. Else it hands out that buffer. -/
theorem alloc_takes_smallest (rb : Balance ℕ) (h : p.Sound none) (hdata : dataSize < 2 ^ 32)
    (hoffsets : offsetsSize < 2 ^ 32) (isAsync : Bool) (faults : PageFaults) :
    (totalSize dataSize offsetsSize < dataSize ∨ totalSize dataSize offsetsSize < offsetsSize ↔
      2 ^ 32 ≤ alignedSum dataSize offsetsSize) ∧
    (2 ^ 32 ≤ alignedSum dataSize offsetsSize →
      p.binderAllocBuf rb dataSize offsetsSize isAsync faults = .ok (none, p)) ∧
    (alignedSum dataSize offsetsSize < 2 ^ 32 → p.vma = true → (isAsync = true →
        (alignedSum dataSize offsetsSize + headerSize) % 2 ^ 32 ≤ p.freeAsyncSpace) →
      (∀ c ∈ p.buffers, (p.header c).free = true →
          p.binderBufferSize c < alignedSum dataSize offsetsSize) ∧
        p.binderAllocBuf rb dataSize offsetsSize isAsync faults = .ok (none, p) ∨
      ∃ b ∈ p.buffers, (p.header b).free = true ∧
        alignedSum dataSize offsetsSize ≤ p.binderBufferSize b ∧
        (∀ c ∈ p.buffers, (p.header c).free = true →
          alignedSum dataSize offsetsSize ≤ p.binderBufferSize c →
          p.binderBufferSize b ≤ p.binderBufferSize c) ∧
        p.ServedFrom b (alignedSum dataSize offsetsSize) faults
          (p.binderAllocBuf rb dataSize offsetsSize isAsync faults)) := by
  have hiff : totalSize dataSize offsetsSize < dataSize ∨
      totalSize dataSize offsetsSize < offsetsSize ↔
      2 ^ 32 ≤ alignedSum dataSize offsetsSize := by
    simp only [totalSize, align, alignedSum]
    omega
  refine ⟨hiff, fun hover => ?_, fun hfits hvma hasync => ?_⟩
  · unfold binderAllocBuf
    dsimp only
    rw [if_pos (hiff.mpr hover), ite_self]
  have htotal : totalSize dataSize offsetsSize = alignedSum dataSize offsetsSize := by
    simp only [totalSize, align, alignedSum] at *
    omega
  have hfree : ∀ c, c ∈ p.buffers → (p.header c).free = true → c ∈ p.freeBuffers.inorder :=
    fun c hc hcfree => (h.free_mem c).mpr ⟨hc, hcfree, by simp⟩
  obtain ⟨r, exactFit, hfit, hspec⟩ := bestFit_ok (totalSize dataSize offsetsSize) none
    (fun b hb => ((h.free_mem b).mp hb).2.1) h.free_sorted
  have hcall : p.binderAllocBuf rb dataSize offsetsSize isAsync faults =
      r.elim (.ok (none, p)) fun b =>
        p.allocFrom rb b exactFit dataSize offsetsSize isAsync faults := by
    unfold binderAllocBuf
    dsimp only
    rw [if_neg (not_not_intro hvma), if_neg (by omega),
      if_neg (by rw [htotal]; exact fun hc => absurd (hasync hc.1) (by omega)), hfit]
    cases r <;> rfl
  rw [hcall, ← htotal]
  cases hspec with
  | missed hall => exact Or.inl ⟨fun c hc hcfree => hall c (hfree c hc hcfree), rfl⟩
  | exactly b hb heq =>
    obtain ⟨hmem, hbfree, -⟩ := (h.free_mem b).mp hb
    exact Or.inr ⟨b, hmem, hbfree, heq.ge, fun c _ _ hc => heq.trans_le hc,
      h.servedFrom rb faults hb (by simp [heq]) heq.ge⟩
  | larger b hb hlt hleast =>
    obtain ⟨hmem, hbfree, -⟩ := (h.free_mem b).mp hb
    exact Or.inr ⟨b, hmem, hbfree, hlt.le, fun c hc hcfree => hleast c (hfree c hc hcfree),
      h.servedFrom rb faults hb (by simp [hlt.ne']) hlt.le⟩

/-- With free buffers of 1000 and of 15244 bytes, a request for 20 bytes is served from the
smaller one. -/
theorem alloc_takes_smallest_twoFree : ∃ p : BufferArea, p.Sound none ∧
    p.binderBufferSize 4096 = 1000 ∧ p.binderBufferSize 5196 = 15244 ∧
    ∃ p', p.binderAllocBuf (.spine ℕ) 16 4 true .none = .ok (some 4096, p') ∧ p'.Holds 4096 20 := by
  obtain ⟨p₀, p, hmmap, hrun, hp⟩ := run_fourPages
    [.alloc 1000 0 false .none, .alloc 16 4 false .none, .free 4096]
    (fun p => p.vma && p.buffers == [4096, 5136, 5196] && (p.header 4096).free &&
      !(p.header 5136).free && p.binderBufferSize 4096 == 1000 &&
      p.binderBufferSize 5196 == 15244 && p.freeAsyncSpace == 8192) (by decide +kernel)
  simp only [Bool.and_eq_true, beq_iff_eq, Bool.not_eq_true'] at hp
  obtain ⟨⟨⟨⟨⟨⟨hvma, hbuffers⟩, hfree⟩, hused⟩, hsmall⟩, hlarge⟩, hasync⟩ := hp
  obtain ⟨_, hrun', h, -⟩ := sound_of_binderMmap hmmap
    [.alloc 1000 0 false .none, .alloc 16 4 false .none, .free 4096]
  cases hrun.symm.trans hrun'
  have hmem : 4096 ∈ p.buffers := by simp [hbuffers]
  obtain ⟨-, -, hcases⟩ := alloc_takes_smallest (.spine ℕ) h
    (show 16 < 2 ^ 32 by decide) (show 4 < 2 ^ 32 by decide) true .none
  obtain ⟨hall, -⟩ | ⟨b, hb, hbfree, -, hle, hserved⟩ :=
    hcases (by decide) hvma (fun _ => by rw [hasync]; decide)
  · have hlt := hall 4096 hmem hfree
    rw [hsmall] at hlt
    exact absurd hlt (by decide)
  · have hsize := hle 4096 hmem hfree (by rw [hsmall]; decide)
    obtain rfl : b = 4096 := by
      rw [hbuffers] at hb
      simp only [List.mem_cons, List.not_mem_nil, or_false] at hb
      rcases hb with rfl | rfl | rfl
      · rfl
      · rw [hused] at hbfree
        cases hbfree
      · rw [hsmall, hlarge] at hsize
        exact absurd hsize (by decide)
    exact ⟨p, h, hsmall, hlarge, hserved.succeeds (Or.inr ⟨rfl, fun _ _ => rfl⟩)⟩

/-- What a buffer takes from the asynchronous budget. -/
def chargeOf (hdr : BufferHeader) : ℕ :=
  if hdr.free = false ∧ hdr.asyncTransaction = true then
    totalSize hdr.dataSize hdr.offsetsSize + headerSize
  else 0

theorem chargeOf_of_free {hdr : BufferHeader} (hfree : hdr.free = true) : chargeOf hdr = 0 := by
  simp [chargeOf, hfree]

/-- What is left of the budget and what is charged are half of the area. -/
def Balanced (p : BufferArea) : Prop :=
  p.freeAsyncSpace + ∑ b ∈ p.buffers.toFinset, chargeOf (p.header b) = p.bufferSize / 2

theorem sum_chargeOf_add {header header' : ℕ → BufferHeader} {l l' : List ℕ} (hb : b ∈ l)
    (hother : ∀ c ∈ l, c ≠ b → header' c = header c)
    (hnew : ∀ c ∈ l', c ∉ l → (header' c).free = true)
    (hgone : ∀ c ∈ l, c ∉ l' → (header' c).free = true) :
    ∑ c ∈ l'.toFinset, chargeOf (header' c) + chargeOf (header b) =
      ∑ c ∈ l.toFinset, chargeOf (header c) + chargeOf (header' b) := by
  have hsame : ∑ c ∈ l'.toFinset, chargeOf (header' c) =
      ∑ c ∈ l.toFinset, chargeOf (header' c) := by
    apply sum_congr_of_eq_on_inter
    · exact fun c hc hnot => chargeOf_of_free (hnew c (by simpa using hc) (by simpa using hnot))
    · exact fun c hc hnot => chargeOf_of_free (hgone c (by simpa using hc) (by simpa using hnot))
    · exact fun _ _ _ => rfl
  have hmem : b ∈ l.toFinset := mem_toFinset.mpr hb
  have hrest : ∑ c ∈ l.toFinset.erase b, chargeOf (header' c) =
      ∑ c ∈ l.toFinset.erase b, chargeOf (header c) := by
    refine sum_congr rfl fun c hc => ?_
    obtain ⟨hne, hc⟩ := mem_erase.mp hc
    rw [hother c (mem_toFinset.mp hc) hne]
  have hsplit' := add_sum_erase _ (fun c => chargeOf (header' c)) hmem
  have hsplit := add_sum_erase _ (fun c => chargeOf (header c)) hmem
  omega

theorem async_space_of_alloc
    (hcall : p.binderAllocBuf rb dataSize offsetsSize true faults = .ok (some b, p')) :
    (totalSize dataSize offsetsSize + headerSize) % 2 ^ 32 ≤ p.freeAsyncSpace := by
  unfold binderAllocBuf at hcall
  dsimp only at hcall
  split at hcall
  · cases hcall
  split at hcall
  · cases hcall
  split at hcall
  · cases hcall
  next hasync => exact Nat.le_of_not_lt fun hlt => hasync ⟨rfl, hlt⟩

theorem Balanced.alloc {r : Option ℕ} (hbal : p.Balanced) (h : p.Sound none)
    (hcall : p.binderAllocBuf rb dataSize offsetsSize isAsync faults = .ok (r, p')) :
    p'.Balanced := by
  obtain ⟨r', q, hcall', h', hspec⟩ := h.binderAllocBuf rb dataSize offsetsSize isAsync faults
  cases hcall'.symm.trans hcall
  cases hspec with
  | failed => exact hbal
  | taken b split t t' pages hb hroom =>
    obtain ⟨hmem, hfree, -⟩ := (h.free_mem b).mp hb
    have hmem' : b ∈ p.takenList b (totalSize dataSize offsetsSize) split :=
      (mem_takenList hmem).mpr (Or.inl hmem)
    set q := p.allocated b dataSize offsetsSize isAsync split t t' pages with hq
    have hother : ∀ c ∈ p.buffers, c ≠ b → q.header c = p.header c := by
      intro c hc hne
      refine allocated_header_other hne ?_
      rintro rfl rfl
      exact h.remainder_notMem hmem (hroom rfl) hc
    have hnew : ∀ c ∈ q.buffers, c ∉ p.buffers → (q.header c).free = true := by
      intro c hc hnot
      obtain ⟨rfl, rfl⟩ := ((mem_takenList hmem).mp hc).resolve_left hnot
      exact allocated_header_new
    have hsum := sum_chargeOf_add hmem hother hnew
      (fun c hc hnot => absurd ((mem_takenList hmem).mpr (Or.inl hc)) hnot)
    rw [chargeOf_of_free hfree, hq, allocated_header_self, ← hq] at hsum
    have hused := h'.used_le b hmem'
    rw [hq, allocated_usedEnd_self, ← hq] at hused
    have hend := (h'.end_bounds hmem').2
    have hstop := h'.stop_lt
    have hsize : q.bufferSize = p.bufferSize := rfl
    have hfits : (totalSize dataSize offsetsSize + headerSize) % 2 ^ 32 =
        totalSize dataSize offsetsSize + headerSize := Nat.mod_eq_of_lt (by omega)
    unfold Balanced at *
    cases isAsync with
    | false => exact (congrArg (p.freeAsyncSpace + ·) hsum).trans hbal
    | true =>
      have hspace := async_space_of_alloc hcall
      have hleft : q.freeAsyncSpace = sub32 p.freeAsyncSpace
        ((totalSize dataSize offsetsSize + headerSize) % 2 ^ 32) := rfl
      rw [hfits] at hspace hleft
      have hcharge : chargeOf ⟨false, true, dataSize, offsetsSize⟩ =
        totalSize dataSize offsetsSize + headerSize := rfl
      simp only [sub32] at hleft
      omega

theorem freedList_sheds (p : BufferArea) (b c : ℕ) : (c ∈ p.freedList b → c ∈ p.buffers) ∧
    (c ∈ p.buffers → c ∉ p.freedList b → (p.freedHeader b c).free = true) := by
  have hself : (p.freedHeader b b).free = true := by simp [freedHeader]
  unfold freedList mergedPrev mergedNext
  dsimp only
  grind [List.mem_of_mem_erase]

section

variable (hbal : p.Balanced) (h : p.Sound none)
include hbal h

theorem Balanced.free (hb : b ∈ p.allocatedBuffers.inorder)
    (hcall : p.binderFreeBuf rb b = .ok p') : p'.Balanced := by
  obtain ⟨t, pages, hcall', -⟩ := h.binderFreeBuf rb hb
  cases hcall'.symm.trans hcall
  obtain ⟨hmem, hfree, -⟩ := (h.allocated_mem b).mp hb
  have hsum := sum_chargeOf_add hmem (fun c _ hne => Function.update_of_ne hne _ _)
    (fun c hc hnot => absurd ((p.freedList_sheds b c).1 hc) hnot)
    (fun c => (p.freedList_sheds b c).2)
  have hle : chargeOf (p.header b) ≤ ∑ c ∈ p.buffers.toFinset, chargeOf (p.header c) :=
    single_le_sum (f := fun c => chargeOf (p.header c)) (fun _ _ => Nat.zero_le _)
      (mem_toFinset.mpr hmem)
  have hzero : chargeOf (p.freedHeader b b) = 0 := by simp [chargeOf, freedHeader]
  have hstop := h.stop_lt
  unfold Balanced at *
  have hspace : p.freedAsyncSpace b = p.freeAsyncSpace + chargeOf (p.header b) := by
    simp only [freedAsyncSpace, chargeOf, hfree, true_and] at *
    split_ifs at * <;> omega
  show p.freedAsyncSpace b + ∑ c ∈ (p.freedList b).toFinset, chargeOf (p.freedHeader b c) =
    p.bufferSize / 2
  omega

theorem Balanced.step {op : BufferOp} (hstep : p.step rb op = .ok p') : p'.Balanced := by
  cases op with
  | alloc dataSize offsetsSize isAsync faults =>
    obtain ⟨⟨r, q⟩, hcall, rfl⟩ := of_map hstep
    exact hbal.alloc h hcall
  | free kernPtr =>
    simp only [BufferArea.step, h.lookup_ok] at hstep
    by_cases hmem : kernPtr ∈ p.allocatedBuffers.inorder
    · rw [if_pos hmem] at hstep
      exact hbal.free h hmem hstep
    · rw [if_neg hmem] at hstep
      cases hstep
      exact hbal
  | vmaClose =>
    cases hstep
    exact hbal

theorem Balanced.run {ops : List BufferOp} (hrun : p.run rb ops = .ok p') : p'.Balanced := by
  induction ops generalizing p with
  | nil =>
    cases hrun
    exact hbal
  | cons op ops ih =>
    rw [run, foldlM_cons] at hrun
    obtain ⟨q, hstep, hrest⟩ := of_bind hrun
    obtain ⟨q', hstep', h', -⟩ := h.step rb op
    cases hstep.symm.trans hstep'
    exact ih (hbal.step h hstep) h' hrest

end

/-- The whole budget is left when `binder_mmap` is done. -/
theorem balanced_of_binderMmap {area : VmArea} {header : ℕ → BufferHeader} {step : ℕ → PageStep}
    (hmmap : binderMmap rb area header step = .ok (some p)) : p.Balanced := by
  obtain ⟨⟨mapped, q⟩, -, hrest⟩ := of_bind hmmap
  cases mapped with
  | false => cases hrest
  | true =>
    obtain ⟨q', hinsert, hp⟩ := of_bind hrest
    cases hp
    unfold binderInsertFreeBuffer at hinsert
    dsimp only at hinsert
    split at hinsert
    · split at hinsert
      · cases hinsert
        simp [Balanced, chargeOf]
      · cases hinsert
    · cases hinsert

/-- Along every run of allocations and releases after `binder_mmap`, what is left of the
asynchronous budget and what the allocated asynchronous buffers are charged are half of the
area; so the budget stays between zero and that. -/
theorem async_budget_kept {rb : Balance ℕ} {area : VmArea} {header : ℕ → BufferHeader}
    {step : ℕ → PageStep} {p₀ : BufferArea} (hmmap : binderMmap rb area header step = .ok (some p₀))
    (ops : List BufferOp) :
    ∃ p, p₀.run rb ops = .ok p ∧
      p.freeAsyncSpace + ∑ b ∈ p.buffers.toFinset with
          (p.header b).free = false ∧ (p.header b).asyncTransaction = true,
        (totalSize (p.header b).dataSize (p.header b).offsetsSize + headerSize) =
      area.pageCount * pageSize / 2 ∧ p.freeAsyncSpace ≤ area.pageCount * pageSize / 2 := by
  obtain ⟨p, hrun, -, -, hsize⟩ := sound_of_binderMmap hmmap ops
  obtain ⟨_, hnil, h₀, -⟩ := sound_of_binderMmap hmmap []
  cases hnil
  have hbal := (balanced_of_binderMmap hmmap).run h₀ hrun
  rw [Balanced, hsize] at hbal
  refine ⟨p, hrun, ?_, by omega⟩
  rw [sum_filter]
  exact hbal

/-- An asynchronous buffer of 20 bytes in an area of one page. -/
theorem async_budget_kept_onePage :
    ∃ p₀, binderMmap (.spine ℕ) onePage (fun _ => ⟨false, false, 0, 0⟩) (fun _ => .done) =
        .ok (some p₀) ∧
      ∃ p, p₀.run (.spine ℕ) [.alloc 16 4 true .none] = .ok p ∧ p.freeAsyncSpace ≤ 2048 := by
  obtain ⟨p₀, hp₀⟩ := binderMmap_done (.spine ℕ) onePage (fun _ => ⟨false, false, 0, 0⟩)
  obtain ⟨p, hrun, -, hle⟩ := async_budget_kept hp₀ [.alloc 16 4 true .none]
  exact ⟨p₀, hp₀, p, hrun, hle⟩

end BufferArea

end AndroidKernel.Binder
