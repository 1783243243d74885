import AndroidKernel.Binder.BufferBudget

/-!
# The end of a mapped area

The loop of `binder_deferred_release` over the allocated buffers returns all memory.
-/

namespace AndroidKernel.Binder

open RbTree LinkedList

namespace BufferArea

/-- The loop of `binder_deferred_release` that frees the first allocated buffer until there is
none, with the number freed before. -/
def releaseBuffers (rb : Balance ℕ) : ℕ → ℕ → BufferArea → Except Fault (Option (ℕ × BufferArea))
  | 0, _, _ => .ok none
  | fuel + 1, buffers, p =>
    match p.allocatedBuffers.inorder.head? with
    | none => .ok (some (buffers, p))
    | some buffer => p.binderFreeBuf rb buffer >>= releaseBuffers rb fuel (buffers + 1)

variable {rb : Balance ℕ} {p : BufferArea}

variable (rb) in
theorem Sound.releaseBuffers (h : p.Sound none) (hbal : p.Balanced) (fuel buffers : ℕ)
    (hfuel : p.allocatedBuffers.inorder.length < fuel) :
    ∃ q, releaseBuffers rb fuel buffers p =
        .ok (some (buffers + p.allocatedBuffers.inorder.length, q)) ∧
      q.Sound none ∧ q.Balanced ∧ q.allocatedBuffers.inorder = [] ∧ q.buffer = p.buffer ∧
      q.bufferSize = p.bufferSize := by
  induction fuel generalizing p buffers with
  | zero => omega
  | succ fuel ih =>
    cases hl : p.allocatedBuffers.inorder with
    | nil => exact ⟨p, by simp [BufferArea.releaseBuffers, hl], h, hbal, hl, rfl, rfl⟩
    | cons b l =>
      have hb : b ∈ p.allocatedBuffers.inorder := hl ▸ List.mem_cons_self
      obtain ⟨t, pages, hcall, hsound⟩ := h.binderFreeBuf rb hb
      have hrest : (rb.erase p.allocatedBuffers b).inorder = l := by
        rw [rb.inorder_erase, hl, List.erase_cons_head]
      obtain ⟨q, hq, hend⟩ := ih hsound (hbal.free h hb hcall) (buffers + 1) (by grind)
      refine ⟨q, ?_, hend⟩
      simp only [BufferArea.releaseBuffers, hl, List.head?_cons]
      rw [hcall]
      refine Eq.trans hq ?_
      rw [hrest, List.length_cons, Nat.add_right_comm, Nat.add_assoc]

/-- Without an allocated buffer there is one free buffer. -/
theorem Sound.buffers_eq (h : p.Sound none) (hnil : p.allocatedBuffers.inorder = [])
    (hpos : 0 < p.bufferSize) : p.buffers = [p.buffer] ∧ (p.header p.buffer).free = true := by
  have hfree (b) (hb : b ∈ p.buffers) : (p.header b).free = true := by
    by_contra hne
    simpa [hnil, hb, hne] using h.allocated_mem b
  have htiles := h.tiles
  have hsep := h.separated
  revert htiles hsep hfree
  rcases p.buffers with _ | ⟨b, _ | ⟨c, l⟩⟩
  · intro _ htiles
    simp only [Tiles] at htiles
    omega
  · rintro hfree ⟨rfl, -⟩ -
    exact ⟨rfl, hfree _ List.mem_cons_self⟩
  · intro hfree _ hsep
    rcases hsep b c (by simp [next]) (hfree b (by simp)) (hfree c (by simp)) with he | he <;>
      cases he

/-- After every run of allocations and releases in a mapped area, with any page allocation or
mapping failing, `binder_deferred_release` frees each buffer that is still allocated once. Then one
free buffer spans the area, the asynchronous budget is whole, and only the first page, with the
header, is left for the loop over the pages. -/
theorem release_returns_everything {area : VmArea} {header : ℕ → BufferHeader}
    {step : ℕ → PageStep} {p₀ : BufferArea}
    (hmmap : binderMmap rb area header step = .ok (some p₀)) (ops : List BufferOp) :
    ∃ p, p₀.run rb ops = .ok p ∧ ∀ fuel > p.allocatedBuffers.inorder.length,
      ∃ q, releaseBuffers rb fuel 0 p = .ok (some (p.allocatedBuffers.inorder.length, q)) ∧
        q.allocatedBuffers.inorder = [] ∧ q.buffers = [area.addr] ∧
        q.freeBuffers.inorder = [area.addr] ∧
        q.binderBufferSize area.addr = area.pageCount * pageSize - headerSize ∧
        q.freeAsyncSpace = area.pageCount * pageSize / 2 ∧ ∀ i, q.pages i = true ↔ i = 0 := by
  obtain ⟨p, hrun, h, hbuffer, hsize⟩ := sound_of_binderMmap hmmap ops
  obtain ⟨_, hnil, h₀, -⟩ := sound_of_binderMmap hmmap []
  cases hnil
  have hbal := (balanced_of_binderMmap hmmap).run h₀ hrun
  refine ⟨p, hrun, fun fuel hfuel => ?_⟩
  obtain ⟨q, hq, hsound, hbal', hnone, hb, hs⟩ := h.releaseBuffers rb hbal fuel 0 hfuel
  rw [← hbuffer, ← hb, ← hsize, ← hs]
  have hpos : 0 < q.bufferSize := by
    rw [hs, hsize]
    exact Nat.mul_pos area.pageCount_pos (by decide)
  obtain ⟨hlist, hfree⟩ := hsound.buffers_eq hnone hpos
  have hmem := hsound.free_mem
  have hbytes := hsound.size_eq (b := q.buffer) (by simp [hlist])
  have hpages := hsound.resident
  rw [hlist] at hmem
  rw [Balanced, hlist] at hbal'
  rw [Resident, hlist] at hpages
  simp only [bufferEnd, hlist, next, Option.getD_none] at hbytes
  refine ⟨q, by simpa using hq, hnone, hlist, ?_, by omega, ?_, fun i => ?_⟩
  · rw [← List.perm_singleton, List.perm_ext_iff_of_nodup hsound.free_nodup (by simp)]
    intro b
    rw [hmem b, List.mem_singleton]
    constructor
    · exact fun hb => hb.1
    · rintro rfl
      exact ⟨rfl, hfree, by simp⟩
  · simpa [chargeOf_of_free hfree] using hbal'
  · simp only [hpages, Uses, usedEnd_of_free hfree, pageAddr, headerSize,
      List.mem_singleton, exists_eq_left]
    omega

/-- Two buffers of an area of one page, one of them asynchronous, are still allocated. -/
theorem release_returns_everything_onePage :
    ∃ p₀, binderMmap (.spine ℕ) onePage (fun _ => ⟨false, false, 0, 0⟩) (fun _ => .done) =
        .ok (some p₀) ∧
      ∃ p, p₀.run (.spine ℕ) [.alloc 16 4 false .none, .alloc 8 0 true .none] = .ok p ∧
        ∃ fuel n q, releaseBuffers (.spine ℕ) fuel 0 p = .ok (some (n, q)) ∧
          q.buffers = [4096] ∧ q.freeAsyncSpace = 2048 := by
  obtain ⟨p₀, hp₀⟩ := binderMmap_done (.spine ℕ) onePage (fun _ => ⟨false, false, 0, 0⟩)
  obtain ⟨p, hrun, hrelease⟩ := release_returns_everything hp₀
    [.alloc 16 4 false .none, .alloc 8 0 true .none]
  obtain ⟨q, hq, -, hlist, -, -, hspace, -⟩ := hrelease _ (Nat.lt_succ_self _)
  exact ⟨p₀, hp₀, p, hrun, _, _, q, hq, hlist, hspace⟩

end BufferArea

end AndroidKernel.Binder
