import AndroidKernel.Binder.Buffer

/-!
# The buffers tile their area

The buffer list, the tree of free buffers and the tree of allocated buffers describe
one tiling of the mapped area. While a buffer is moved between the trees it is in
neither of them; the invariant is therefore stated with an optional buffer that is
exempt, and every step of an allocation or a release moves that exemption along.
-/

namespace AndroidKernel.Binder

open RbTree LinkedList

variable {p p' : BufferArea} {start stop : ℕ} {l : List ℕ}

/-- The buffers of a list follow one another from `start` to `stop`, each a header and
some bytes of data. -/
def Tiles : ℕ → ℕ → List ℕ → Prop
  | start, stop, [] => start = stop
  | start, stop, b :: l => b = start ∧ ∃ size, Tiles (start + headerSize + size) stop l

theorem tiles_append {l' : List ℕ} :
    Tiles start stop (l ++ l') ↔ ∃ mid, Tiles start mid l ∧ Tiles mid stop l' := by
  induction l generalizing start with
  | nil => simp [Tiles]
  | cons b l ih =>
    simp only [List.cons_append, Tiles, ih]
    constructor
    · rintro ⟨rfl, size, mid, hl, hl'⟩
      exact ⟨mid, ⟨rfl, size, hl⟩, hl'⟩
    · rintro ⟨mid, ⟨rfl, size, hl⟩, hl'⟩
      exact ⟨rfl, size, mid, hl, hl'⟩

theorem Tiles.headD_eq (h : Tiles start stop l) : l.head?.getD stop = start := by
  cases l with
  | nil => exact h.symm
  | cons b l => exact h.1

theorem Tiles.le (h : Tiles start stop l) : start ≤ stop := by
  induction l generalizing start with
  | nil => exact Nat.le_of_eq h
  | cons b l ih =>
    obtain ⟨-, size, hl⟩ := h
    have := ih hl
    omega

theorem Tiles.bounds {b : ℕ} (h : Tiles start stop l) (hb : b ∈ l) :
    start ≤ b ∧ b + headerSize ≤ stop := by
  induction l generalizing start with
  | nil => simp at hb
  | cons c l ih =>
    obtain ⟨rfl, size, hl⟩ := h
    rcases List.mem_cons.mp hb with rfl | hb
    · have := hl.le
      omega
    · have := ih hl hb
      omega

theorem Tiles.pairwise_lt (h : Tiles start stop l) : l.Pairwise (· < ·) := by
  induction l generalizing start with
  | nil => exact List.Pairwise.nil
  | cons b l ih =>
    obtain ⟨rfl, size, hl⟩ := h
    refine List.pairwise_cons.mpr ⟨fun c hc => ?_, ih hl⟩
    have := (hl.bounds hc).1
    simp only [headerSize] at this
    omega

theorem Tiles.nodup (h : Tiles start stop l) : l.Nodup :=
  h.pairwise_lt.imp fun hlt => Nat.ne_of_lt hlt

namespace BufferArea

variable {b c : ℕ}

/-- The geometry of a mapped area. -/
structure Tiled (p : BufferArea) : Prop where
  buffer_aligned : p.buffer % 4096 = 0
  size_aligned : p.bufferSize % 4096 = 0
  stop_lt : p.buffer + p.bufferSize < 2 ^ 32
  tiles : Tiles p.buffer (p.buffer + p.bufferSize) p.buffers

/-- The address behind the data of a buffer: the next header, or the end of the area. -/
def bufferEnd (p : BufferArea) (b : ℕ) : ℕ := (next p.buffers b).getD (p.buffer + p.bufferSize)

section

variable (h : p.Tiled) (hb : b ∈ p.buffers)
include h hb

/-- Around a buffer, the list is a tiling up to it and a tiling from its end on. -/
theorem Tiled.split_at :
    ∃ before after, p.buffers = before ++ b :: after ∧ Tiles p.buffer b before ∧
      b + headerSize ≤ p.bufferEnd b ∧ Tiles (p.bufferEnd b) (p.buffer + p.bufferSize) after := by
  obtain ⟨before, after, hsplit, hbefore⟩ := List.eq_append_cons_of_mem hb
  have htiles := h.tiles
  rw [hsplit] at htiles
  obtain ⟨mid, hleft, rfl, size, hafter⟩ := tiles_append.mp htiles
  have hend : p.bufferEnd b = b + headerSize + size := by
    unfold bufferEnd
    rw [hsplit, next_split hbefore, hafter.headD_eq]
  exact ⟨before, after, hsplit, hleft, by omega, hend ▸ hafter⟩

theorem Tiled.end_bounds :
    b + headerSize ≤ p.bufferEnd b ∧ p.bufferEnd b ≤ p.buffer + p.bufferSize := by
  obtain ⟨before, after, -, -, hle, hafter⟩ := h.split_at hb
  exact ⟨hle, hafter.le⟩

theorem Tiled.end_le_of_lt (hc : c ∈ p.buffers) (hlt : b < c) : p.bufferEnd b ≤ c := by
  obtain ⟨before, after, hsplit, hbefore, -, hafter⟩ := h.split_at hb
  rw [hsplit, List.mem_append, List.mem_cons] at hc
  rcases hc with hc | rfl | hc
  · have := (hbefore.bounds hc).2
    omega
  · omega
  · exact (hafter.bounds hc).1

end

theorem bufferEnd_of_next (hnext : next p.buffers b = some c) : p.bufferEnd b = c := by
  rw [bufferEnd, hnext, Option.getD_some]

theorem Tiled.add_headerSize_le (h : p.Tiled) (hnext : next p.buffers b = some c) :
    b + headerSize ≤ c := by
  have hle := (h.end_bounds (mem_of_next hnext).1).1
  rwa [bufferEnd_of_next hnext] at hle

theorem Tiled.size_eq (h : p.Tiled) (hb : b ∈ p.buffers) :
    b + headerSize + p.binderBufferSize b = p.bufferEnd b := by
  have hbounds := h.end_bounds hb
  have hstop := h.stop_lt
  unfold bufferEnd at *
  unfold binderBufferSize sub32
  cases hnext : next p.buffers b with
  | none =>
    simp only [hnext, Option.getD_none] at hbounds ⊢
    omega
  | some n =>
    simp only [hnext, Option.getD_some] at hbounds ⊢
    omega

theorem binderBufferSize_congr (hbuffer : p'.buffer = p.buffer)
    (hsize : p'.bufferSize = p.bufferSize) (hnext : next p'.buffers b = next p.buffers b) :
    p'.binderBufferSize b = p.binderBufferSize b := by
  simp only [BufferArea.binderBufferSize, hbuffer, hsize, hnext]

end BufferArea

/-- Splitting a buffer: a header placed behind it, with room up to its old end. -/
theorem Tiles.insertAfter {b new : ℕ} (h : Tiles start stop l)
    (hb : b ∈ l) (hnew : b + headerSize ≤ new)
    (hend : new + headerSize ≤ (next l b).getD stop) :
    Tiles start stop (insertAfter b new l) := by
  obtain ⟨before, after, rfl, hbefore⟩ := List.eq_append_cons_of_mem hb
  rw [next_split hbefore] at hend
  rw [insertAfter_split hbefore]
  obtain ⟨mid, hleft, rfl, size, hright⟩ := tiles_append.mp h
  rw [hright.headD_eq] at hend
  refine tiles_append.mpr ⟨b, hleft, rfl, new - (b + headerSize), by omega,
    b + headerSize + size - (new + headerSize), ?_⟩
  convert hright using 1
  omega

theorem Tiles.erase {b c : ℕ} (h : Tiles start stop l)
    (hnext : next l b = some c) : Tiles start stop (l.erase c) := by
  have hnodup := h.nodup
  obtain ⟨before, after, rfl, -⟩ := exists_split_of_next hnext
  have hsplit : before ++ b :: c :: after = (before ++ [b]) ++ c :: after := by simp
  have hc : c ∉ before ++ [b] := by
    intro hm
    rw [hsplit] at hnodup
    exact (List.nodup_append.mp hnodup).2.2 c hm c List.mem_cons_self rfl
  rw [hsplit, erase_split hc, List.append_assoc, List.singleton_append]
  obtain ⟨mid, hleft, rfl, size, rfl, size', hright⟩ := tiles_append.mp h
  refine tiles_append.mpr ⟨b, hleft, rfl, size + headerSize + size', ?_⟩
  convert hright using 1
  omega

namespace BufferArea

variable {b : ℕ}

/-- The invariant of the allocator, where the buffer `pend`, if any, is in neither tree
and may have free neighbours. -/
structure Inv (p : BufferArea) (pend : Option ℕ) : Prop extends p.Tiled where
  free_mem : ∀ b, b ∈ p.freeBuffers.inorder ↔
    b ∈ p.buffers ∧ (p.header b).free = true ∧ pend ≠ some b
  free_nodup : p.freeBuffers.inorder.Nodup
  free_sorted : Sorted p.binderBufferSize p.freeBuffers.inorder
  allocated_mem : ∀ b, b ∈ p.allocatedBuffers.inorder ↔
    b ∈ p.buffers ∧ (p.header b).free = false ∧ pend ≠ some b
  allocated_sorted : p.allocatedBuffers.inorder.Pairwise (· < ·)
  separated : ∀ b c, next p.buffers b = some c → (p.header b).free = true →
    (p.header c).free = true → pend = some b ∨ pend = some c

/-- Two states of one area with the same buffer list. -/
structure SameList (p p' : BufferArea) : Prop where
  buffer : p'.buffer = p.buffer
  bufferSize : p'.bufferSize = p.bufferSize
  buffers : p'.buffers = p.buffers

theorem SameList.size_eq (h : p.SameList p') (b : ℕ) :
    p'.binderBufferSize b = p.binderBufferSize b :=
  binderBufferSize_congr h.buffer h.bufferSize (by rw [h.buffers])

theorem Tiled.congr (h : p.Tiled) (hbuffer : p'.buffer = p.buffer)
    (hsize : p'.bufferSize = p.bufferSize)
    (htiles : Tiles p.buffer (p.buffer + p.bufferSize) p'.buffers) : p'.Tiled := by
  refine ⟨?_, ?_, ?_, ?_⟩
  · rw [hbuffer]; exact h.buffer_aligned
  · rw [hsize]; exact h.size_aligned
  · rw [hbuffer, hsize]; exact h.stop_lt
  · rwa [hbuffer, hsize]

theorem SameList.tiled (h : p.SameList p') (ht : p.Tiled) : p'.Tiled :=
  ht.congr h.buffer h.bufferSize (h.buffers ▸ ht.tiles)

/-- The invariant reads the list, the two trees and the `free` flags of the buffers that
are not exempt. -/
theorem Inv.congr {pend : Option ℕ} (h : p.Inv pend) (hlist : p.SameList p')
    (hfree : ∀ b, pend ≠ some b → (p'.header b).free = (p.header b).free)
    (htree : p'.freeBuffers = p.freeBuffers) (htree' : p'.allocatedBuffers = p.allocatedBuffers) :
    p'.Inv pend := by
  refine ⟨hlist.tiled h.toTiled, ?_, ?_, ?_, ?_, ?_, ?_⟩
  · intro b
    rw [htree, hlist.buffers, h.free_mem b]
    grind
  · rw [htree]
    exact h.free_nodup
  · rw [htree]
    exact h.free_sorted.congr fun b _ => hlist.size_eq b
  · intro b
    rw [htree', hlist.buffers, h.allocated_mem b]
    grind
  · rw [htree']
    exact h.allocated_sorted
  · intro b c hnext hb hc
    rw [hlist.buffers] at hnext
    by_cases hpb : pend = some b
    · exact Or.inl hpb
    by_cases hpc : pend = some c
    · exact Or.inr hpc
    rw [hfree b hpb] at hb
    rw [hfree c hpc] at hc
    exact h.separated b c hnext hb hc

theorem Inv.detach (h : p.Inv none) (hlist : p.SameList p')
    (hfree : ∀ c, c ≠ b → (p'.header c).free = (p.header c).free)
    (htree : p'.freeBuffers.inorder = p.freeBuffers.inorder.erase b)
    (htree' : p'.allocatedBuffers.inorder = p.allocatedBuffers.inorder.erase b) :
    p'.Inv (some b) := by
  have hnodup : p.allocatedBuffers.inorder.Nodup := h.allocated_sorted.imp Nat.ne_of_lt
  refine ⟨hlist.tiled h.toTiled, ?_, ?_, ?_, ?_, ?_, ?_⟩
  · intro c
    rw [htree, hlist.buffers, h.free_nodup.mem_erase_iff, h.free_mem c]
    grind
  · rw [htree]
    exact h.free_nodup.erase b
  · rw [htree]
    exact Sorted.congr (h.free_sorted.sublist List.erase_sublist) fun c _ => hlist.size_eq c
  · intro c
    rw [htree', hlist.buffers, hnodup.mem_erase_iff, h.allocated_mem c]
    grind
  · rw [htree']
    exact h.allocated_sorted.sublist List.erase_sublist
  · intro c d hnext hc hd
    rw [hlist.buffers] at hnext
    by_cases hcb : c = b
    · exact Or.inl (by rw [hcb])
    by_cases hdb : d = b
    · exact Or.inr (by rw [hdb])
    rw [hfree c hcb] at hc
    rw [hfree d hdb] at hd
    rcases h.separated c d hnext hc hd with hp | hp <;> cases hp

/-- `binder_insert_free_buffer` accepts the exempt buffer when it is free and its
neighbours are not. -/
theorem Inv.insert_free (rb : Balance ℕ) (h : p.Inv (some b)) (hb : b ∈ p.buffers)
    (hfree : (p.header b).free = true)
    (hnext : ∀ c, next p.buffers b = some c → (p.header c).free = false)
    (hprev : ∀ c, next p.buffers c = some b → (p.header c).free = false) :
    ∃ t, p.binderInsertFreeBuffer rb b = .ok { p with freeBuffers := t } ∧
      BufferArea.Inv { p with freeBuffers := t } none := by
  have hcompare : ∀ c ∈ p.freeBuffers.inorder,
      (if (p.header c).free then some (decide (p.binderBufferSize b < p.binderBufferSize c))
        else none) = some (decide (p.binderBufferSize b < p.binderBufferSize c)) := by
    intro c hc
    rw [if_pos ((h.free_mem c).mp hc).2.1]
  obtain ⟨t, before, after, hlink, hsplit, hinorder, hle, hgt⟩ :=
    Tree.link_sorted h.free_sorted hcompare
  have hnotMem : b ∉ before ++ after := by
    rw [← hsplit]
    exact fun hm => ((h.free_mem b).mp hm).2.2 rfl
  refine ⟨rb.insertColor t b, by simp [binderInsertFreeBuffer, hfree, hlink], ?_⟩
  refine ⟨h.toTiled.congr rfl rfl h.tiles, ?_, ?_, ?_, ?_,
    h.allocated_sorted, ?_⟩
  · intro c
    have hmem := h.free_mem c
    rw [hsplit] at hmem
    rw [rb.inorder_insertColor, hinorder, List.perm_middle.mem_iff, List.mem_cons, hmem]
    grind
  · rw [rb.inorder_insertColor, hinorder, List.perm_middle.nodup_iff, List.nodup_cons]
    exact ⟨hnotMem, hsplit ▸ h.free_nodup⟩
  · rw [rb.inorder_insertColor, hinorder]
    exact sorted_insert (hsplit ▸ h.free_sorted) hle hgt
  · intro c
    rw [h.allocated_mem c]
    grind
  · intro c d hcd hc hd
    rcases h.separated c d hcd hc hd with hp | hp
    · cases hp
      rw [hnext d hcd] at hd
      cases hd
    · cases hp
      rw [hprev c hcd] at hc
      cases hc

/-- `binder_insert_allocated_buffer` accepts the exempt buffer when it is not free. -/
theorem Inv.insert_allocated (rb : Balance ℕ) (h : p.Inv (some b)) (hb : b ∈ p.buffers)
    (hfree : (p.header b).free = false) :
    ∃ t, p.binderInsertAllocatedBuffer rb b = .ok { p with allocatedBuffers := t } ∧
      BufferArea.Inv { p with allocatedBuffers := t } none := by
  have hnotMem : b ∉ p.allocatedBuffers.inorder := fun hm => ((h.allocated_mem b).mp hm).2.2 rfl
  have hcompare : ∀ c ∈ p.allocatedBuffers.inorder,
      (if (p.header c).free then none else if b < c then some true
        else if b > c then some false else none) = some (decide (b < c)) := by
    intro c hc
    have hne : b ≠ c := fun he => hnotMem (he ▸ hc)
    rw [if_neg (by simp [((h.allocated_mem c).mp hc).2.1])]
    grind
  have hsorted : Sorted id p.allocatedBuffers.inorder := h.allocated_sorted.imp Nat.le_of_lt
  obtain ⟨t, before, after, hlink, hsplit, hinorder, hle, hgt⟩ := Tree.link_sorted hsorted hcompare
  refine ⟨rb.insertColor t b, by simp [binderInsertAllocatedBuffer, hfree, hlink], ?_⟩
  refine ⟨h.toTiled.congr rfl rfl h.tiles, ?_, h.free_nodup,
    h.free_sorted, ?_, ?_, ?_⟩
  · intro c
    rw [h.free_mem c]
    grind
  · intro c
    have hmem := h.allocated_mem c
    rw [hsplit] at hmem
    rw [rb.inorder_insertColor, hinorder, List.perm_middle.mem_iff, List.mem_cons, hmem]
    grind
  · rw [rb.inorder_insertColor, hinorder]
    have hpair := h.allocated_sorted
    rw [hsplit] at hpair hnotMem
    rw [List.pairwise_append] at hpair ⊢
    refine ⟨hpair.1, List.pairwise_cons.mpr ⟨hgt, hpair.2.1⟩, ?_⟩
    intro c hc d hd
    rcases List.mem_cons.mp hd with rfl | hd
    · exact Nat.lt_of_le_of_ne (hle c hc) fun he => hnotMem (he ▸ List.mem_append_left _ hc)
    · exact hpair.2.2 c hc d hd
  · intro c d hcd hc hd
    rcases h.separated c d hcd hc hd with hp | hp
    · cases hp
      rw [hfree] at hc
      cases hc
    · cases hp
      rw [hfree] at hd
      cases hd

/-- Removing the header `c` behind `b` when both are free and one of them is exempt: the
other one leaves the free tree, and `b` is exempt afterwards. -/
theorem Inv.merge {a c x : ℕ} (h : p.Inv (some a)) (hnext : next p.buffers b = some c)
    (hb : (p.header b).free = true) (hc : (p.header c).free = true)
    (hpair : a = b ∧ x = c ∨ a = c ∧ x = b) (hbuffer : p'.buffer = p.buffer)
    (hsize : p'.bufferSize = p.bufferSize) (hbuffers : p'.buffers = p.buffers.erase c)
    (hheader : p'.header = p.header)
    (htree : p'.freeBuffers.inorder = p.freeBuffers.inorder.erase x)
    (htree' : p'.allocatedBuffers = p.allocatedBuffers) : p'.Inv (some b) := by
  have hnodup := h.tiles.nodup
  have hlt := h.add_headerSize_le hnext
  have hne : b ≠ c := by
    simp only [headerSize] at hlt
    omega
  refine ⟨h.toTiled.congr hbuffer hsize ?_, ?_, ?_, ?_, ?_, ?_, ?_⟩
  · rw [hbuffers]; exact h.tiles.erase hnext
  · intro d
    rw [htree, hbuffers, hheader, h.free_nodup.mem_erase_iff, h.free_mem d, hnodup.mem_erase_iff]
    grind
  · rw [htree]
    exact h.free_nodup.erase x
  · rw [htree]
    refine Sorted.congr (h.free_sorted.sublist List.erase_sublist) fun d hd => ?_
    have hmem := h.free_nodup.mem_erase_iff.mp hd
    have hexempt := ((h.free_mem d).mp hmem.2).2.2
    apply binderBufferSize_congr hbuffer hsize
    rw [hbuffers]
    apply next_erase_of_ne
    · grind
    · intro hd'
      have := next_injective hnodup hd' hnext
      grind
  · intro d
    rw [htree', hbuffers, hheader, h.allocated_mem d, hnodup.mem_erase_iff]
    grind
  · rw [htree']
    exact h.allocated_sorted
  · intro u v huv hu hv
    rw [hbuffers, next_erase_iff hnodup hnext] at huv
    rw [hheader] at hu hv
    rcases huv with ⟨rfl, -⟩ | ⟨hub, huc, huv⟩
    · exact Or.inl rfl
    · have hsep := h.separated u v huv hu hv
      have hvc : v ≠ c := by
        rintro rfl
        exact hub (next_injective hnodup huv hnext)
      grind

theorem Inv.split {new : ℕ} (h : p.Inv none) (hb : b ∈ p.buffers)
    (hfree : (p.header b).free = false) (hnew : b + headerSize ≤ new)
    (hend : new + headerSize ≤ p.bufferEnd b) (hbuffer : p'.buffer = p.buffer)
    (hsize : p'.bufferSize = p.bufferSize) (hbuffers : p'.buffers = insertAfter b new p.buffers)
    (hheader : ∀ c, c ≠ new → (p'.header c).free = (p.header c).free)
    (htree : p'.freeBuffers = p.freeBuffers) (htree' : p'.allocatedBuffers = p.allocatedBuffers) :
    p'.Inv (some new) := by
  have hne : b ≠ new := by
    simp only [headerSize] at hnew
    omega
  have hnotMem : new ∉ p.buffers := by
    intro hm
    have := h.end_le_of_lt hb hm (by simp only [headerSize] at hnew; omega)
    simp only [headerSize] at hend
    omega
  refine ⟨h.toTiled.congr hbuffer hsize ?_, ?_, ?_, ?_, ?_, ?_, ?_⟩
  · rw [hbuffers]; exact h.tiles.insertAfter hb hnew hend
  · intro c
    rw [htree, hbuffers, h.free_mem c, mem_insertAfter hb]
    grind
  · rw [htree]
    exact h.free_nodup
  · rw [htree]
    refine h.free_sorted.congr fun c hc => ?_
    obtain ⟨hcmem, hcfree, -⟩ := (h.free_mem c).mp hc
    apply binderBufferSize_congr hbuffer hsize
    rw [hbuffers]
    exact next_insertAfter_of_ne (by grind) (by grind)
  · intro c
    rw [htree', hbuffers, h.allocated_mem c, mem_insertAfter hb]
    grind
  · rw [htree']
    exact h.allocated_sorted
  · intro u v huv hu hv
    rw [hbuffers, next_insertAfter_iff hb hnotMem] at huv
    rcases huv with ⟨-, rfl⟩ | ⟨rfl, -⟩ | ⟨hub, hun, huv⟩
    · exact Or.inr rfl
    · exact Or.inl rfl
    · have hvn : v ≠ new := fun he => hnotMem (he ▸ (mem_of_next huv).2)
      rw [hheader u hun] at hu
      rw [hheader v hvn] at hv
      rcases h.separated u v huv hu hv with hp | hp <;> cases hp

end BufferArea

end AndroidKernel.Binder
