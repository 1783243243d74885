import AndroidKernel.Mm.MemblockRegions

/-!
# Sequences of calls to memblock

The regions stay in order with gaps between them, and every call changes the covered addresses by
its range, as long as what is added is apart from what is there and the array is not empty. A range
that overlaps a region gets an entry of its own, and in an array without regions the entry that was
removed last comes back in place of the one that is added.
-/

namespace AndroidKernel.Mm.Memblock

namespace Region

variable {rgn : Region} {base size : ℕ}

/-- The state between calls: the one of `memblock_init`, or regions in good order. -/
def WellFormed (rgn : Region) : Prop := rgn.Dummy ∨ rgn.Coalesced

/-- The call that returned `r` found the range in one region and took it out, or was refused and
changed nothing. -/
def Removed (rgn : Region) (base size : ℕ) (r : ℤ) (rgn' : Region) : Prop :=
  (rgn.Inside base size → 0 ≤ r ∧ rgn'.covered = rgn.covered \ Set.Ico base (base + size)) ∧
    (¬ rgn.Inside base size → r = -1 ∧ rgn' = rgn)

theorem Dummy.covered_eq (h : rgn.Dummy) : rgn.covered = ∅ := by
  ext x
  simp [covered, h.1, h.2]

theorem Dummy.memblockAddRegion (h : rgn.Dummy) (hadd : rgn.Addable base size) :
    ∃ rgn', rgn.memblockAddRegion base size = some (0, rgn') ∧ rgn'.Coalesced ∧
      rgn.Added base size 0 rgn' := by
  have hcnt := h.1
  refine ⟨rgn.set 0 ⟨base, size⟩, by rw [Region.memblockAddRegion, if_pos (by simp [h.1, h.2])],
    ⟨?_, ?_, ?_, ?_⟩, .inr ⟨le_rfl, ?_⟩⟩
  · rw [set_cnt, hcnt]
    decide
  · intro i hi
    obtain rfl : i = 0 := by rw [set_cnt] at hi; omega
    simpa using hadd.size_pos
  · intro i hi
    obtain rfl : i = 0 := by rw [set_cnt] at hi; omega
    simpa using hadd.end_lt
  · intro i j hij hj
    rw [set_cnt] at hj
    omega
  · rw [h.covered_eq, Set.empty_union]
    ext x
    rw [mem_covered_set (by omega), Set.mem_Ico]
    constructor
    · rintro (hx | ⟨j, hj, hne, -⟩)
      · exact hx
      · omega
    · exact .inl

/-- Taking the empty range at address zero out of the dummy leaves no region at all. -/
theorem Dummy.memblockRemove (h : rgn.Dummy) (hend : base + size < 2 ^ 64) :
    ∃ r rgn', rgn.memblockRemove base size = some (r, rgn') ∧ rgn'.WellFormed ∧
      rgn.Removed base size r rgn' := by
  have hfind : rgn.find base (base + size) 0 1 = if base + size = 0 then some 0 else none := by
    simp [find, h.2, u64]
  by_cases hzero : base + size = 0
  · obtain ⟨rfl, rfl⟩ : base = 0 ∧ size = 0 := by omega
    have hle : rgn.cnt ≤ maxMemblockRegions := by
      rw [h.1]
      decide
    have hrun : rgn.memblockRemove 0 0 = some (0, rgn.without 0) := by
      have hwithout := memblockRemoveRegion_eq (r := 0) (by rw [h.1]; decide) hle
      simp [Region.memblockRemove, find, h.1, h.2, hwithout, u64]
    have hnone : (rgn.without 0).cnt = 0 := by simp [without, h.1]
    refine ⟨0, _, hrun, .inr ⟨by simp [hnone], ?_, ?_, ?_⟩, fun _ => ⟨le_rfl, ?_⟩, ?_⟩
    · intro i hi
      omega
    · intro i hi
      omega
    · intro i j _ hj
      omega
    · rw [h.covered_eq]
      ext x
      simp [covered, hnone]
    · exact fun hout => absurd ⟨0, by rw [h.1]; decide, by simp [h.2]⟩ hout
  · have hout : ¬ rgn.Inside base size := by
      rintro ⟨i, hi, -, hstop⟩
      obtain rfl : i = 0 := by rw [h.1] at hi; omega
      simp only [h.2] at hstop
      omega
    refine ⟨-1, rgn, ?_, .inl h, fun hin => absurd hin hout, fun _ => ⟨rfl, rfl⟩⟩
    simp only [Region.memblockRemove, h.1, u64_of_lt hend, hfind, if_neg hzero]

theorem WellFormed.memblockAddRegion (h : rgn.WellFormed) (hadd : rgn.Addable base size) :
    ∃ r rgn', rgn.memblockAddRegion base size = some (r, rgn') ∧ rgn'.WellFormed ∧
      rgn.Added base size r rgn' := by
  obtain hd | hc := h
  · obtain ⟨rgn', hrun, hgood, hcov⟩ := hd.memblockAddRegion hadd
    exact ⟨0, rgn', hrun, .inr hgood, hcov⟩
  · obtain ⟨r, rgn', hrun, hgood, hcov⟩ := hc.memblockAddRegion hadd
    exact ⟨r, rgn', hrun, .inr hgood, hcov⟩

theorem WellFormed.memblockRemove (h : rgn.WellFormed) (hend : base + size < 2 ^ 64)
    (hcnt : rgn.cnt < maxMemblockRegions) :
    ∃ r rgn', rgn.memblockRemove base size = some (r, rgn') ∧ rgn'.WellFormed ∧
      rgn.Removed base size r rgn' := by
  obtain hd | hc := h
  · exact hd.memblockRemove hend
  · obtain ⟨r, rgn', hrun, hgood, hcov⟩ := hc.memblockRemove hend hcnt
    exact ⟨r, rgn', hrun, .inr hgood, hcov⟩

end Region

/-- What is asked of a call: a range to add is apart from the regions or one of them, and there is
a region; a range to remove finds room for one more region. -/
def Meets (m : Memblock) : Call → Prop
  | .memblockAdd base size => m.memory.Addable base size
  | .memblockReserve base size => m.reserved.Addable base size
  | .memblockRemove base size => base + size < 2 ^ 64 ∧ m.memory.cnt < maxMemblockRegions
  | .memblockFree base size => base + size < 2 ^ 64 ∧ m.reserved.cnt < maxMemblockRegions

/-- Every call of the sequence is as asked in the state where it is made. -/
def AllMeet (m : Memblock) : List Call → Prop
  | [] => True
  | call :: calls => m.Meets call ∧ ∀ r m', m.step call = some (r, m') → m'.AllMeet calls

/-- What a call does to the addresses covered. -/
def Effect (m : Memblock) (call : Call) (r : ℤ) (m' : Memblock) : Prop :=
  match call with
  | .memblockAdd base size => m.memory.Added base size r m'.memory ∧ m'.reserved = m.reserved
  | .memblockReserve base size => m.reserved.Added base size r m'.reserved ∧ m'.memory = m.memory
  | .memblockRemove base size => m.memory.Removed base size r m'.memory ∧ m'.reserved = m.reserved
  | .memblockFree base size => m.reserved.Removed base size r m'.reserved ∧ m'.memory = m.memory

/-- Both arrays are in good order. -/
def WellFormed (m : Memblock) : Prop := m.memory.WellFormed ∧ m.reserved.WellFormed

variable {m : Memblock}

theorem wellFormed_init : init.WellFormed := ⟨.inl ⟨rfl, rfl⟩, .inl ⟨rfl, rfl⟩⟩

theorem WellFormed.step (h : m.WellFormed) {call : Call} (hcall : m.Meets call) :
    ∃ r m', m.step call = some (r, m') ∧ m'.WellFormed ∧ m.Effect call r m' := by
  obtain ⟨hmemory, hreserved⟩ := h
  cases call with
  | memblockAdd base size =>
    obtain ⟨r, rgn, hrun, hgood, heffect⟩ := hmemory.memblockAddRegion hcall
    exact ⟨r, { m with memory := rgn }, by simp [Memblock.step, hrun], ⟨hgood, hreserved⟩,
      heffect, rfl⟩
  | memblockReserve base size =>
    obtain ⟨r, rgn, hrun, hgood, heffect⟩ := hreserved.memblockAddRegion hcall
    have hpos := hcall.size_pos
    exact ⟨r, { m with reserved := rgn }, by simp [Memblock.step, hrun, hpos.ne'],
      ⟨hmemory, hgood⟩, heffect, rfl⟩
  | memblockRemove base size =>
    obtain ⟨r, rgn, hrun, hgood, heffect⟩ := hmemory.memblockRemove hcall.1 hcall.2
    exact ⟨r, { m with memory := rgn }, by simp [Memblock.step, hrun], ⟨hgood, hreserved⟩,
      heffect, rfl⟩
  | memblockFree base size =>
    obtain ⟨r, rgn, hrun, hgood, heffect⟩ := hreserved.memblockRemove hcall.1 hcall.2
    exact ⟨r, { m with reserved := rgn }, by simp [Memblock.step, hrun], ⟨hmemory, hgood⟩,
      heffect, rfl⟩

theorem WellFormed.run (h : m.WellFormed) {calls rest : List Call}
    (hcalls : m.AllMeet (calls ++ rest)) :
    ∃ m', m.run calls = some m' ∧ m'.WellFormed ∧ m'.AllMeet rest := by
  induction calls generalizing m with
  | nil => exact ⟨m, rfl, h, hcalls⟩
  | cons call calls ih =>
    obtain ⟨hcall, hnext⟩ := hcalls
    obtain ⟨r, m₁, hstep, hgood, -⟩ := h.step hcall
    obtain ⟨m₂, hrun, hrest⟩ := ih hgood (hnext r m₁ hstep)
    exact ⟨m₂, by simp [Memblock.run, hstep, hrun], hrest⟩

/-- After any sequence of calls as asked, every further call as asked returns, leaves both arrays in
good order, and adds its range to the covered addresses or takes it out of them; a call that
returns `-1` changes nothing. -/
theorem regions_are_interval_sets (calls : List Call) (call : Call)
    (h : init.AllMeet (calls ++ [call])) :
    ∃ m r m', init.run calls = some m ∧ m.WellFormed ∧ m.step call = some (r, m') ∧
      m'.WellFormed ∧ m.Effect call r m' := by
  obtain ⟨m, hrun, hgood, hcall, -⟩ := wellFormed_init.run h
  obtain ⟨r, m', hstep, hgood', heffect⟩ := hgood.step hcall
  exact ⟨m, r, m', hrun, hgood, hstep, hgood', heffect⟩

/-- Two regions that touch, and a hole in what they become. -/
theorem regions_are_interval_sets_hole :
    init.AllMeet ([.memblockAdd 10 5, .memblockAdd 15 5] ++ [.memblockRemove 12 2]) ∧
    ∃ m r m', init.run [.memblockAdd 10 5, .memblockAdd 15 5] = some m ∧ m.WellFormed ∧
      m.step (.memblockRemove 12 2) = some (r, m') ∧ m'.WellFormed ∧
      m.Effect (.memblockRemove 12 2) r m' := by
  have h : init.AllMeet ([.memblockAdd 10 5, .memblockAdd 15 5] ++ [.memblockRemove 12 2]) := by
    refine ⟨⟨by decide, by decide, by decide, .inr (by decide)⟩, ?_⟩
    rintro r m ⟨⟩
    refine ⟨⟨by decide, by decide, by decide, .inr (by decide)⟩, ?_⟩
    rintro r m ⟨⟩
    exact ⟨⟨by decide, by decide⟩, fun _ _ _ => trivial⟩
  exact ⟨h, regions_are_interval_sets _ _ h⟩

/-- The regions of the memory array, as base and size. -/
def entries (m : Memblock) : List Property := (List.range m.memory.cnt).map m.memory.region

/-- Once the only region is removed, the next one to be added is lost and the removed one is back;
and a range that overlaps a region becomes a second region. -/
theorem removed_region_back_and_overlap_kept :
    (init.run [.memblockAdd 10 5, .memblockRemove 10 5, .memblockAdd 20 5]).map entries =
      some [⟨10, 5⟩] ∧
    (init.run [.memblockAdd 10 5, .memblockAdd 12 5]).map entries = some [⟨10, 5⟩, ⟨12, 5⟩] := by
  decide +kernel

end AndroidKernel.Mm.Memblock
