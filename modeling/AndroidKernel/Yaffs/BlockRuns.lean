import AndroidKernel.Yaffs.Blocks

/-!
# Runs of the allocation

The calls are sequences of simple steps on the states of the blocks: a block is erased, is taken
when it is empty, hands out its pages one after the other, and is given up. The counters and the
order of the pages follow from the steps, whatever the calls are.
-/

namespace AndroidKernel.Yaffs

open BlockState Finset Function List Nat

section Traces

variable {log : List Event} {e : Event} {b p : ℕ}

/-- The page was handed out, and its block has not been erased since. -/
def Held (b p : ℕ) (log : List Event) : Prop :=
  ∃ l₁ l₂, log = l₁ ++ .handedOut b p :: l₂ ∧ .erased b ∉ l₂

/-- Of two pages of a block that are handed out with no erase of the block in between, the second is
the higher one. -/
def Increasing (log : List Event) : Prop :=
  ∀ l₁ l₂ l₃ b p q, log = l₁ ++ .handedOut b p :: (l₂ ++ .handedOut b q :: l₃) →
    .erased b ∉ l₂ → p < q

/-- The sequence numbers of the blocks that are taken. -/
def seqs (log : List Event) : List ℕ :=
  log.filterMap fun
    | .taken _ n => some n
    | _ => none

theorem held_concat :
    Held b p (log ++ [e]) ↔ e = .handedOut b p ∨ Held b p log ∧ e ≠ .erased b := by
  constructor
  · rintro ⟨l₁, l₂, heq, hl⟩
    rcases eq_nil_or_concat l₂ with rfl | ⟨l, x, rfl⟩
    · exact .inl (append_inj' heq rfl |>.2 |> List.singleton_inj.mp)
    · rw [concat_eq_append] at heq hl
      rw [← cons_append, ← append_assoc] at heq
      obtain ⟨rfl, hx⟩ := append_inj' heq rfl
      obtain rfl := List.singleton_inj.mp hx
      rw [mem_append, not_or] at hl
      exact .inr ⟨⟨l₁, l, rfl, hl.1⟩, fun h => hl.2 (h ▸ List.mem_singleton_self _)⟩
  · rintro (rfl | ⟨⟨l₁, l₂, rfl, hl⟩, he⟩)
    · exact ⟨log, [], rfl, not_mem_nil⟩
    · refine ⟨l₁, l₂ ++ [e], by simp, ?_⟩
      rw [mem_append, not_or, List.mem_singleton]
      exact ⟨hl, he.symm⟩

theorem Increasing.concat (h : Increasing log)
    (he : ∀ b q, e = .handedOut b q → ∀ p, Held b p log → p < q) : Increasing (log ++ [e]) := by
  intro l₁ l₂ l₃ b p q heq hl
  rcases eq_nil_or_concat l₃ with rfl | ⟨l, x, rfl⟩
  · rw [← cons_append, ← append_assoc] at heq
    obtain ⟨rfl, hx⟩ := append_inj' heq rfl
    exact he b q (List.singleton_inj.mp hx) p ⟨l₁, l₂, rfl, hl⟩
  · have heq' : log ++ [e] = (l₁ ++ .handedOut b p :: (l₂ ++ .handedOut b q :: l)) ++ [x] := by
      rw [heq]
      simp
    exact h l₁ l₂ l b p q (append_inj' heq' rfl).1 hl

end Traces

/-- What the steps see of the device. -/
@[ext]
structure View where
  lo : ℕ
  hi : ℕ
  per : ℕ
  state : ℕ → BlockState
  erased : ℤ
  current : Option ℕ
  page : ℕ
  seq : ℕ

namespace View

/-- The number of empty blocks. -/
def empties (v : View) : ℕ := ((Finset.Icc v.lo v.hi).filter fun b => v.state b = .empty).card

/-- The view with another state of a block. -/
def set (v : View) (b : ℕ) (s : BlockState) : View := { v with state := update v.state b s }

end View

/-- The block can be given another use: it is neither empty nor the one in allocation. -/
def BlockState.Idle (s : BlockState) : Prop := s ≠ .empty ∧ s ≠ .allocating

instance : DecidablePred Idle := fun _ => inferInstanceAs (Decidable (_ ∧ _))

/-- The steps of the allocation. -/
inductive Step : View → List Event → View → Prop
  | mark {v : View} {b : ℕ} {s : BlockState} (hold : (v.state b).Idle) (hnew : s.Idle) :
      Step v [] (v.set b s)
  | erase {v : View} {b : ℕ} (hb : b ∈ Finset.Icc v.lo v.hi) (hold : (v.state b).Idle) :
      Step v [.erased b] { v.set b .empty with erased := v.erased + 1 }
  | take {v : View} {b : ℕ} (hb : b ∈ Finset.Icc v.lo v.hi) (hold : v.state b = .empty)
      (hnone : v.current = none) :
      Step v [.taken b (v.seq + 1)]
        { v.set b .allocating with
          erased := v.erased - 1, seq := v.seq + 1, current := some b, page := 0 }
  | rewind {v : View} (hnone : v.current = none) : Step v [] { v with page := 0 }
  | handOut {v : View} {b : ℕ} (hcur : v.current = some b) (hpage : v.page + 1 < v.per) :
      Step v [.handedOut b v.page] { v with page := v.page + 1 }
  | handLast {v : View} {b : ℕ} (hcur : v.current = some b) (hpage : v.per ≤ v.page + 1) :
      Step v [.handedOut b v.page]
        { v.set b .full with current := none, page := v.page + 1 }
  | skip {v : View} {b : ℕ} (hcur : v.current = some b) :
      Step v [] { v.set b .full with current := none }

/-- Some steps, with all that happened. -/
inductive Steps : View → List Event → View → Prop
  | nil (v : View) : Steps v [] v
  | snoc {v v' v'' : View} {ev ev' : List Event} (hs : Steps v ev v') (h : Step v' ev' v'') :
      Steps v (ev ++ ev') v''

/-- The counters and the trace fit the states of the blocks. -/
structure Inv (v : View) (log : List Event) : Prop where
  le : v.lo ≤ v.hi
  pos : 0 < v.per
  counted : v.erased = v.empties
  allocating : ∀ b ∈ Finset.Icc v.lo v.hi, v.state b = .allocating → v.current = some b
  current : ∀ b, v.current = some b → b ∈ Finset.Icc v.lo v.hi ∧ v.state b = .allocating ∧
    v.page < v.per ∧ ∀ p, Held b p log → p < v.page
  fresh : ∀ b ∈ Finset.Icc v.lo v.hi, v.state b = .empty → ∀ p, ¬Held b p log
  increasing : Increasing log
  seq_le : ∀ n ∈ seqs log, n ≤ v.seq
  sorted : (seqs log).Pairwise (· < ·)

section Invariant

variable {v v' : View} {log ev : List Event} {b : ℕ} {s : BlockState}

/-- A change at one place changes the number of elements with a property by what it does there. -/
theorem card_filter_update {α β : Type*} [DecidableEq α] {t : Finset α} {f : α → β} {q : β → Prop}
    [DecidablePred q] {a : α} (ha : a ∈ t) (x : β) :
    (t.filter fun i => q (update f a x i)).card + (if q (f a) then 1 else 0) =
      (t.filter fun i => q (f i)).card + if q x then 1 else 0 := by
  have hrest : ((t.erase a).filter fun i => q (update f a x i)) =
      (t.erase a).filter fun i => q (f i) :=
    filter_congr fun i hi => by rw [update_of_ne (ne_of_mem_erase hi)]
  have hcard (g : α → β) : (t.filter fun i => q (g i)).card =
      ((t.erase a).filter fun i => q (g i)).card + if q (g a) then 1 else 0 := by
    conv_lhs => rw [← insert_erase ha, filter_insert]
    split_ifs
    · rw [card_insert_of_notMem (by simp)]
    · rfl
  rw [hcard (update f a x), hcard f, hrest, update_self]
  omega

theorem set_self : (v.set b s).state b = s := update_self ..

theorem set_of_ne {i : ℕ} (h : i ≠ b) : (v.set b s).state i = v.state i := update_of_ne h ..

theorem empties_set (hb : b ∈ Finset.Icc v.lo v.hi) (s : BlockState) :
    (v.set b s).empties + (if v.state b = .empty then 1 else 0) =
      v.empties + if s = .empty then 1 else 0 :=
  card_filter_update (f := v.state) (q := fun s => s = .empty) hb s

/-- Between two other states nothing changes, nor for a number that is not a block. -/
theorem empties_mark (hold : v.state b ≠ .empty) (hnew : s ≠ .empty) :
    (v.set b s).empties = v.empties := by
  by_cases hb : b ∈ Finset.Icc v.lo v.hi
  · have h := empties_set hb s
    rwa [if_neg hold, if_neg hnew] at h
  · refine congrArg Finset.card (filter_congr fun i hi => ?_)
    rw [set_of_ne fun he => hb (by rwa [he] at hi)]

theorem Inv.handOut (h : Inv v log) (hcur : v.current = some b) {n : ℕ} (hpage : v.page + 1 < n) :
    Inv { v with page := v.page + 1, per := n } (log ++ [.handedOut b v.page]) := by
  obtain ⟨hmem, hstate, -, hless⟩ := h.current b hcur
  have hseqs : seqs (log ++ [.handedOut b v.page]) = seqs log := by simp [seqs]
  refine ⟨h.le, zero_lt_of_lt hpage, h.counted, h.allocating, fun i hi => ?_,
    fun i hi hs p hp => ?_,
    ?_, hseqs ▸ h.seq_le, hseqs ▸ h.sorted⟩
  · obtain rfl := Option.some_inj.mp (hcur.symm.trans hi)
    refine ⟨hmem, hstate, hpage, fun p hp => ?_⟩
    obtain hp | ⟨hp, -⟩ := held_concat.mp hp
    · cases hp
      exact lt_succ_self _
    · exact lt_succ_of_lt (hless p hp)
  · obtain hp | ⟨hp, -⟩ := held_concat.mp hp
    · cases hp
      cases hstate.symm.trans hs
    · exact h.fresh i hi hs p hp
  · refine h.increasing.concat fun i q he p hp => ?_
    cases he
    exact hless p hp

theorem Inv.giveUp (h : Inv v log) (hcur : v.current = some b) {n : ℕ} (hn : 0 < n) (page : ℕ) :
    Inv { v.set b .full with current := none, page := page, per := n } log := by
  obtain ⟨hmem, hstate, -, -⟩ := h.current b hcur
  refine ⟨h.le, hn, ?_, fun i hi hs => ?_, fun i hi => (nomatch hi), fun i hi hs => ?_,
    h.increasing,
    h.seq_le, h.sorted⟩
  · have hmark : (v.set b .full).empties = v.empties :=
      empties_mark (by rw [hstate]; decide) (by decide)
    exact h.counted.trans (by rw [← hmark]; rfl)
  · by_cases hib : i = b
    · subst hib
      cases set_self.symm.trans hs
    · have hi' := h.allocating i hi ((set_of_ne hib).symm.trans hs)
      exact absurd (Option.some_inj.mp (hi'.symm.trans hcur)) hib
  · by_cases hib : i = b
    · subst hib
      cases set_self.symm.trans hs
    · exact h.fresh i hi ((set_of_ne hib).symm.trans hs)

/-- Every step keeps the counts right and the sequence numbers rising. -/
theorem Inv.step (h : Inv v log) (hstep : Step v ev v') : Inv v' (log ++ ev) := by
  cases hstep with
  | @mark b s hold hnew =>
    rw [append_nil]
    refine ⟨h.le, h.pos, ?_, fun i hi hs => ?_, fun i hi => ?_, fun i hi hs => ?_, h.increasing,
      h.seq_le, h.sorted⟩
    · rw [empties_mark hold.1 hnew.1]
      exact h.counted
    · by_cases hib : i = b
      · subst hib
        exact absurd (set_self.symm.trans hs) hnew.2
      · exact h.allocating i hi ((set_of_ne hib).symm.trans hs)
    · obtain ⟨hmem, hs, hp⟩ := h.current i hi
      have hib : i ≠ b := fun he => hold.2 (he ▸ hs)
      exact ⟨hmem, (set_of_ne hib).trans hs, hp⟩
    · by_cases hib : i = b
      · subst hib
        exact absurd (set_self.symm.trans hs) hnew.1
      · exact h.fresh i hi ((set_of_ne hib).symm.trans hs)
  | @erase b hb hold =>
    have hseqs : seqs (log ++ [.erased b]) = seqs log := by simp [seqs]
    refine ⟨h.le, h.pos, ?_, fun i hi hs => ?_, fun i hi => ?_, fun i hi hs => ?_, ?_, ?_, ?_⟩
    · have hcard := empties_set hb .empty
      rw [if_neg hold.1, if_pos rfl] at hcard
      have hcount := h.counted
      change v.erased + 1 = ((v.set b .empty).empties : ℤ)
      omega
    · by_cases hib : i = b
      · subst hib
        cases set_self.symm.trans hs
      · exact h.allocating i hi ((set_of_ne hib).symm.trans hs)
    · obtain ⟨hmem, hs, hp, hheld⟩ := h.current i hi
      have hib : i ≠ b := fun he => hold.2 (he ▸ hs)
      refine ⟨hmem, (set_of_ne hib).trans hs, hp, fun p hp => ?_⟩
      obtain hp | ⟨hp, -⟩ := held_concat.mp hp
      · cases hp
      · exact hheld p hp
    · intro p hp
      obtain hp | ⟨hp, hne⟩ := held_concat.mp hp
      · cases hp
      · have hib : i ≠ b := fun he => hne (he ▸ rfl)
        exact h.fresh i hi ((set_of_ne hib).symm.trans hs) p hp
    · exact h.increasing.concat fun _ _ he => by cases he
    · exact hseqs ▸ h.seq_le
    · exact hseqs ▸ h.sorted
  | @take b hb hold hnone =>
    have hseqs : seqs (log ++ [.taken b (v.seq + 1)]) = seqs log ++ [v.seq + 1] := by simp [seqs]
    have hheld (i p : ℕ) : Held i p (log ++ [.taken b (v.seq + 1)]) ↔ Held i p log := by
      simp [held_concat]
    refine ⟨h.le, h.pos, ?_, fun i hi hs => ?_, fun i hi => ?_, fun i hi hs => ?_, ?_, ?_, ?_⟩
    · have hcard := empties_set hb .allocating
      rw [if_pos hold, if_neg (by decide)] at hcard
      have hcount := h.counted
      change v.erased - 1 = ((v.set b .allocating).empties : ℤ)
      omega
    · by_cases hib : i = b
      · rw [hib]
      · rw [h.allocating i hi ((set_of_ne hib).symm.trans hs)] at hnone
        cases hnone
    · obtain rfl := Option.some_inj.mp hi
      refine ⟨hb, set_self, h.pos, fun p hp => ?_⟩
      exact absurd ((hheld _ _).mp hp) (h.fresh _ hb hold p)
    · intro p hp
      by_cases hib : i = b
      · subst hib
        cases set_self.symm.trans hs
      · exact h.fresh i hi ((set_of_ne hib).symm.trans hs) p ((hheld _ _).mp hp)
    · exact h.increasing.concat fun _ _ he => by cases he
    · rw [hseqs]
      intro n hn
      rcases List.mem_append.mp hn with hn | hn
      · exact le_succ_of_le (h.seq_le n hn)
      · exact (List.mem_singleton.mp hn).le
    · rw [hseqs, pairwise_append]
      refine ⟨h.sorted, pairwise_singleton _ _, fun n hn m hm => ?_⟩
      rw [List.mem_singleton.mp hm]
      exact lt_succ_of_le (h.seq_le n hn)
  | rewind hnone =>
    rw [append_nil]
    refine ⟨h.le, h.pos, h.counted, h.allocating, fun i hi => ?_, h.fresh, h.increasing, h.seq_le,
      h.sorted⟩
    cases hnone.symm.trans hi
  | @handOut b hcur hpage => exact h.handOut hcur hpage
  | @handLast b hcur hpage => exact (h.handOut hcur (lt_succ_self _)).giveUp hcur h.pos _
  | @skip b hcur =>
    rw [append_nil]
    exact h.giveUp hcur h.pos _

theorem Inv.steps (h : Inv v log) (hsteps : Steps v ev v') : Inv v' (log ++ ev) := by
  induction hsteps with
  | nil => rwa [append_nil]
  | snoc _ hstep ih =>
    rw [← append_assoc]
    exact ih.step hstep

end Invariant

section Refinement

variable {d d' : Device} {erase : ℕ → Bool} {b : ℕ} {v v' v'' : View} {ev ev' : List Event}
  {r : Device × List Event}

/-- What the steps see of the device. -/
def Device.view (d : Device) : View where
  lo := d.internalStartBlock
  hi := d.internalEndBlock
  per := d.nChunksPerBlock
  state b := (d.blockInfo b).blockState
  erased := d.nErasedBlocks
  current := d.allocationBlock
  page := d.allocationPage
  seq := d.sequenceNumber

theorem Steps.single (h : Step v ev v') : Steps v ev v' := .snoc (.nil v) h

theorem Steps.trans (h : Steps v ev v') (h' : Steps v' ev' v'') : Steps v (ev ++ ev') v'' := by
  induction h' with
  | nil => rwa [append_nil]
  | snoc _ hstep ih =>
    rw [← append_assoc]
    exact ih.snoc hstep

section

variable (d : Device)

theorem view_setBlock (b : ℕ) (f : BlockInfo → BlockInfo) :
    (d.setBlock b f).view = d.view.set b (f (d.blockInfo b)).blockState := by
  simp only [Device.view, Device.setBlock, View.set, View.mk.injEq, true_and, and_true]
  funext i
  by_cases hi : i = b
  · subst hi
    rw [update_self, update_self]
  · rw [update_of_ne hi, update_of_ne hi]

theorem view_clearOldestDirtySequence (bi : BlockInfo) :
    (d.clearOldestDirtySequence bi).view = d.view := by
  unfold Device.clearOldestDirtySequence
  split_ifs <;> rfl

theorem view_markDirty (b : ℕ) : (markDirty b d).view = d.view.set b .dirty := by
  have hset : ((d.clearOldestDirtySequence (d.blockInfo b)).setBlock b fun bi =>
      { bi with blockState := .dirty }).view = d.view.set b .dirty := by
    rw [view_setBlock, view_clearOldestDirtySequence]
  rw [← hset, markDirty]
  split_ifs <;> rfl

theorem markDirty_start (b : ℕ) : (markDirty b d).internalStartBlock = d.internalStartBlock :=
  congrArg View.lo (view_markDirty d b)

theorem markDirty_stop (b : ℕ) : (markDirty b d).internalEndBlock = d.internalEndBlock :=
  congrArg View.hi (view_markDirty d b)

end

/-- What the erase of the checkpoint may do: some steps, which leave alone all that is not part of
the checkpoint. -/
structure Cleaned (d : Device) (r : Device × List Event) : Prop where
  steps : Steps d.view r.2 r.1.view
  start : r.1.internalStartBlock = d.internalStartBlock
  stop : r.1.internalEndBlock = d.internalEndBlock
  others : ∀ i, (d.blockInfo i).blockState ≠ .checkpoint → r.1.blockInfo i = d.blockInfo i

theorem Cleaned.refl (d : Device) : Cleaned d (d, []) := ⟨.nil _, rfl, rfl, fun _ _ => rfl⟩

/-- A round of `yaffs2_CheckpointErase` erases the block, marks it dead, or does nothing. -/
theorem Cleaned.round (h : Cleaned d r) (hb : b ∈ d.blocks) (erase : ℕ → Bool) :
    Cleaned d (checkpointEraseBlock erase r b) := by
  unfold checkpointEraseBlock
  split_ifs with hstate herase
  · refine ⟨h.steps.snoc ?_, h.start, h.stop, fun i hi => ?_⟩
    · have hmem : b ∈ Finset.Icc r.1.view.lo r.1.view.hi := by
        change b ∈ Finset.Icc r.1.internalStartBlock r.1.internalEndBlock
        rw [h.start, h.stop]
        exact hb
      have hidle : (r.1.view.state b).Idle := by
        change Idle (r.1.blockInfo b).blockState
        rw [hstate]
        decide
      have hstep := Step.erase hmem hidle
      have hview := view_setBlock r.1 b fun bi => { bi with blockState := .empty }
      rw [← hview] at hstep
      exact hstep
    · have hne : i ≠ b := fun he => hi (by rw [← h.others i hi, he]; exact hstate)
      exact (update_of_ne hne ..).trans (h.others i hi)
  · refine ⟨?_, h.start, h.stop, fun i hi => ?_⟩
    · rw [← append_nil r.2, view_setBlock]
      refine h.steps.snoc (.mark ?_ (by decide : dead.Idle))
      change Idle (r.1.blockInfo b).blockState
      rw [hstate]
      decide
    · have hne : i ≠ b := fun he => hi (by rw [← h.others i hi, he]; exact hstate)
      exact (update_of_ne hne ..).trans (h.others i hi)
  · exact h

theorem cleaned_foldl {l : List ℕ} (hl : ∀ b ∈ l, b ∈ d.blocks) (h : Cleaned d r)
    (erase : ℕ → Bool) : Cleaned d (l.foldl (checkpointEraseBlock erase) r) := by
  induction l generalizing r with
  | nil => exact h
  | cons b l ih =>
    exact ih (fun i hi => hl i (mem_cons_of_mem _ hi)) (h.round (hl b mem_cons_self) erase)

theorem cleaned_invalidateCheckpoint (d : Device) (erase : ℕ → Bool) :
    Cleaned d (invalidateCheckpoint erase d) := by
  unfold invalidateCheckpoint
  split_ifs
  · have h := cleaned_foldl (l := List.range' d.internalStartBlock
      (d.internalEndBlock + 1 - d.internalStartBlock)) (d := { d with isCheckpointed := false })
      (fun b hb => by
        rw [List.mem_range'_1] at hb
        exact Finset.mem_Icc.mpr (by simp only; omega)) (.refl _) erase
    exact ⟨h.steps, h.start, h.stop, h.others⟩
  · exact .refl d

/-- `yaffs_RetireBlock`. -/
theorem retireBlock_steps (erase : ℕ → Bool) (hb : (d.blockInfo b).blockState = .dirty) :
    Steps d.view (retireBlock erase b d).2 (retireBlock erase b d).1.view := by
  have h := cleaned_invalidateCheckpoint d erase
  rw [retireBlock, view_setBlock, view_clearOldestDirtySequence,
    ← append_nil (invalidateCheckpoint erase d).2]
  refine h.steps.snoc (.mark ?_ (by decide : dead.Idle))
  change Idle ((invalidateCheckpoint erase d).1.blockInfo b).blockState
  rw [h.others b (by rw [hb]; decide), hb]
  decide

/-- `yaffs_BlockBecameDirty` of a block that is neither empty nor in allocation. -/
theorem blockBecameDirty_steps (erase : ℕ → Bool) (hb : b ∈ d.blocks)
    (hidle : (d.blockInfo b).blockState.Idle) :
    Steps d.view (blockBecameDirty erase b d).2 (blockBecameDirty erase b d).1.view := by
  have hdirty : Steps d.view [] (markDirty b d).view := by
    rw [view_markDirty]
    exact .single (.mark hidle (by decide))
  have hstate : ((markDirty b d).blockInfo b).blockState = .dirty :=
    (congrFun (congrArg View.state (view_markDirty d b)) b).trans set_self
  have hclean : Cleaned (markDirty b d) (if ((markDirty b d).blockInfo b).needsRetiring then
      (markDirty b d, []) else invalidateCheckpoint erase (markDirty b d)) := by
    split_ifs
    · exact .refl _
    · exact cleaned_invalidateCheckpoint _ erase
  simp only [blockBecameDirty]
  generalize (if ((markDirty b d).blockInfo b).needsRetiring then
    (markDirty b d, []) else invalidateCheckpoint erase (markDirty b d)) = r at hclean ⊢
  have hkept : (r.1.blockInfo b).blockState = .dirty := by
    rw [hclean.others b (by rw [hstate]; decide), hstate]
  have hsteps : Steps d.view r.2 r.1.view := hdirty.trans hclean.steps
  split_ifs with herase
  · refine hsteps.snoc ?_
    have hmem : b ∈ Finset.Icc r.1.view.lo r.1.view.hi := by
      change b ∈ Finset.Icc r.1.internalStartBlock r.1.internalEndBlock
      rw [hclean.start, hclean.stop, markDirty_start, markDirty_stop]
      exact hb
    have hstep := Step.erase hmem (show (r.1.blockInfo b).blockState.Idle by rw [hkept]; decide)
    have hview := view_setBlock r.1 b fun bi => { bi with
        blockState := .empty
        sequenceNumber := 0
        pagesInUse := 0
        softDeletions := 0
        hasShrinkHeader := false
        skipErasedCheck := true
        gcPrioritise := false
        chunkBits := fun _ => false }
    rw [← hview] at hstep
    exact hstep
  · exact hsteps.trans (retireBlock_steps (d := { r.1 with
      nFreeChunks := r.1.nFreeChunks - r.1.nChunksPerBlock }) erase hkept)

/-- The loop over the blocks finds an empty one and takes it, or changes only the finder. -/
theorem findEmpty_cases (n : ℕ) (d : Device) (hle : d.internalStartBlock ≤ d.internalEndBlock) :
    (∃ f, findEmpty n d = (none, { d with allocationBlockFinder := f })) ∨
      ∃ f b, b ∈ d.blocks ∧ (d.blockInfo b).blockState = .empty ∧
        findEmpty n d = (some b, takeBlock b { d with allocationBlockFinder := f }) := by
  induction n generalizing d with
  | zero => exact .inl ⟨_, rfl⟩
  | succ n ih =>
    simp only [findEmpty]
    split_ifs with hempty
    · refine .inr ⟨_, _, ?_, hempty, rfl⟩
      rw [Device.blocks, mem_Icc]
      unfold Device.nextFinder
      split_ifs <;> omega
    · exact ih { d with allocationBlockFinder := d.nextFinder } hle

theorem view_takeBlock (d : Device) (b : ℕ) (hseq : d.sequenceNumber + 1 < 2 ^ 32) :
    ((takeBlock b d).allocateFrom b).view = { d.view.set b .allocating with
      erased := d.nErasedBlocks - 1, seq := d.sequenceNumber + 1, current := some b,
      page := 0 } := by
  have hset := congrArg View.state (view_setBlock d b fun bi => { bi with
    blockState := .allocating, sequenceNumber := (d.sequenceNumber + 1) % 2 ^ 32 })
  ext1
  case state => exact hset
  case seq => exact mod_eq_of_lt hseq
  all_goals rfl

/-- `yaffs_AllocateChunk` keeps its block or takes a new one, if the sequence number does not
wrap. -/
theorem getBlock_steps (hle : d.internalStartBlock ≤ d.internalEndBlock)
    (hseq : d.allocationBlock = none → d.sequenceNumber + 1 < 2 ^ 32) :
    Steps d.view (getBlock d).2 (getBlock d).1.view ∧ (getBlock d).1.nFreeChunks = d.nFreeChunks ∧
      (getBlock d).1.nChunksPerBlock = d.nChunksPerBlock ∧
      ∀ b p, .handedOut b p ∉ (getBlock d).2 := by
  unfold getBlock
  cases hcur : d.allocationBlock with
  | some b => exact ⟨.nil _, rfl, rfl, fun _ _ => not_mem_nil⟩
  | none =>
    have hseq := hseq hcur
    have hnone : d.view.current = none := hcur
    simp only [findBlockForAllocation]
    split_ifs
    · exact ⟨.single (.rewind hnone), rfl, rfl, fun _ _ => not_mem_nil⟩
    · rcases findEmpty_cases (d.internalEndBlock + 1 - d.internalStartBlock) d hle with
        ⟨f, heq⟩ | ⟨f, b, hb, hempty, heq⟩
      · rw [heq]
        exact ⟨.single (.rewind hnone), rfl, rfl, fun _ _ => not_mem_nil⟩
      · rw [heq]
        refine ⟨.single ?_, rfl, rfl, fun _ _ => by simp⟩
        have hview := view_takeBlock { d with allocationBlockFinder := f } b hseq
        have hnew : (takeBlock b { d with allocationBlockFinder := f }).sequenceNumber =
            d.sequenceNumber + 1 := mod_eq_of_lt hseq
        simp only [hnew]
        rw [hview]
        exact Step.take (v := d.view) hb hempty hnone

/-- `yaffs_AllocateChunk` hands out the next page of its block. -/
theorem nextPage_step (hcur : d.allocationBlock = some b) :
    Step d.view [.handedOut b d.allocationPage] (nextPage b d).view := by
  obtain ⟨d₁, hd₁⟩ : ∃ d₁, d₁ = { d.setBlock b (fun bi => { bi with
      pagesInUse := bi.pagesInUse + 1
      chunkBits := update bi.chunkBits d.allocationPage true }) with
    allocationPage := d.allocationPage + 1
    nFreeChunks := d.nFreeChunks - 1 } := ⟨_, rfl⟩
  have hview : d₁.view = { d.view with page := d.allocationPage + 1 } := by
    have hset := view_setBlock d b fun bi => { bi with
      pagesInUse := bi.pagesInUse + 1
      chunkBits := update bi.chunkBits d.allocationPage true }
    rw [hd₁]
    ext1
    case state => exact (congrArg View.state hset).trans (update_eq_self b d.view.state)
    all_goals rfl
  have hnext : nextPage b d = if d₁.allocationPage ≥ d₁.nChunksPerBlock then
      { d₁.setBlock b (fun bi => { bi with blockState := .full }) with allocationBlock := none }
    else d₁ := by rw [hd₁]; rfl
  have hfull := view_setBlock d₁ b fun bi => { bi with blockState := .full }
  rw [hnext]
  split_ifs with hpage
  · have hlast : ({ d₁.setBlock b (fun bi => { bi with blockState := .full }) with
        allocationBlock := none } : Device).view =
          { d.view.set b .full with current := none, page := d.allocationPage + 1 } := by
      rw [hview] at hfull
      exact congrArg (fun v : View => { v with current := none }) hfull
    rw [hlast]
    rw [hd₁] at hpage
    exact .handLast hcur hpage
  · rw [hview]
    rw [hd₁] at hpage
    exact .handOut hcur (Nat.lt_of_not_le hpage)

/-- What `yaffs_AllocateChunk` does: it hands out a page of a block, and there is one free chunk
less; or it returns -1. -/
inductive Allocated (d : Device) : ℤ × Device × List Event → Prop
  | handedOut {d' : Device} {ev : List Event} (b p : ℕ) (hpage : p < d.nChunksPerBlock)
      (hfree : d'.nFreeChunks = d.nFreeChunks - 1) (hno : ∀ b p, .handedOut b p ∉ ev) :
      Allocated d (b * d.nChunksPerBlock + p, d', ev ++ [.handedOut b p])
  | failed {d' : Device} {ev : List Event} (hfree : d'.nFreeChunks = d.nFreeChunks)
      (hno : ∀ b p, .handedOut b p ∉ ev) : Allocated d (-1, d', ev)

theorem allocateChunk_steps {log : List Event} (h : Inv d.view log)
    (hseq : d.allocationBlock = none → d.sequenceNumber + 1 < 2 ^ 32) (useReserve : Bool)
    (checkpointBlocks : ℤ) :
    Steps d.view (allocateChunk useReserve checkpointBlocks d).2.2
        (allocateChunk useReserve checkpointBlocks d).2.1.view ∧
      Allocated d (allocateChunk useReserve checkpointBlocks d) := by
  obtain ⟨hsteps, hfree, hper, hno⟩ := getBlock_steps h.le hseq
  simp only [allocateChunk]
  split_ifs
  · exact ⟨hsteps, .failed hfree hno⟩
  · cases hcur : (getBlock d).1.allocationBlock with
    | none => exact ⟨hsteps, .failed hfree hno⟩
    | some b =>
      refine ⟨hsteps.snoc (nextPage_step hcur), ?_⟩
      obtain ⟨-, -, hpage, -⟩ := (h.steps hsteps).current b hcur
      simp only [hper]
      refine .handedOut b _ (hper ▸ hpage) ?_ hno
      rw [← hfree]
      simp only [nextPage]
      split_ifs <;> rfl

theorem skipRestOfBlock_steps (d : Device) : Steps d.view [] (skipRestOfBlock d).view := by
  unfold skipRestOfBlock
  cases hcur : d.allocationBlock with
  | none => exact .nil _
  | some b =>
    simp only
    split_ifs
    · have hstep := Step.skip (v := d.view) hcur
      have hview := view_setBlock d b fun bi => { bi with blockState := .full }
      rw [← hview] at hstep
      exact .single hstep
    · exact .nil _

end Refinement

/-- The calls of the allocation. -/
inductive Op
  | allocateChunk (useReserve : Bool) (checkpointBlocks : ℤ)
  | skipRestOfBlock
  | blockBecameDirty (blockNo : ℕ) (erase : ℕ → Bool)

/-- The device after a call, and what happened. -/
def Op.exec (d : Device) : Op → Device × List Event
  | .allocateChunk useReserve checkpointBlocks =>
    (Yaffs.allocateChunk useReserve checkpointBlocks d).2
  | .skipRestOfBlock => (Yaffs.skipRestOfBlock d, [])
  | .blockBecameDirty blockNo erase => Yaffs.blockBecameDirty erase blockNo d

/-- The call does not let the sequence number wrap, and a block that became dirty is neither empty
nor in allocation. -/
def Op.Safe (d : Device) : Op → Prop
  | .allocateChunk _ _ => d.allocationBlock = none → d.sequenceNumber + 1 < 2 ^ 32
  | .skipRestOfBlock => True
  | .blockBecameDirty blockNo _ => blockNo ∈ d.blocks ∧ (d.blockInfo blockNo).blockState.Idle

/-- Some calls, with all that happened. -/
def run : List Op → Device → Device × List Event
  | [], d => (d, [])
  | op :: ops, d => ((run ops (op.exec d).1).1, (op.exec d).2 ++ (run ops (op.exec d).1).2)

/-- Every call of a run is safe. -/
def Safe : List Op → Device → Prop
  | [], _ => True
  | op :: ops, d => op.Safe d ∧ Safe ops (op.exec d).1

/-- A scanned device: the empty blocks are counted, and only the block to allocate from is in
allocation. -/
structure Scanned (d : Device) : Prop where
  le : d.internalStartBlock ≤ d.internalEndBlock
  pos : 0 < d.nChunksPerBlock
  counted : d.nErasedBlocks = d.emptyBlocks
  allocating : ∀ b ∈ d.blocks, (d.blockInfo b).blockState = .allocating → d.allocationBlock = some b
  current : ∀ b, d.allocationBlock = some b → b ∈ d.blocks ∧
    (d.blockInfo b).blockState = .allocating ∧ d.allocationPage < d.nChunksPerBlock

section Runs

variable {d : Device} {log : List Event}

theorem Inv.exec (h : Inv d.view log) {op : Op} (hsafe : op.Safe d) :
    Inv (op.exec d).1.view (log ++ (op.exec d).2) := by
  cases op with
  | allocateChunk useReserve checkpointBlocks =>
    exact h.steps (allocateChunk_steps h hsafe useReserve checkpointBlocks).1
  | skipRestOfBlock => exact h.steps (skipRestOfBlock_steps d)
  | blockBecameDirty blockNo erase => exact h.steps (blockBecameDirty_steps erase hsafe.1 hsafe.2)

theorem Inv.run (h : Inv d.view log) {ops : List Op} (hsafe : Safe ops d) :
    Inv (run ops d).1.view (log ++ (run ops d).2) := by
  induction ops generalizing d log with
  | nil => rwa [Yaffs.run, append_nil]
  | cons op ops ih =>
    rw [Yaffs.run, ← append_assoc]
    exact ih (h.exec hsafe.1) hsafe.2

theorem Scanned.inv (h : Scanned d) : Inv d.view [] where
  le := h.le
  pos := h.pos
  counted := h.counted
  allocating := h.allocating
  current b hb := by
    obtain ⟨hmem, hstate, hpage⟩ := h.current b hb
    exact ⟨hmem, hstate, hpage, fun p ⟨l₁, l₂, heq, _⟩ => by simp at heq⟩
  fresh _ _ _ _ := fun ⟨l₁, l₂, heq, _⟩ => by simp at heq
  increasing l₁ l₂ l₃ b p q heq := by simp at heq
  seq_le _ hn := by simp [seqs] at hn
  sorted := List.Pairwise.nil

end Runs

/-- In every run from a scanned device in which no block that is empty or in allocation is declared
dirty, and in which the sequence number does not wrap: the empty blocks are counted, only the block
to allocate from is in allocation, the pages of a block are handed out in increasing order until it
is erased, the blocks are taken with increasing sequence numbers, and a chunk that is allocated is
one free chunk less. -/
theorem allocation_in_order (d : Device) (hscan : Scanned d) (ops : List Op) (hsafe : Safe ops d) :
    (run ops d).1.nErasedBlocks = (run ops d).1.emptyBlocks ∧
    (∀ b ∈ (run ops d).1.blocks, ((run ops d).1.blockInfo b).blockState = .allocating →
      (run ops d).1.allocationBlock = some b) ∧
    Increasing (run ops d).2 ∧ (seqs (run ops d).2).Pairwise (· < ·) ∧
    ∀ useReserve checkpointBlocks, Op.Safe (run ops d).1
      (.allocateChunk useReserve checkpointBlocks) →
      Allocated (run ops d).1 (allocateChunk useReserve checkpointBlocks (run ops d).1) := by
  have h := hscan.inv.run hsafe
  rw [nil_append] at h
  exact ⟨h.counted, h.allocating, h.increasing, h.sorted, fun useReserve checkpointBlocks hop =>
    (allocateChunk_steps h hop useReserve checkpointBlocks).2⟩

/-- A device with two empty blocks of two chunks each. -/
def twoBlocks : Device where
  internalStartBlock := 1
  internalEndBlock := 2
  nChunksPerBlock := 2
  nReservedBlocks := 0
  isYaffs2 := true
  blockInfo _ := ⟨.empty, 0, 0, 0, false, false, false, false, fun _ => false⟩
  nErasedBlocks := 2
  nFreeChunks := 4
  allocationBlock := none
  allocationPage := 0
  allocationBlockFinder := 0
  sequenceNumber := 4096
  gcBlock := 0
  gcDirtiest := 0
  gcPagesInUse := 0
  oldestDirtySequence := 0
  oldestDirtyBlock := 0
  isCheckpointed := false
  blocksInCheckpoint := 0

theorem scanned_twoBlocks : Scanned twoBlocks :=
  ⟨by decide, by decide, by decide, fun _ _ h => (nomatch h), fun _ h => (nomatch h)⟩

/-- Both chunks of a block are allocated, and the block is erased. -/
theorem allocation_in_order_twoBlocks :
    Increasing (run [.allocateChunk true 0, .allocateChunk true 0,
      .blockBecameDirty 1 fun _ => true]
      twoBlocks).2 :=
  (allocation_in_order twoBlocks scanned_twoBlocks
    [.allocateChunk true 0, .allocateChunk true 0, .blockBecameDirty 1 fun _ => true]
    ⟨fun _ => by decide, fun _ => by decide, ⟨by decide, by decide⟩, trivial⟩).2.2.1

/-- An empty block that is declared dirty is counted twice. -/
theorem empty_block_counted_twice : Scanned twoBlocks ∧
    (run [.blockBecameDirty 1 fun _ => true] twoBlocks).1.nErasedBlocks = 3 ∧
    (run [.blockBecameDirty 1 fun _ => true] twoBlocks).1.emptyBlocks = 2 :=
  ⟨scanned_twoBlocks, by decide, by decide⟩

/-- A block declared dirty while in allocation is filled and still counted as erased. -/
theorem allocating_block_counted_erased :
    let d := (run [.allocateChunk true 0, .blockBecameDirty 1 fun _ => true, .allocateChunk true 0]
      twoBlocks).1
    d.nErasedBlocks = 2 ∧ d.emptyBlocks = 1 := by
  decide

/-- The sequence numbers wrap. -/
theorem sequence_number_wraps :
    seqs (run [.allocateChunk true 0, .allocateChunk true 0, .allocateChunk true 0]
      { twoBlocks with sequenceNumber := 2 ^ 32 - 2 }).2 = [2 ^ 32 - 1, 0] := by
  decide

end AndroidKernel.Yaffs
