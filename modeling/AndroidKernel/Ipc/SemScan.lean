import AndroidKernel.Ipc.SemTry

/-!
# Walking the queues

The two kinds of lists agree, operations that wait for zero stand first, and single operations that
wait are no increments. With this, a walk of `update_queue` that ends without a restart leaves no
operation in its list that could be woken.
-/

namespace AndroidKernel.Ipc

open Function List Queue SemArray AndroidKernel.Ipc.Core

/-- The operation is a single one on the semaphore `n`. -/
def Queue.single (n : ℕ) (q : Queue) : Bool :=
  match q.sops with
  | [sop] => sop.semNum = n
  | _ => false

theorem Queue.single_iff {n : ℕ} {q : Queue} :
    q.single n ↔ ∃ sop, q.sops = [sop] ∧ sop.semNum = n := by
  unfold single
  split
  · rename_i sop hsop
    simp [hsop]
  · rename_i hne
    simp only [Bool.false_eq_true, false_iff, not_exists, not_and]
    exact fun sop hsop => absurd hsop (hne sop)

/-- What holds of the lists at any time. -/
structure SemArray.WellFormed (sma : SemArray) : Prop where
  core_ok : sma.core.Ok
  nodup : (sma.semPending.map task).Nodup
  simple : ∀ n, sma.simplePending n = sma.semPending.filter (single n)
  count : sma.complexCount = (sma.semPending.countP fun q => q.sops.length ≠ 1 : ℕ)
  /-- Operations that alter nothing come first. -/
  order : sma.semPending.Pairwise fun a b => altering b.sops = false → altering a.sops = false
  decrement : ∀ q ∈ sma.semPending, ∀ sop, q.sops = [sop] → sop.semOp ≤ 0 ∧ sop.nowait = false

/-- Every operation that was woken was tried in the state that the ones before it left, with that
result, and was then taken off the lists. -/
inductive SemArray.Moves : SemArray → Woken → SemArray → Prop where
  | nil (sma : SemArray) : Moves sma [] sma
  | cons {sma sma' : SemArray} {woken : Woken} (q : Queue) (hmem : q ∈ sma.semPending)
      (hcode : sma.core.code q ≤ 0)
      (hrest : Moves ({ sma with core := sma.core.after q }.unlinkQueue q) woken sma') :
      Moves sma ((q, sma.core.code q) :: woken) sma'

namespace SemArray

variable {sma : SemArray} {q : Queue} {n : ℕ} {sop : Sembuf} {qs : List Queue} {semnum : Option ℕ}
  {woken woken' : Woken} {sma' sma₁ sma₂ sma₃ : SemArray}

theorem unlinkQueue_core (sma : SemArray) (q : Queue) : (sma.unlinkQueue q).core = sma.core := by
  unfold unlinkQueue
  simp only
  split <;> rfl

theorem unlinkQueue_semPending (sma : SemArray) (q : Queue) :
    (sma.unlinkQueue q).semPending = sma.semPending.erase q := by
  unfold unlinkQueue
  simp only
  split <;> rfl

section

variable (h : sma.WellFormed)
include h

theorem WellFormed.semPending_nodup : sma.semPending.Nodup := h.nodup.of_map _

theorem WellFormed.unlinkQueue (hq : q ∈ sma.semPending) : (sma.unlinkQueue q).WellFormed := by
  have hsub : (sma.semPending.erase q).Sublist sma.semPending := erase_sublist
  refine ⟨?_, ?_, ?_, ?_, ?_, ?_⟩
  · rw [unlinkQueue_core]
    exact h.core_ok
  · rw [unlinkQueue_semPending]
    exact h.nodup.sublist (hsub.map _)
  · intro n
    rw [unlinkQueue_semPending]
    have hfilter : (sma.semPending.erase q).filter (single n) =
        (sma.semPending.filter (single n)).erase q := (erase_filter ..).symm
    rw [hfilter]
    unfold SemArray.unlinkQueue
    simp only
    split
    · rename_i sop hsop
      by_cases hn : n = sop.semNum
      · subst hn
        simp [h.simple]
      · have hnot : q ∉ sma.semPending.filter (single n) := by
          simp only [mem_filter, not_and, Bool.not_eq_true]
          intro _
          simp [single, hsop, Ne.symm hn]
        simp [update_of_ne hn, h.simple, erase_of_not_mem hnot]
    · rename_i hne
      have hnot : q ∉ sma.semPending.filter (single n) := by
        simp only [mem_filter, not_and, Bool.not_eq_true]
        intro _
        cases hs : q.single n with
        | false => rfl
        | true =>
          obtain ⟨sop, hsop, -⟩ := single_iff.mp hs
          exact absurd hsop (hne sop)
      rw [erase_of_not_mem hnot]
      exact h.simple n
  · rw [unlinkQueue_semPending]
    have hperm := perm_cons_erase hq
    have hcount := hperm.countP_eq fun q => decide (q.sops.length ≠ 1)
    have hold := h.count
    unfold SemArray.unlinkQueue
    simp only
    split
    · rename_i sop hsop
      rw [countP_cons_of_neg (by simp [hsop])] at hcount
      rw [hold, hcount]
    · rename_i hne
      have hlen : q.sops.length ≠ 1 := by
        intro hlen
        obtain ⟨sop, hsop⟩ := List.length_eq_one_iff.mp hlen
        exact hne sop hsop
      rw [countP_cons_of_pos (by simpa using hlen)] at hcount
      rw [hold, hcount]
      simp
  · rw [unlinkQueue_semPending]
    exact h.order.sublist hsub
  · rw [unlinkQueue_semPending]
    exact fun q' hq' => h.decrement q' (hsub.subset hq')

theorem WellFormed.wake (hq : q ∈ sma.semPending) :
    ({ sma with core := sma.core.after q }.unlinkQueue q).WellFormed := by
  have hcore : ({ sma with core := sma.core.after q } : SemArray).WellFormed :=
    { h with core_ok := h.core_ok.after q }
  exact hcore.unlinkQueue hq

theorem WellFormed.all_single (hcount : sma.complexCount = 0) (hq : q ∈ sma.semPending) :
    ∃ sop, q.sops = [sop] := by
  rw [h.count] at hcount
  have hzero : sma.semPending.countP (fun q => q.sops.length ≠ 1) = 0 := by exact_mod_cast hcount
  rw [countP_eq_zero] at hzero
  have := hzero q hq
  simp only [ne_eq, decide_not, Bool.not_eq_true', decide_eq_false_iff_not, not_not] at this
  exact List.length_eq_one_iff.mp this

theorem WellFormed.mem_simple :
    q ∈ sma.simplePending n ↔ q ∈ sma.semPending ∧ ∃ sop, q.sops = [sop] ∧ sop.semNum = n := by
  rw [h.simple, mem_filter, single_iff]

theorem WellFormed.op_neg (hq : q ∈ sma.semPending) (hsop : q.sops = [sop])
    (halter : altering q.sops = true) : sop.semOp < 0 := by
  have hle := (h.decrement q hq sop hsop).1
  have hne : sop.semOp ≠ 0 := by
    rw [hsop] at halter
    simpa [altering] using halter
  omega

/-- In the list of a semaphore, behind an altering operation there are only such. -/
theorem WellFormed.altering_of_head {q' : Queue} (hsub : (q :: qs).Sublist (sma.simplePending n))
    (halter : altering q.sops = true) (hq' : q' ∈ q :: qs) : altering q'.sops = true := by
  obtain rfl | hq' := List.mem_cons.mp hq'
  · exact halter
  · rw [h.simple] at hsub
    have hpair := (h.order.sublist filter_sublist).sublist hsub
    by_contra hnot
    have := (List.pairwise_cons.mp hpair).1 q' hq' (by simpa using hnot)
    rw [halter] at this
    cases this

theorem WellFormed.blocks_of_zero (hq : q ∈ sma.semPending) (hsop : q.sops = [sop])
    (halter : altering q.sops = true) (hzero : sma.core.semval sop.semNum = 0) :
    sma.core.Blocks q := by
  rw [blocks_single hsop]
  refine ⟨(h.decrement q hq sop hsop).2, .inr ?_⟩
  have := h.op_neg hq hsop halter
  omega

/-- `check_restart` meets no `BUG_ON`, and when it says no, then no operation that would have waited
before could be woken now. -/
theorem WellFormed.checkRestart (hq : q ∈ sma.semPending) (hcode : sma.core.code q = 0) :
    ∃ restart, ({ sma with core := sma.core.after q }.unlinkQueue q).checkRestart q = some restart ∧
      (restart = false → ∀ q' ∈ sma.semPending.erase q, sma.core.Blocks q' →
        (sma.core.after q).Blocks q') := by
  have hw := h.wake hq
  set sma' := { sma with core := sma.core.after q }.unlinkQueue q
  have hcore : sma'.core = sma.core.after q := unlinkQueue_core ..
  have hpending : sma'.semPending = sma.semPending.erase q := unlinkQueue_semPending ..
  unfold SemArray.checkRestart
  by_cases halter : altering q.sops = false
  · refine ⟨false, if_pos halter, fun _ q' _ hblocks => ?_⟩
    unfold Blocks
    rwa [code_after_of_not_altering h.core_ok halter]
  rw [if_neg halter]
  by_cases hcount : sma'.complexCount ≠ 0
  · exact ⟨true, if_pos hcount, fun hf => by cases hf⟩
  rw [if_neg hcount]
  rw [not_not] at hcount
  rw [Bool.not_eq_false] at halter
  split
  · rename_i sop hsop
    have hneg := h.op_neg hq hsop halter
    have hval := after_single hsop hcode
    -- Only the value of this semaphore has changed.
    have hother : ∀ q' ∈ sma.semPending.erase q, ∀ sop', q'.sops = [sop'] →
        sop'.semNum ≠ sop.semNum → sma.core.Blocks q' → (sma.core.after q).Blocks q' := by
      intro q' _ sop' hsop' hne hblocks
      rw [blocks_single hsop'] at hblocks ⊢
      rwa [hval, update_of_ne hne]
    cases hlist : sma'.simplePending sop.semNum with
    | nil =>
      refine ⟨false, rfl, fun _ q' hq' hblocks => ?_⟩
      obtain ⟨sop', hsop'⟩ := hw.all_single hcount (hpending ▸ hq')
      refine hother q' hq' sop' hsop' (fun heq => ?_) hblocks
      have hmem := hw.mem_simple.mpr ⟨hpending ▸ hq', sop', hsop', heq⟩
      rw [hlist] at hmem
      cases hmem
    | cons head rest =>
      have hhead := hw.mem_simple.mp (hlist ▸ mem_cons_self .. :
        head ∈ sma'.simplePending sop.semNum)
      obtain ⟨hheadmem, hsop₁, hhsop, hnum⟩ := hhead
      simp only
      by_cases hzero : sma'.core.semval sop.semNum ≠ 0
      · rw [if_pos hzero, if_neg (by omega)]
        refine ⟨false, rfl, fun _ q' hq' hblocks => ?_⟩
        obtain ⟨sop', hsop'⟩ := hw.all_single hcount (hpending ▸ hq')
        by_cases heq : sop'.semNum = sop.semNum
        · rw [blocks_single hsop'] at hblocks ⊢
          rw [hcore] at hzero
          rw [heq] at hblocks ⊢
          rw [hval, update_self] at hzero ⊢
          refine ⟨hblocks.1, ?_⟩
          omega
        · exact hother q' hq' sop' hsop' heq hblocks
      · rw [if_neg hzero]
        rw [not_not, hcore] at hzero
        rw [hhsop]
        simp only [hnum, ne_eq, not_true_eq_false, if_false]
        refine ⟨_, rfl, fun hrestart q' hq' hblocks => ?_⟩
        obtain ⟨sop', hsop'⟩ := hw.all_single hcount (hpending ▸ hq')
        by_cases heq : sop'.semNum = sop.semNum
        · have halter' : altering q'.sops = true := by
            have hsub : (head :: rest).Sublist (sma'.simplePending sop.semNum) := by rw [hlist]
            refine hw.altering_of_head hsub ?_ ?_
            · rw [hhsop]
              simpa [altering] using hrestart
            · rw [← hlist]
              exact hw.mem_simple.mpr ⟨hpending ▸ hq', sop', hsop', heq⟩
          have := hw.blocks_of_zero (hpending ▸ hq') hsop' halter' (by rw [hcore, heq]; exact hzero)
          rwa [hcore] at this
        · exact hother q' hq' sop' hsop' heq hblocks
  · exact ⟨true, rfl, fun hf => by cases hf⟩

end

/-- The operations in the list that is walked. -/
def InList (semnum : Option ℕ) (q : Queue) : Prop := ∀ n, semnum = some n → q.single n = true

theorem WellFormed.mem_pendingList (h : sma.WellFormed) :
    q ∈ sma.pendingList semnum ↔ q ∈ sma.semPending ∧ InList semnum q := by
  cases semnum with
  | none => simp [pendingList, InList]
  | some n => simp [pendingList, InList, h.simple]

/-- What a walk does. -/
structure Walked (semnum : Option ℕ) (sma : SemArray) (woken : Woken) (sma' : SemArray) : Prop where
  wellFormed : sma'.WellFormed
  moves : sma.Moves woken sma'
  /-- In the list of one semaphore only that one is altered, and only that list. -/
  other : ∀ n, semnum = some n → (∀ m, m ≠ n → sma'.core.semval m = sma.core.semval m) ∧
    ∀ q ∈ sma.semPending, q.single n = false → q ∈ sma'.semPending

theorem WellFormed.pendingList_wake (h : sma.WellFormed) (hq : q ∈ sma.semPending)
    (semnum : Option ℕ) :
    ({ sma with core := sma.core.after q }.unlinkQueue q).pendingList semnum =
      (sma.pendingList semnum).erase q := by
  have hw := h.wake hq
  cases semnum with
  | none => exact unlinkQueue_semPending ..
  | some n =>
    simp only [pendingList]
    rw [hw.simple, h.simple, unlinkQueue_semPending]
    exact (erase_filter ..).symm

theorem Walked.cons (hq : q ∈ sma.semPending) (hlist : InList semnum q)
    (hcode : sma.core.code q ≤ 0)
    (hw : Walked semnum ({ sma with core := sma.core.after q }.unlinkQueue q) woken sma') :
    Walked semnum sma ((q, sma.core.code q) :: woken) sma' := by
  refine ⟨hw.wellFormed, .cons q hq hcode hw.moves, fun n hn => ?_⟩
  obtain ⟨hval, hmem⟩ := hw.other n hn
  refine ⟨fun m hm => ?_, fun q' hq' hother => ?_⟩
  · rw [hval m hm, unlinkQueue_core]
    by_cases hzero : sma.core.code q = 0
    · obtain ⟨sop, hsop, rfl⟩ := single_iff.mp (hlist n hn)
      simp only [after_single hsop hzero]
      exact update_of_ne hm _ _
    · simp only [after_of_code_ne hzero]
  · refine hmem q' ?_ hother
    rw [unlinkQueue_semPending]
    refine (mem_erase_of_ne fun heq => ?_).mpr hq'
    rw [heq, hlist n hn] at hother
    cases hother

theorem WellFormed.walk (semnum : Option ℕ) (woken : Woken) (h : sma.WellFormed)
    (hsub : qs.Sublist (sma.pendingList semnum))
    (hblocks : ∀ q ∈ sma.semPending, InList semnum q → q ∉ qs → sma.core.Blocks q) :
    ∃ sma' woken' again, walk semnum sma woken qs = some (sma', woken ++ woken', again) ∧
      Walked semnum sma woken' sma' ∧ (again = true → woken' ≠ []) ∧
      (again = false → ∀ q ∈ sma'.semPending, InList semnum q → sma'.core.Blocks q) := by
  induction qs generalizing sma woken with
  | nil =>
    refine ⟨sma, [], false, by simp [walk], ⟨h, .nil sma, fun _ _ => ⟨fun _ _ => rfl,
      fun _ hq _ => hq⟩⟩, by simp, fun _ q hq hlist => hblocks q hq hlist ?_⟩
    exact not_mem_nil
  | cons q qs ih =>
    have hqlist : q ∈ sma.pendingList semnum := hsub.subset (mem_cons_self ..)
    obtain ⟨hq, hinlist⟩ := h.mem_pendingList.mp hqlist
    rw [walk]
    split_ifs with hbreak
    · -- The value is zero, and only decrements are left.
      refine ⟨sma, [], false, by simp, ⟨h, .nil sma, fun _ _ => ⟨fun _ _ => rfl,
        fun _ hq _ => hq⟩⟩, by simp, fun _ q' hq' hlist' => ?_⟩
      by_cases hmem : q' ∈ q :: qs
      · cases semnum with
        | none => simp at hbreak
        | some n =>
          simp only [Option.any_some, decide_eq_true_eq] at hbreak
          obtain ⟨sop', hsop', rfl⟩ := single_iff.mp (hlist' n rfl)
          exact h.blocks_of_zero hq' hsop' (h.altering_of_head hsub hbreak.2 hmem) hbreak.1
      · exact hblocks q' hq' hlist' hmem
    · have hcode : (sma.core.tryAtomicSemop q.sops q.undo q.pid) =
          (sma.core.code q, sma.core.after q) := rfl
      simp only [hcode]
      have hsub' : qs.Sublist (({ sma with core := sma.core.after q }.unlinkQueue q).pendingList
          semnum) := by
        rw [h.pendingList_wake hq]
        simpa using hsub.erase q
      -- What waited before the operation was tried, and still is on the lists.
      have hold : ∀ q' ∈ sma.semPending.erase q, InList semnum q' → q' ∉ qs →
          sma.core.Blocks q' := by
        intro q' hq' hlist' hmem
        have hmem' := (h.semPending_nodup.mem_erase_iff).mp hq'
        exact hblocks q' hmem'.2 hlist' (by simp [hmem'.1, hmem])
      split_ifs with hpos hne
      · -- It still has to sleep.
        have hsame : sma.core.after q = sma.core := after_of_code_ne (by omega)
        simp only [hsame]
        refine ih woken h ((sublist_cons_self ..).trans hsub) fun q' hq' hlist' hmem => ?_
        by_cases heq : q' = q
        · exact heq ▸ hpos
        · exact hblocks q' hq' hlist' (by simp [heq, hmem])
      · -- It fails.
        have hsame : sma.core.after q = sma.core := after_of_code_ne hne
        obtain ⟨sma', woken', again, hrun, hwalked, hagain, hdone⟩ :=
          ih (woken ++ [(q, sma.core.code q)]) (h.wake hq) hsub' (by
            rw [unlinkQueue_semPending, unlinkQueue_core]
            simp only [hsame]
            exact hold)
        exact ⟨sma', (q, sma.core.code q) :: woken', again, by simpa using hrun,
          hwalked.cons hq hinlist (by omega), by simp, hdone⟩
      · -- It succeeds.
        rw [not_not] at hne
        obtain ⟨restart, hrestart, hkeep⟩ := h.checkRestart hq hne
        simp only [hrestart, Option.bind_eq_bind, Option.bind_some]
        cases restart with
        | true =>
          refine ⟨_, [(q, sma.core.code q)], true, rfl, ?_, by simp, by simp⟩
          exact Walked.cons hq hinlist (by omega) ⟨h.wake hq, .nil _, fun _ _ => ⟨fun _ _ => rfl,
            fun _ hq _ => hq⟩⟩
        | false =>
          obtain ⟨sma', woken', again, hrun, hwalked, hagain, hdone⟩ :=
            ih (woken ++ [(q, sma.core.code q)]) (h.wake hq) hsub' (by
              rw [unlinkQueue_semPending, unlinkQueue_core]
              exact fun q' hq' hlist' hmem => hkeep rfl q' hq' (hold q' hq' hlist' hmem))
          exact ⟨sma', (q, sma.core.code q) :: woken', again, by simpa using hrun,
            hwalked.cons hq hinlist (by omega), by simp, hdone⟩

theorem Moves.trans (h : sma₁.Moves woken sma₂) (h' : sma₂.Moves woken' sma₃) :
    sma₁.Moves (woken ++ woken') sma₃ := by
  induction h with
  | nil => exact h'
  | cons q hmem hcode _ ih => exact .cons q hmem hcode (ih h')

theorem Moves.length (h : sma.Moves woken sma') :
    sma'.semPending.length + woken.length = sma.semPending.length := by
  induction h with
  | nil => rfl
  | cons q hmem hcode _ ih =>
    rw [unlinkQueue_semPending, length_erase_of_mem hmem] at ih
    have := length_pos_of_mem hmem
    simp only [length_cons]
    omega

theorem Walked.trans (h : Walked semnum sma₁ woken sma₂) (h' : Walked semnum sma₂ woken' sma₃) :
    Walked semnum sma₁ (woken ++ woken') sma₃ := by
  refine ⟨h'.wellFormed, h.moves.trans h'.moves, fun n hn => ⟨fun m hm => ?_, fun q hq hs => ?_⟩⟩
  · rw [(h'.other n hn).1 m hm, (h.other n hn).1 m hm]
  · exact (h'.other n hn).2 q ((h.other n hn).2 q hq hs) hs

theorem WellFormed.walks (semnum : Option ℕ) (fuel : ℕ) (woken : Woken) (h : sma.WellFormed)
    (hfuel : sma.semPending.length < fuel) :
    ∃ sma' woken', walks semnum fuel sma woken = some (sma', woken ++ woken') ∧
      Walked semnum sma woken' sma' ∧
      ∀ q ∈ sma'.semPending, InList semnum q → sma'.core.Blocks q := by
  induction fuel generalizing sma woken with
  | zero => omega
  | succ fuel ih =>
    obtain ⟨sma₁, woken₁, again, hrun, hwalked, hagain, hdone⟩ :=
      h.walk semnum woken (List.Sublist.refl _) fun q hq hlist hnot =>
        absurd (h.mem_pendingList.mpr ⟨hq, hlist⟩) hnot
    simp only [walks, hrun, Option.bind_eq_bind, Option.bind_some]
    cases again with
    | false => exact ⟨sma₁, woken₁, rfl, hwalked, hdone rfl⟩
    | true =>
      have hlen := hwalked.moves.length
      have := length_pos_of_ne_nil (hagain rfl)
      obtain ⟨sma₂, woken₂, hrun₂, hwalked₂, hdone₂⟩ :=
        ih (woken ++ woken₁) hwalked.wellFormed (by omega)
      refine ⟨sma₂, woken₁ ++ woken₂, ?_, hwalked.trans hwalked₂, hdone₂⟩
      rw [if_pos rfl, hrun₂, append_assoc]

end SemArray

end AndroidKernel.Ipc
