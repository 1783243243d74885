import AndroidKernel.Ipc.SemScan

/-!
# No lost wake-up

After every call, every operation that waits would still have to sleep if it was tried, whatever
lists `do_smart_update` chose to walk; and each one that was woken was tried once, in the state that
the ones before it left.
-/

namespace AndroidKernel.Ipc

open Function List SemArray Queue AndroidKernel.Ipc.Core

namespace SemArray

variable {sma sma' : SemArray} {q : Queue} {woken : Woken} {semopm : ℕ} {call : Call}

/-- Every operation that waits has to. -/
def Stable (sma : SemArray) : Prop := ∀ q ∈ sma.semPending, sma.core.Blocks q

theorem Moves.subset (h : sma.Moves woken sma') (hq : q ∈ sma'.semPending) :
    q ∈ sma.semPending := by
  induction h with
  | nil => exact hq
  | cons q' _ _ _ ih =>
    have := ih hq
    rw [unlinkQueue_semPending] at this
    exact mem_of_mem_erase this

/-- `update_queue` over all operations. -/
theorem WellFormed.updateQueue_all (h : sma.WellFormed) (semnum : Option ℕ)
    (hall : sma.complexCount ≠ 0 ∨ semnum = none) :
    ∃ sma' woken, sma.updateQueue semnum [] = some (sma', woken) ∧ sma'.WellFormed ∧
      sma.Moves woken sma' ∧ sma'.Stable := by
  have hnone : (if sma.complexCount ≠ 0 then none else semnum) = none := by
    obtain hcount | rfl := hall
    · exact if_pos hcount
    · exact ite_self none
  obtain ⟨sma', woken, hrun, hwalked, hdone⟩ :=
    h.walks none (sma.semPending.length + 1) [] (Nat.lt_succ_self _)
  refine ⟨sma', woken, ?_, hwalked.wellFormed, hwalked.moves, fun q hq => hdone q hq ?_⟩
  · simpa [updateQueue, hnone] using hrun
  · exact fun n hn => by cases hn

/-- The operation of a call that makes `do_smart_update` walk the list of its semaphore. -/
def Triggers (c : Core) (q : Queue) (sop : Sembuf) : Prop :=
  q.single sop.semNum = true ∧ (sop.semOp > 0 ∨ (sop.semOp < 0 ∧ c.semval sop.semNum = 0))

theorem WellFormed.complexCount_of_subset (h : sma.WellFormed) (h' : sma'.WellFormed)
    (hcount : sma.complexCount = 0) (hsub : ∀ q ∈ sma'.semPending, q ∈ sma.semPending) :
    sma'.complexCount = 0 := by
  rw [h'.count, Int.natCast_eq_zero, countP_eq_zero]
  intro q hq
  obtain ⟨sop, hsop⟩ := h.all_single hcount (hsub q hq)
  simp [hsop]

/-- The loop of `do_smart_update`: an operation that could be woken is on a list that will be
walked. -/
theorem WellFormed.smartLoop (woken : Woken) (sops : List Sembuf) (h : sma.WellFormed)
    (hcount : sma.complexCount = 0)
    (hpending : ∀ q ∈ sma.semPending, sma.core.Blocks q ∨ ∃ sop ∈ sops, Triggers sma.core q sop) :
    ∃ sma' woken', sma.smartLoop woken sops = some (sma', woken ++ woken') ∧ sma'.WellFormed ∧
      sma.Moves woken' sma' ∧ sma'.Stable := by
  induction sops generalizing sma woken with
  | nil =>
    refine ⟨sma, [], by simp [smartLoop], h, .nil sma, fun q hq => ?_⟩
    obtain hblocks | ⟨sop, hsop, -⟩ := hpending q hq
    · exact hblocks
    · cases hsop
  | cons sop sops ih =>
    rw [smartLoop]
    split_ifs with htrigger
    · obtain ⟨sma₁, woken₁, hrun, hwalked, hdone⟩ :=
        h.walks (some sop.semNum) (sma.semPending.length + 1) woken (Nat.lt_succ_self _)
      have hupdate : sma.updateQueue (some sop.semNum) woken = some (sma₁, woken ++ woken₁) := by
        simpa [updateQueue, hcount] using hrun
      simp only [hupdate, Option.bind_eq_bind, Option.bind_some]
      have hw := hwalked.wellFormed
      have hcount₁ := h.complexCount_of_subset hw hcount fun q => hwalked.moves.subset
      obtain ⟨hval, -⟩ := hwalked.other sop.semNum rfl
      obtain ⟨sma₂, woken₂, hrun₂, hw₂, hmoves₂, hstable₂⟩ := ih (woken ++ woken₁) hw hcount₁ (by
        intro q hq
        obtain ⟨sop', hsop'⟩ := hw.all_single hcount₁ hq
        by_cases hn : sop'.semNum = sop.semNum
        · refine .inl (hdone q hq fun n hn' => ?_)
          obtain rfl : sop.semNum = n := Option.some.inj hn'
          exact single_iff.mpr ⟨sop', hsop', hn⟩
        · -- Nothing has changed for the other lists.
          obtain hblocks | ⟨sop'', hmem, hsingle, hwhy⟩ := hpending q (hwalked.moves.subset hq)
          · left
            rw [blocks_single hsop'] at hblocks ⊢
            rwa [hval _ hn]
          · right
            obtain ⟨_, heq, hn''⟩ := single_iff.mp hsingle
            obtain rfl : sop' = _ := by simpa [hsop'] using heq
            obtain rfl | hmem := List.mem_cons.mp hmem
            · exact absurd hn'' hn
            · refine ⟨sop'', hmem, hsingle, ?_⟩
              rwa [hval _ (hn'' ▸ hn)])
      refine ⟨sma₂, woken₁ ++ woken₂, ?_, hw₂, hwalked.moves.trans hmoves₂, hstable₂⟩
      rw [hrun₂, append_assoc]
    · refine ih woken h hcount fun q hq => ?_
      obtain hblocks | ⟨sop', hmem, hsingle, hwhy⟩ := hpending q hq
      · exact .inl hblocks
      · obtain rfl | hmem := List.mem_cons.mp hmem
        · exact absurd hwhy htrigger
        · exact .inr ⟨sop', hmem, hsingle, hwhy⟩

/-- After an operation that succeeded, the lists that `do_smart_update` walks are enough. -/
theorem WellFormed.doSmartUpdate (h : sma.WellFormed) (hstable : sma.Stable)
    (hcode : sma.core.code q = 0) :
    ∃ sma' woken, ({ sma with core := sma.core.after q } : SemArray).doSmartUpdate (some q.sops) =
        some (sma', woken) ∧ sma'.WellFormed ∧
      ({ sma with core := sma.core.after q } : SemArray).Moves woken sma' ∧ sma'.Stable := by
  have hw : ({ sma with core := sma.core.after q } : SemArray).WellFormed :=
    { h with core_ok := h.core_ok.after q }
  unfold SemArray.doSmartUpdate
  simp only
  split_ifs with hcount
  · exact hw.updateQueue_all none (.inr rfl)
  · obtain ⟨sma', woken, hrun, hrest⟩ := hw.smartLoop [] q.sops (not_not.mp hcount) (by
      intro q' hq'
      obtain ⟨sop', hsop'⟩ := h.all_single (not_not.mp hcount) hq'
      have hblocks := hstable q' hq'
      rw [blocks_single hsop'] at hblocks ⊢
      have hval := after_semval hcode
      rw [code_eq] at hcode
      simp only [hval]
      by_cases hinc : ∃ sop ∈ q.sops, sop.semNum = sop'.semNum ∧ 0 < sop.semOp
      · obtain ⟨sop, hmem, hn, hpos⟩ := hinc
        exact .inr ⟨sop, hmem, single_iff.mpr ⟨sop', hsop', hn.symm⟩, .inl hpos⟩
      · have hle := tryLoop_value (P := fun x => x ≤ sma.core.semval sop'.semNum) hcode
          (fun sop hmem hn x hx => by
            by_contra hpos
            exact hinc ⟨sop, hmem, hn, by omega⟩) le_rfl
        by_cases hdec : ∃ sop ∈ q.sops, sop.semNum = sop'.semNum ∧ sop.semOp < 0
        · by_cases hzero : (tryLoop (sma.core.adjustments q.undo) sma.core.semval q.sops []).2
              sop'.semNum = 0
          · obtain ⟨sop, hmem, hn, hneg⟩ := hdec
            refine .inr ⟨sop, hmem, single_iff.mpr ⟨sop', hsop', hn.symm⟩, .inr ⟨hneg, ?_⟩⟩
            simp only [hval, hn, hzero]
          · exact .inl ⟨hblocks.1, by omega⟩
        · have heq := tryLoop_value (P := fun x => x = sma.core.semval sop'.semNum) hcode
            (fun sop hmem hn x hx => by
              rcases lt_trichotomy sop.semOp 0 with hlt | hzero | hgt
              · exact absurd ⟨sop, hmem, hn, hlt⟩ hdec
              · rw [hzero, add_zero, hx]
              · exact absurd ⟨sop, hmem, hn, hgt⟩ hinc) rfl
          exact .inl ⟨hblocks.1, by rw [heq]; exact hblocks.2⟩)
    exact ⟨sma', woken, hrun, hrest⟩

theorem enqueue_core (sma : SemArray) (q : Queue) : (sma.enqueue q).core = sma.core := by
  unfold enqueue
  simp only
  split <;> rfl

theorem enqueue_semPending (sma : SemArray) (q : Queue) : (sma.enqueue q).semPending =
    if altering q.sops then sma.semPending ++ [q] else q :: sma.semPending := by
  unfold enqueue
  simp only
  split <;> rfl

theorem mem_enqueue {q' : Queue} :
    q' ∈ (sma.enqueue q).semPending ↔ q' ∈ sma.semPending ∨ q' = q := by
  rw [enqueue_semPending]
  split_ifs
  · simp
  · simp [or_comm]

theorem WellFormed.enqueue (h : sma.WellFormed) (hblocks : sma.core.Blocks q)
    (htask : ∀ q' ∈ sma.semPending, q'.task ≠ q.task) : (sma.enqueue q).WellFormed := by
  refine ⟨?_, ?_, ?_, ?_, ?_, ?_⟩
  · rw [enqueue_core]
    exact h.core_ok
  · rw [enqueue_semPending]
    have hnot : q.task ∉ sma.semPending.map Queue.task := by
      simp only [mem_map, not_exists, not_and]
      exact htask
    split_ifs
    · rw [map_append, map_singleton]
      exact List.nodup_append.mpr ⟨h.nodup, nodup_singleton _, fun a ha b hb => by
        rw [mem_singleton] at hb
        exact fun hab => hnot (hb ▸ hab ▸ ha)⟩
    · exact List.nodup_cons.mpr ⟨hnot, h.nodup⟩
  · intro n
    rw [enqueue_semPending]
    unfold SemArray.enqueue
    simp only
    split
    · rename_i sop hsop
      by_cases hn : n = sop.semNum
      · subst hn
        have hs : q.single sop.semNum = true := Queue.single_iff.mpr ⟨sop, hsop, rfl⟩
        split_ifs <;> simp [h.simple, hs]
      · have hs : q.single n = false := by simp [Queue.single, hsop, Ne.symm hn]
        split_ifs <;> simp [h.simple, hs, update_of_ne hn]
    · rename_i hne
      have hs : q.single n = false := by
        cases hs : q.single n with
        | false => rfl
        | true =>
          obtain ⟨sop, hsop, -⟩ := Queue.single_iff.mp hs
          exact absurd hsop (hne sop)
      split_ifs <;> simp [h.simple, hs]
  · rw [enqueue_semPending]
    have hcount : ∀ l : List Queue, (if altering q.sops then l ++ [q] else q :: l).countP
        (fun q => decide (q.sops.length ≠ 1)) = l.countP (fun q => decide (q.sops.length ≠ 1)) +
          if q.sops.length ≠ 1 then 1 else 0 := by
      intro l
      split_ifs <;> simp_all
    rw [hcount]
    have hold := h.count
    unfold SemArray.enqueue
    simp only
    split
    · rename_i sop hsop
      simp [hsop, hold]
    · rename_i hne
      have hlen : q.sops.length ≠ 1 := by
        intro hlen
        obtain ⟨sop, hsop⟩ := List.length_eq_one_iff.mp hlen
        exact hne sop hsop
      simp [hlen, hold]
  · rw [enqueue_semPending]
    split_ifs with halter
    · refine List.pairwise_append.mpr ⟨h.order, pairwise_singleton _ _, fun a _ b hb hf => ?_⟩
      rw [List.mem_singleton.mp hb, halter] at hf
      cases hf
    · exact List.pairwise_cons.mpr ⟨fun _ _ _ => by simpa using halter, h.order⟩
  · intro q' hq' sop hsop
    obtain hq' | rfl := mem_enqueue.mp hq'
    · exact h.decrement q' hq' sop hsop
    · rw [Core.blocks_single hsop] at hblocks
      have := h.core_ok.semval_nonneg sop.semNum
      exact ⟨by omega, hblocks.1⟩

/-- What a call does before it wakes others: its operations fail, succeed or make the task sleep; a
task leaves the lists; or the values are set. -/
def Own (sma : SemArray) (result : Option ℤ) (mid : SemArray) : Call → Prop
  | .semtimedop task _ pid _ sops =>
    (∃ q : Queue, q.task = task ∧ q.sops = sops ∧ q.pid = pid ∧
      ((result = some 0 ∧ sma.core.code q = 0 ∧ mid.core = sma.core.after q ∧
          mid.semPending = sma.semPending) ∨
        (result = none ∧ 0 < sma.core.code q ∧ mid.core = sma.core ∧
          ∀ q', q' ∈ mid.semPending ↔ q' ∈ sma.semPending ∨ q' = q))) ∨
      ∃ e < 0, result = some e ∧ mid.core = sma.core ∧ mid.semPending = sma.semPending
  | .wakeup task _ => mid.core = sma.core ∧
      ∀ q, q ∈ mid.semPending ↔ q ∈ sma.semPending ∧ q.task ≠ task
  | _ => mid.semPending = sma.semPending

/-- A call returns; no operation waits without need; every one that was woken was tried after what
the call itself did. -/
def Served (semopm : ℕ) (sma : SemArray) (call : Call) : Prop :=
  ∃ sma' result woken, sma.step semopm call = some (sma', result, woken) ∧ sma'.WellFormed ∧
    sma'.Stable ∧ ∃ mid : SemArray, sma.Own result mid call ∧ mid.WellFormed ∧ mid.Moves woken sma'

section

variable (h : sma.WellFormed)
include h

theorem WellFormed.findAllocUndo (undo : Option ℕ) :
    (sma.findAllocUndo undo).WellFormed ∧ (sma.findAllocUndo undo).core = sma.core ∧
      (sma.findAllocUndo undo).semPending = sma.semPending := by
  unfold SemArray.findAllocUndo
  split
  · split_ifs
    · exact ⟨h, rfl, rfl⟩
    · exact ⟨{ h with }, rfl, rfl⟩
  · exact ⟨h, rfl, rfl⟩

/-- `semtimedop` -/
theorem WellFormed.semtimedop (hstable : sma.Stable) (semopm : ℕ) {task un : ℕ} {pid : ℤ}
    {permitted : Bool} {sops : List Sembuf}
    (hpossible : sma.Possible (.semtimedop task un pid permitted sops)) :
    sma.Served semopm (.semtimedop task un pid permitted sops) := by
  have hsame : ∀ (sma' : SemArray) (e : ℤ), e < 0 → sma'.WellFormed → sma'.core = sma.core →
      sma'.semPending = sma.semPending →
      sma.step semopm (.semtimedop task un pid permitted sops) = some (sma', some e, []) →
      sma.Served semopm (.semtimedop task un pid permitted sops) := by
    intro sma' e he hw hcore hpending hstep
    refine ⟨sma', some e, [], hstep, hw, ?_, sma', .inr ⟨e, he, rfl, hcore, hpending⟩, hw,
      .nil sma'⟩
    intro q hq
    rw [hcore]
    exact hstable q (hpending ▸ hq)
  by_cases hlen : sops.length < 1
  · exact hsame sma einval (by decide) h rfl rfl
      (by simp only [step, SemArray.semtimedop, if_pos hlen])
  by_cases hmax : sops.length > semopm
  · exact hsame sma e2big (by decide) h rfl rfl
      (by simp only [step, SemArray.semtimedop, if_neg hlen, if_pos hmax])
  obtain ⟨hw, hcore, hpending⟩ := h.findAllocUndo (if sops.any Sembuf.undo then some un else none)
  set undo := if sops.any Sembuf.undo then some un else none
  set sma₁ := sma.findAllocUndo undo
  have hstep : sma.step semopm (.semtimedop task un pid permitted sops) =
      (if sops.any (fun sop => sma₁.semNsems ≤ sop.semNum) then some (sma₁, some efbig, [])
      else if !permitted then some (sma₁, some eacces, [])
      else
        let error := (sma₁.core.tryAtomicSemop sops undo pid).1
        let sma₂ := { sma₁ with core := (sma₁.core.tryAtomicSemop sops undo pid).2 }
        if error ≤ 0 then
          if altering sops ∧ error = 0 then
            (sma₂.doSmartUpdate (some sops)).bind fun r => some (r.1, some error, r.2)
          else some (sma₂, some error, [])
        else some (sma₂.enqueue ⟨task, sops, undo, pid⟩, none, [])) := by
    simp only [step, SemArray.semtimedop, if_neg hlen, if_neg hmax]
    rfl
  by_cases hbig : sops.any (fun sop => sma₁.semNsems ≤ sop.semNum)
  · exact hsame sma₁ efbig (by decide) hw hcore hpending (by rw [hstep, if_pos hbig])
  rw [if_neg hbig] at hstep
  by_cases hperm : !permitted
  · exact hsame sma₁ eacces (by decide) hw hcore hpending (by rw [hstep, if_pos hperm])
  rw [if_neg hperm] at hstep
  set q : Queue := ⟨task, sops, undo, pid⟩
  have hstable₁ : sma₁.Stable := by
    intro q' hq'
    rw [hcore]
    exact hstable q' (hpending ▸ hq')
  have htry : sma₁.core.tryAtomicSemop sops undo pid = (sma₁.core.code q, sma₁.core.after q) := rfl
  simp only [htry] at hstep
  by_cases hpos : 0 < sma₁.core.code q
  · -- The task goes to sleep.
    have hafter : sma₁.core.after q = sma₁.core := Core.after_of_code_ne (by omega)
    simp only [if_neg (not_le.mpr hpos), hafter] at hstep
    have hsleep : (sma₁.enqueue q).WellFormed := hw.enqueue hpos (by rw [hpending]; exact hpossible)
    refine ⟨_, _, _, hstep, hsleep, ?_, _, .inl ⟨q, rfl, rfl, rfl, .inr ⟨rfl, hcore ▸ hpos, ?_,
      fun q' => ?_⟩⟩, hsleep, .nil _⟩
    · intro q' hq'
      rw [enqueue_core]
      obtain hq' | rfl := mem_enqueue.mp hq'
      · exact hstable₁ q' hq'
      · exact hpos
    · rw [enqueue_core, hcore]
    · rw [mem_enqueue, hpending]
  rw [if_pos (not_lt.mp hpos)] at hstep
  by_cases hzero : sma₁.core.code q = 0
  · by_cases halter : altering sops = true
    · obtain ⟨sma', woken, hrun, hw', hmoves, hstable'⟩ := hw.doSmartUpdate hstable₁ hzero
      rw [if_pos ⟨halter, hzero⟩] at hstep
      have hrun' : ({ sma₁ with core := sma₁.core.after q } : SemArray).doSmartUpdate (some sops) =
          some (sma', woken) := hrun
      simp only [hrun', hzero, Option.bind_some] at hstep
      have hmid : ({ sma₁ with core := sma₁.core.after q } : SemArray).WellFormed :=
        { hw with core_ok := hw.core_ok.after q }
      refine ⟨_, _, _, hstep, hw', hstable', { sma₁ with core := sma₁.core.after q },
        .inl ⟨q, rfl, rfl, rfl, .inl ⟨rfl, hcore ▸ hzero, ?_, hpending⟩⟩, hmid, hmoves⟩
      simp only [hcore]
    · rw [if_neg (fun hc => halter hc.1), hzero] at hstep
      have hw' : ({ sma₁ with core := sma₁.core.after q } : SemArray).WellFormed :=
        { hw with core_ok := hw.core_ok.after q }
      refine ⟨_, _, _, hstep, hw', fun q' hq' => ?_, { sma₁ with core := sma₁.core.after q },
        .inl ⟨q, rfl, rfl, rfl, .inl ⟨rfl, hcore ▸ hzero, ?_, hpending⟩⟩, hw', .nil _⟩
      · unfold Core.Blocks
        rw [Core.code_after_of_not_altering hw.core_ok (by simpa using halter)]
        exact hstable₁ q' hq'
      · simp only [hcore]
  · have hafter : sma₁.core.after q = sma₁.core := Core.after_of_code_ne hzero
    rw [if_neg (fun hc => hzero hc.2), hafter] at hstep
    exact hsame sma₁ _ (by omega) hw hcore hpending hstep

theorem WellFormed.update_all (core : Core) (hok : core.Ok) (listId : List ℕ) :
    ∃ sma' woken, ({ sma with core := core, listId := listId } : SemArray).doSmartUpdate none =
        some (sma', woken) ∧ sma'.WellFormed ∧ sma'.Stable ∧
      ({ sma with core := core, listId := listId } : SemArray).WellFormed ∧
      ({ sma with core := core, listId := listId } : SemArray).Moves woken sma' := by
  have hw : ({ sma with core := core, listId := listId } : SemArray).WellFormed :=
    { h with core_ok := hok }
  obtain ⟨sma', woken, hrun, hw', hmoves, hstable⟩ := hw.updateQueue_all none (.inr rfl)
  exact ⟨sma', woken, hrun, hw', hstable, hw, hmoves⟩

theorem WellFormed.served_refused (hstable : sma.Stable) (result : Option ℤ)
    (hstep : sma.step semopm call = some (sma, result, [])) (hown : sma.Own result sma call) :
    sma.Served semopm call :=
  ⟨sma, result, [], hstep, h, hstable, sma, hown, h, .nil sma⟩

/-- `SETVAL` -/
theorem WellFormed.setval (hstable : sma.Stable) (semopm semnum : ℕ) (val pid : ℤ) :
    sma.Served semopm (.setval semnum val pid) := by
  by_cases hnum : sma.semNsems ≤ semnum
  · exact h.served_refused hstable (some einval)
      (by simp only [step, SemArray.setval, if_pos hnum]) rfl
  by_cases hrange : val > semvmx ∨ val < 0
  · exact h.served_refused hstable (some erange)
      (by simp only [step, SemArray.setval, if_neg hnum, if_pos hrange]) rfl
  have hok : (⟨update sma.core.semval semnum val, update sma.core.sempid semnum pid,
      fun un => update (sma.core.semadj un) semnum 0⟩ : Core).Ok := by
    refine ⟨fun n => ?_, fun un n => ?_⟩ <;> by_cases hn : n = semnum
    · simp only [hn, update_self]
      omega
    · simpa [update_of_ne hn] using h.core_ok.semval_nonneg n
    · simp [hn]
    · simpa [update_of_ne hn] using h.core_ok.semadj_short un n
  obtain ⟨sma', woken, hrun, hw, hs, hmid, hmoves⟩ := h.update_all _ hok sma.listId
  refine ⟨sma', some 0, woken, ?_, hw, hs, _, ?_, hmid, hmoves⟩
  · simp only [step, SemArray.setval, if_neg hnum, if_neg hrange, hrun]
    rfl
  · exact rfl

/-- `SETALL` -/
theorem WellFormed.setall (hstable : sma.Stable) (semopm : ℕ) (semIo : ℕ → ℕ) :
    sma.Served semopm (.setall semIo) := by
  by_cases hrange : (List.range sma.semNsems).any (fun i => semvmx < semIo i)
  · exact h.served_refused hstable (some erange)
      (by simp only [step, SemArray.setall, if_pos hrange]) rfl
  have hok : ({ sma.core with
      semval := fun i => if i < sma.semNsems then (semIo i : ℤ) else sma.core.semval i
      semadj := fun un i => if i < sma.semNsems then 0 else sma.core.semadj un i } : Core).Ok := by
    refine ⟨fun n => ?_, fun un n => ?_⟩ <;> simp only <;> split_ifs
    · omega
    · exact h.core_ok.semval_nonneg n
    · decide
    · exact h.core_ok.semadj_short un n
  obtain ⟨sma', woken, hrun, hw, hs, hmid, hmoves⟩ := h.update_all _ hok sma.listId
  refine ⟨sma', some 0, woken, ?_, hw, hs, _, ?_, hmid, hmoves⟩
  · simp only [step, SemArray.setall, if_neg hrange, hrun]
    rfl
  · exact rfl

/-- `exit_sem` -/
theorem WellFormed.exitSem (hstable : sma.Stable) (semopm un : ℕ) (pid : ℤ) :
    sma.Served semopm (.exitSem un pid) := by
  by_cases hun : un ∈ sma.listId
  · have hok : (⟨fun i => if (decide (i < sma.semNsems ∧ sma.core.semadj un i ≠ 0)) then
          min semvmx (max 0 (sma.core.semval i + sma.core.semadj un i)) else sma.core.semval i,
        fun i => if (decide (i < sma.semNsems ∧ sma.core.semadj un i ≠ 0)) then pid
          else sma.core.sempid i,
        update sma.core.semadj un fun _ => 0⟩ : Core).Ok := by
      refine ⟨fun n => ?_, fun u n => ?_⟩
      · simp only [semvmx]
        have := h.core_ok.semval_nonneg n
        split_ifs <;> omega
      · by_cases hu : u = un
        · simp [hu]
        · simpa [update_of_ne hu] using h.core_ok.semadj_short u n
    obtain ⟨sma', woken, hrun, hw, hs, hmid, hmoves⟩ := h.update_all _ hok (sma.listId.erase un)
    refine ⟨sma', none, woken, ?_, hw, hs, _, ?_, hmid, hmoves⟩
    · simp only [step, SemArray.exitSem, if_pos hun, hrun]
      rfl
    · exact rfl
  · exact h.served_refused hstable none
      (by simp only [step, SemArray.exitSem, if_neg hun]) rfl

theorem WellFormed.wakeup (hstable : sma.Stable) (semopm task : ℕ) (timeout : Bool) :
    sma.Served semopm (.wakeup task timeout) := by
  cases hfind : sma.semPending.find? (fun q => q.task = task) with
  | none =>
    refine h.served_refused hstable none (by simp only [step, SemArray.wakeup, hfind]) ⟨rfl, ?_⟩
    intro q
    rw [List.find?_eq_none] at hfind
    exact ⟨fun hq => ⟨hq, by simpa using hfind q hq⟩, fun hq => hq.1⟩
  | some q =>
    have hq := List.mem_of_find?_eq_some hfind
    have htask : q.task = task := by simpa using List.find?_some hfind
    have hw := h.unlinkQueue hq
    have hmem : ∀ q', q' ∈ (sma.unlinkQueue q).semPending ↔ q' ∈ sma.semPending ∧
        q'.task ≠ task := by
      intro q'
      rw [unlinkQueue_semPending, h.semPending_nodup.mem_erase_iff]
      constructor
      · rintro ⟨hne, hq'⟩
        refine ⟨hq', fun heq => hne ?_⟩
        exact inj_on_of_nodup_map h.nodup hq' hq (heq.trans htask.symm)
      · rintro ⟨hq', hne⟩
        exact ⟨fun heq => hne (heq ▸ htask), hq'⟩
    refine ⟨_, some (if timeout then eagain else eintr), _, ?_, hw, fun q' hq' => ?_, _,
      ⟨unlinkQueue_core .., hmem⟩, hw, .nil _⟩
    · simp only [step, SemArray.wakeup, hfind]
    · rw [unlinkQueue_core]
      exact hstable q' ((hmem q').mp hq').1

theorem WellFormed.step (hstable : sma.Stable) (semopm : ℕ) (hpossible : sma.Possible call) :
    sma.Served semopm call := by
  cases call with
  | semtimedop task un pid permitted sops => exact h.semtimedop hstable semopm hpossible
  | setval semnum val pid => exact h.setval hstable semopm semnum val pid
  | setall semIo => exact h.setall hstable semopm semIo
  | exitSem un pid => exact h.exitSem hstable semopm un pid
  | wakeup task timeout => exact h.wakeup hstable semopm task timeout

end

/-- The states that calls lead to. -/
inductive Reach (semopm semNsems : ℕ) : SemArray → Prop where
  | init : Reach semopm semNsems (.init semNsems)
  | step {sma sma' : SemArray} {call : Call} {result : Option ℤ} {woken : Woken}
      (hreach : Reach semopm semNsems sma) (hpossible : sma.Possible call)
      (hstep : sma.step semopm call = some (sma', result, woken)) : Reach semopm semNsems sma'

theorem Reach.wellFormed {semNsems : ℕ} (h : Reach semopm semNsems sma) :
    sma.WellFormed ∧ sma.Stable := by
  induction h with
  | init =>
    refine ⟨⟨⟨fun _ => le_rfl, fun _ _ => rfl⟩, nodup_nil, fun _ => rfl, rfl, List.Pairwise.nil,
      ?_⟩, ?_⟩ <;> intro q hq <;> cases hq
  | step _ hpossible hstep ih =>
    obtain ⟨sma', result, woken, hstep', hw, hs, -⟩ := ih.1.step ih.2 semopm hpossible
    rw [hstep'] at hstep
    cases hstep
    exact ⟨hw, hs⟩

theorem Moves.mem (h : sma.Moves woken sma') {w : Queue × ℤ} (hw : w ∈ woken) :
    w.1 ∈ sma.semPending := by
  induction h with
  | nil => cases hw
  | cons q hmem _ _ ih =>
    obtain rfl | hw := List.mem_cons.mp hw
    · exact hmem
    · have := ih hw
      rw [unlinkQueue_semPending] at this
      exact mem_of_mem_erase this

theorem Moves.once {mid : SemArray} (h : mid.WellFormed) (hmoves : mid.Moves woken sma') :
    (woken.map fun w => w.1.task).Nodup ∧
      ∀ w ∈ woken, ∀ q ∈ sma'.semPending, q.task ≠ w.1.task := by
  induction hmoves with
  | nil => exact ⟨nodup_nil, by simp⟩
  | @cons sma sma' woken q hmem hcode hrest ih =>
    obtain ⟨hnodup, hleft⟩ := ih (h.wake hmem)
    have hgone : ∀ q' ∈ ({ sma with core := sma.core.after q }.unlinkQueue q).semPending,
        q'.task ≠ q.task := by
      intro q' hq' heq
      rw [unlinkQueue_semPending, h.semPending_nodup.mem_erase_iff] at hq'
      exact hq'.1 (inj_on_of_nodup_map h.nodup hq'.2 hmem heq)
    refine ⟨List.nodup_cons.mpr ⟨fun hmem' => ?_, hnodup⟩, fun w hw q' hq' => ?_⟩
    · obtain ⟨w, hw, heq⟩ := List.mem_map.mp hmem'
      exact hgone w.1 (hrest.mem hw) heq
    · obtain rfl | hw := List.mem_cons.mp hw
      · exact hgone q' (hrest.subset hq')
      · exact hleft w hw q' hq'

end SemArray

end AndroidKernel.Ipc
