import AndroidKernel.Filter.Safety

/-!
# Scratch words that were not written

`sk_run_filter` has its scratch memory on the stack and does not clear it, and `sk_chk_filter`
does not ask whether a word is stored before it is loaded. So an accepted filter can return what
was on the stack. A run that loads only words that it has stored does not depend on the stack: any
other run of the filter on the packet agrees with it on all words but those not yet stored.
-/

namespace AndroidKernel.Filter

open Function Opcode

/-- The filter that returns the scratch word 0. -/
def returnScratch : List SockFilter := [⟨ldMem.code, 0, 0, 0⟩, ⟨retA.code, 0, 0, 0⟩]

/-- An accepted filter can return what was on the stack. -/
theorem stale_scratch_returned : skChkFilter returnScratch = 0 ∧
      skRunFilter returnScratch emptyPacket (fun _ => 0) 2 = some (.returned 0) ∧
      skRunFilter returnScratch emptyPacket (fun _ => 1) 2 = some (.returned 1) := by
  decide +kernel

/-- The instruction loads the scratch word `i`. -/
def Loads (fentry : SockFilter) (i : ℕ) : Prop :=
  (decode fentry.code = some .ldMem ∨ decode fentry.code = some .ldxMem) ∧ fentry.k.toNat = i

/-- The instruction stores the scratch word `i`. -/
def Stores (fentry : SockFilter) (i : ℕ) : Prop :=
  (decode fentry.code = some .st ∨ decode fentry.code = some .stx) ∧ fentry.k.toNat = i

/-- The run from the stack contents `mem` comes to a machine, with the scratch words in `written`
stored on the way. -/
inductive ReachesStoring (filter : List SockFilter) (skb : SkBuff) (mem : Fin 16 → BitVec 32) :
    (ℕ → Prop) → Vm → Prop
  | start : ReachesStoring filter skb mem (fun _ => False) (.start mem)
  | step {written : ℕ → Prop} {vm vm' : Vm} {fentry : SockFilter}
      (h : ReachesStoring filter skb mem written vm) (hfetch : filter[vm.pc.toNat]? = some fentry)
      (hstep : step filter skb vm = .ok vm') :
      ReachesStoring filter skb mem (fun i => written i ∨ Stores fentry i) vm'

/-- Each load of a scratch word that the run executes comes after a store to that word. -/
def LoadsWritten (filter : List SockFilter) (skb : SkBuff) (mem : Fin 16 → BitVec 32) : Prop :=
  ∀ written vm fentry i, ReachesStoring filter skb mem written vm →
    filter[vm.pc.toNat]? = some fentry → Loads fentry i → written i

/-- Two scratch memories agree on all words but those in `S`. -/
def Agree (S : ℕ → Prop) (mem mem' : Fin 16 → BitVec 32) : Prop :=
  ∀ i : Fin 16, ¬ S i → mem' i = mem i

/-- Two runs end in the same way, or go on in machines that differ in the words of `S` only. -/
inductive AgreeOn (S : ℕ → Prop) : Except Outcome Vm → Except Outcome Vm → Prop
  | error (outcome : Outcome) : AgreeOn S (.error outcome) (.error outcome)
  | ok {vm : Vm} {mem' : Fin 16 → BitVec 32} (h : Agree S vm.mem mem') :
      AgreeOn S (.ok vm) (.ok { vm with mem := mem' })

variable {S : ℕ → Prop} {vm : Vm} {mem' : Fin 16 → BitVec 32} {fentry : SockFilter}
  {filter : List SockFilter}

theorem ancillary_agree (h : Agree S vm.mem mem') (skb : SkBuff) (k : ℤ) :
    AgreeOn S (ancillary skb vm k) (ancillary skb { vm with mem := mem' } k) := by
  unfold ancillary
  dsimp only
  split
  · exact .ok h
  · exact .ok h
  · split
    · exact .error _
    · exact .ok h
  iterate 2
    · split_ifs
      · exact .error _
      · exact .ok h
  · exact .ok h
  · exact .ok h
  · split
    · exact .error _
    · exact .ok h
  · exact .error _

theorem load_agree (h : Agree S vm.mem mem') (skb : SkBuff) (k : ℤ) (size : Size) :
    AgreeOn S (load skb vm k size) (load skb { vm with mem := mem' } k size) := by
  unfold load
  cases skb.loadPointer k size.bytes with
  | none => exact ancillary_agree h skb k
  | some ptr => exact .ok h

theorem scratch_agree {k : BitVec 32} {use use' : Fin 16 → Vm}
    (h : ∀ i : Fin 16, i = k.toNat → AgreeOn S (.ok (use i)) (.ok (use' i))) :
    AgreeOn S (scratch k use) (scratch k use') := by
  unfold scratch
  split_ifs
  · exact h _ rfl
  · exact .error _

theorem Agree.store {mem : Fin 16 → BitVec 32} (h : Agree S mem mem') (i : Fin 16) (v : BitVec 32) :
    Agree (fun j => S j ∧ j ≠ i) (update mem i v) (update mem' i v) := by
  intro j hj
  by_cases hji : j = i
  · rw [hji, update_self, update_self]
  · rw [update_of_ne hji, update_of_ne hji]
    exact h j fun hS => hj ⟨hS, fun heq => hji (Fin.ext heq)⟩

/-- An instruction that loads no unwritten word does the same in both machines, and what it stores
is written. -/
theorem execInsn_agree (h : Agree S vm.mem mem') (hload : ∀ i, Loads fentry i → ¬ S i)
    (skb : SkBuff) :
    AgreeOn (fun i => S i ∧ ¬ Stores fentry i) (execInsn skb vm fentry)
      (execInsn skb { vm with mem := mem' } fentry) := by
  unfold execInsn
  cases hdecode : decode fentry.code with
  | none => exact .error _
  | some op =>
    have hsame (hst : op ≠ .st ∧ op ≠ .stx) : (fun i => S i ∧ ¬ Stores fentry i) = S := by
      funext i
      simp [Stores, hdecode, hst]
    have hstored (hst : op = .st ∨ op = .stx) :
        (fun i => S i ∧ ¬ Stores fentry i) = fun i => S i ∧ i ≠ fentry.k.toNat := by
      funext i
      simp [Stores, hdecode, hst, eq_comm]
    have hloaded (hld : op = .ldMem ∨ op = .ldxMem) : ¬ S fentry.k.toNat :=
      hload _ ⟨by simpa [hdecode] using hld, rfl⟩
    cases op with
    | retK | retA => exact .error _
    | alu op src =>
      rw [hsame (by simp)]
      cases op with
      | div =>
        cases src with
        | k | x =>
          dsimp only
          split_ifs
          · exact .error _
          · exact .ok h
      | _ => cases src <;> exact .ok h
    | jmp op src =>
      rw [hsame (by simp)]
      cases src <;> exact .ok h
    | ldAbs size | ldInd size =>
      rw [hsame (by simp)]
      exact load_agree h skb _ size
    | ldxMsh =>
      rw [hsame (by simp)]
      dsimp only
      split
      · exact .ok h
      · exact .error _
    | ldMem =>
      rw [hsame (by simp)]
      refine scratch_agree fun i hi => ?_
      dsimp only
      rw [h i (by rw [hi]; exact hloaded (.inl rfl))]
      exact .ok h
    | ldxMem =>
      rw [hsame (by simp)]
      refine scratch_agree fun i hi => ?_
      dsimp only
      rw [h i (by rw [hi]; exact hloaded (.inr rfl))]
      exact .ok h
    | st =>
      rw [hstored (.inl rfl)]
      refine scratch_agree fun i hi => ?_
      rw [← hi]
      exact .ok (h.store i vm.a)
    | stx =>
      rw [hstored (.inr rfl)]
      refine scratch_agree fun i hi => ?_
      rw [← hi]
      exact .ok (h.store i vm.x)
    | _ =>
      rw [hsame (by simp)]
      exact .ok h

/-- A run that loads only what it has stored, and a run from the same place in a machine that
differs in the other words only, end in the same way. -/
theorem runFrom_agree (hok : Accepted filter) {skb : SkBuff} {mem : Fin 16 → BitVec 32}
    (hwritten : LoadsWritten filter skb mem) {written : ℕ → Prop} {n fuel : ℕ}
    (hreach : ReachesStoring filter skb mem written vm) (hpc : vm.pc = BitVec.ofNat 32 n)
    (hn : n < filter.length) (h : Agree (fun i => ¬ written i) vm.mem mem') :
    runFrom filter skb fuel vm = runFrom filter skb fuel { vm with mem := mem' } := by
  induction fuel generalizing vm mem' n written with
  | zero => rfl
  | succ fuel ih =>
    obtain ⟨fentry, hfetch⟩ : ∃ fentry, filter[n]? = some fentry := ⟨_, List.getElem?_eq_getElem hn⟩
    have hfetch' : filter[vm.pc.toNat]? = some fentry := by
      have hle := hok.le
      rwa [hpc, BitVec.toNat_ofNat, Nat.mod_eq_of_lt (by unfold bpfMaxinsns at hle; omega)]
    have hexec := execInsn_agree h
      (fun i hi => not_not_intro (hwritten written vm fentry i hreach hfetch' hi)) skb
    have hadvances := step_advances hok skb hpc hfetch
    have hstep' : step filter skb { vm with mem := mem' } = _ := step_eq hok skb hpc hfetch
    have hreach' (vm' : Vm) (hstep : step filter skb vm = .ok vm') := hreach.step hfetch' hstep
    rw [runFrom, runFrom, hstep', step_eq hok skb hpc hfetch]
    rw [step_eq hok skb hpc hfetch] at hadvances hreach'
    generalize execInsn skb vm fentry = result at hexec hadvances hreach' ⊢
    generalize execInsn skb { vm with mem := mem' } fentry = result' at hexec ⊢
    cases hexec with
    | error outcome => rfl
    | ok hagree =>
      obtain ⟨m, -, hm, -, hpc'⟩ := hadvances
      refine ih (hreach' _ rfl) hpc' hm fun i hi => ?_
      exact hagree i fun hS => hi fun hor => hor.elim hS.1 hS.2

/-- An accepted filter whose run on a packet loads only scratch words that it has stored returns a
value for this packet that does not depend on what was on the stack. -/
theorem scratch_contents_unseen (h : skChkFilter filter = 0) (skb : SkBuff)
    (mem : Fin 16 → BitVec 32) (hwritten : LoadsWritten filter skb mem)
    (mem' : Fin 16 → BitVec 32) :
    ∃ outcome, skRunFilter filter skb mem filter.length = some outcome ∧
      skRunFilter filter skb mem' filter.length = some outcome ∧ outcome.Proper := by
  have hok := skChkFilter_accepted h
  obtain ⟨outcome, hrun, hproper⟩ :
      ∃ outcome, runFrom filter skb filter.length (.start mem) = some outcome ∧ outcome.Proper :=
    runFrom_proper hok skb rfl hok.pos (Nat.le_add_left _ _)
  have hagree : runFrom filter skb filter.length (.start mem) =
      runFrom filter skb filter.length (.start mem') :=
    runFrom_agree hok hwritten .start rfl hok.pos fun _ hi => absurd not_false hi
  exact ⟨outcome, hrun, hagree.symm.trans hrun, hproper⟩

/-- The filter that stores the packet's length in the scratch word 0, loads the word 1 unless the
packet is empty, and returns the word 0. -/
def skippedLoad : List SockFilter :=
  [⟨ldLen.code, 0, 0, 0⟩, ⟨st.code, 0, 0, 0⟩, ⟨(Opcode.jmp .jeq .k).code, 1, 0, 0⟩,
    ⟨ldMem.code, 0, 0, 1⟩, ⟨ldMem.code, 0, 0, 0⟩, ⟨retA.code, 0, 0, 0⟩]

/-- On an empty packet the load of the word 1 is skipped, and that of the word 0 comes after the
store. -/
theorem skippedLoad_loadsWritten : LoadsWritten skippedLoad emptyPacket fun _ => 0 := by
  have hat : ∀ written vm, ReachesStoring skippedLoad emptyPacket (fun _ => 0) written vm →
      vm.pc = 0 ∨ (vm.pc = 1 ∧ vm.a = 0) ∨ (vm.a = 0 ∧ vm.pc = 2 ∧ written 0) ∨
        ((vm.pc = 4 ∨ vm.pc = 5) ∧ written 0) := by
    intro written vm h
    induction h with
    | start => exact .inl rfl
    | @step written vm vm' fentry _ hfetch hstep ih =>
      obtain ⟨pc, a, x, mem⟩ := vm
      rcases ih with rfl | ⟨rfl, rfl⟩ | ⟨rfl, rfl, h0⟩ | ⟨rfl | rfl, h0⟩
      all_goals obtain rfl : _ = fentry := Option.some.inj hfetch
      · cases hstep
        exact .inr (.inl ⟨rfl, rfl⟩)
      · cases hstep
        exact .inr (.inr (.inl ⟨rfl, rfl, .inr ⟨.inl rfl, rfl⟩⟩))
      · cases hstep
        exact .inr (.inr (.inr ⟨.inl rfl, .inl h0⟩))
      · cases hstep
        exact .inr (.inr (.inr ⟨.inr rfl, .inl h0⟩))
      · cases hstep
  intro written vm fentry i hreach hfetch hload
  rcases hat written vm hreach with h | ⟨h, -⟩ | ⟨-, h, -⟩ | ⟨h | h, h0⟩
  all_goals
    rw [h] at hfetch
    obtain rfl : _ = fentry := Option.some.inj hfetch
  · exact absurd hload.1 (by decide)
  · exact absurd hload.1 (by decide)
  · exact absurd hload.1 (by decide)
  · obtain rfl : 0 = i := hload.2
    exact h0
  · exact absurd hload.1 (by decide)

theorem scratch_contents_unseen_skippedLoad :
    ∃ outcome, skRunFilter skippedLoad emptyPacket (fun _ => 0) 6 = some outcome ∧
      skRunFilter skippedLoad emptyPacket (fun _ => 1) 6 = some outcome ∧ outcome.Proper :=
  scratch_contents_unseen (by decide +kernel) emptyPacket _ skippedLoad_loadsWritten _

end AndroidKernel.Filter
