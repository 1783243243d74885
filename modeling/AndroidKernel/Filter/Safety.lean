import AndroidKernel.Filter.Basic

/-!
# Accepted filters are safe to run

A step lemma for each of the two case splits: what `sk_chk_filter` accepts at a place makes
`sk_run_filter` end properly there, or go on at a later place inside the filter. The program counter
therefore grows with every round, and a run ends after at most as many rounds as there are
instructions.
-/

namespace AndroidKernel.Filter

open Opcode

variable {filter : List SockFilter} {vm : Vm} {offsets : ℕ → Prop} {fentry : SockFilter} {n : ℕ}

/-- The filter that loads the word at offset 0 and returns 1. -/
def loadThenReturn : List SockFilter := [⟨(ldAbs .w).code, 0, 0, 0⟩, ⟨retK.code, 0, 0, 1⟩]

/-- A packet without bytes. -/
def emptyPacket : SkBuff where
  len := 0
  packet _ := 0
  memory _ := 0
  head := 0
  tail := 0
  networkHeader := 0
  macHeader := 0
  nonlinear := false
  protocol := 0
  pktType := 0
  dev := none
  mark := 0
  queueMapping := 0

/-- An accepted filter can end without a `BPF_RET` instruction, at a load that fails. -/
theorem accepted_filter_drops : skChkFilter loadThenReturn = 0 ∧
      skRunFilter loadThenReturn emptyPacket (fun _ => 0) 2 = some .dropped := by
  decide +kernel

/-- The proper ends of a run: a `BPF_RET` instruction, or `return 0` for a load that fails or for a
division by a zero index register. -/
def Outcome.Proper : Outcome → Prop
  | .returned _ | .dropped => True
  | _ => False

/-- The result of an instruction is a proper end, or goes on behind one of the instructions at
`pc + offset`. -/
def Advances (pc : BitVec 32) (offsets : ℕ → Prop) : Except Outcome Vm → Prop
  | .ok vm => ∃ offset, offsets offset ∧ vm.pc = pc + BitVec.ofNat 32 offset
  | .error outcome => outcome.Proper

theorem Advances.stay {pc : BitVec 32} (h0 : offsets 0) (hpc : vm.pc = pc) :
    Advances pc offsets (.ok vm) :=
  ⟨0, h0, by simp [hpc]⟩

theorem ancillary_advances (skb : SkBuff) (vm : Vm) (k : ℤ) (h0 : offsets 0) :
    Advances vm.pc offsets (ancillary skb vm k) := by
  unfold ancillary
  dsimp only
  split
  · exact .stay h0 rfl
  · exact .stay h0 rfl
  · split
    · trivial
    · exact .stay h0 rfl
  iterate 2
    · split_ifs
      · trivial
      · exact .stay h0 rfl
  · exact .stay h0 rfl
  · exact .stay h0 rfl
  · split
    · trivial
    · exact .stay h0 rfl
  · trivial

theorem load_advances (skb : SkBuff) (vm : Vm) (k : ℤ) (size : Size) (h0 : offsets 0) :
    Advances vm.pc offsets (load skb vm k size) := by
  unfold load
  cases skb.loadPointer k size.bytes with
  | none => exact ancillary_advances skb vm k h0
  | some ptr => exact .stay h0 rfl

theorem scratch_advances {k pc : BitVec 32} {use : Fin 16 → Vm} (hk : k.toNat < bpfMemwords)
    (h0 : offsets 0) (hpc : ∀ i, (use i).pc = pc) : Advances pc offsets (scratch k use) := by
  have hk' : k.toNat < 16 := hk
  rw [scratch, dif_pos hk']
  exact .stay h0 (hpc _)

theorem Opcode.code_of_decode {code : BitVec 16} {op : Opcode}
    (h : decode code = some op) : op.code = code := by
  have hfound := List.find?_some h
  simpa using hfound

/-- Only the two return instructions are of the class `BPF_RET`. -/
theorem Opcode.eq_ret_of_isRetClass {op : Opcode} (h : isRetClass op.code = true) :
    op = .retK ∨ op = .retA := by
  cases op with
  | retK => exact .inl rfl
  | retA => exact .inr rfl
  | alu op src | jmp op src => cases op <;> cases src <;> revert h <;> decide
  | ldAbs size | ldInd size => cases size <;> revert h <;> decide
  | _ => revert h; decide

/-- The places that may follow `pc` in a run. -/
def Follows (pc : ℕ) (fentry : SockFilter) (next : ℕ) : Prop :=
  match decode fentry.code with
  | none | some .retK | some .retA => False
  | some .ja => next = pc + fentry.k.toNat + 1
  | some (.jmp _ _) => next = pc + fentry.jt.toNat + 1 ∨ next = pc + fentry.jf.toNat + 1
  | some _ => next = pc + 1

/-- What the checker accepts at `pc`, unless it is the last instruction and does not return, ends
properly or goes on at a place that follows it, behind an instruction that is not the last one. -/
theorem execInsn_advances {flen pc : ℕ} (skb : SkBuff) (vm : Vm)
    (hchk : chkInsn flen pc fentry = true) (hlast : isRetClass fentry.code = true ∨ pc + 1 < flen) :
    Advances vm.pc (fun offset => Follows pc fentry (pc + offset + 1) ∧ pc + offset + 1 < flen)
      (execInsn skb vm fentry) := by
  unfold chkInsn at hchk
  unfold execInsn
  cases hdecode : Opcode.decode fentry.code with
  | none => simp [hdecode] at hchk
  | some op =>
    simp only [hdecode] at hchk ⊢
    have hcode := Opcode.code_of_decode hdecode
    -- everything but a return needs an instruction behind it
    have h0 (hret : op ≠ .retK ∧ op ≠ .retA) (hnext : Follows pc fentry (pc + 1)) :
        Follows pc fentry (pc + 0 + 1) ∧ pc + 0 + 1 < flen := by
      refine ⟨hnext, ?_⟩
      rcases hlast with hlast | hlast
      · rw [← hcode] at hlast
        exact absurd (Opcode.eq_ret_of_isRetClass hlast) (by simp [hret])
      · exact hlast
    cases op with
    | retK => trivial
    | retA => trivial
    | alu op src =>
      have hnext := h0 (by simp) (by simp [Follows, hdecode])
      cases op with
      | div =>
        cases src with
        | k =>
          have hk : fentry.k ≠ 0 := by simpa using hchk
          dsimp only
          rw [if_neg hk]
          exact .stay hnext rfl
        | x =>
          dsimp only
          split_ifs
          · trivial
          · exact .stay hnext rfl
      | _ => exact .stay hnext rfl
    | ja =>
      have hk : fentry.k.toNat < flen - pc - 1 := by simpa using hchk
      exact ⟨fentry.k.toNat, ⟨by simp [Follows, hdecode], by omega⟩, by simp⟩
    | jmp op src =>
      have hjumps : pc + fentry.jt.toNat + 1 < flen ∧ pc + fentry.jf.toNat + 1 < flen := by
        simpa using hchk
      dsimp only
      split_ifs
      · exact ⟨fentry.jt.toNat, ⟨by simp [Follows, hdecode], hjumps.1⟩, by simp⟩
      · exact ⟨fentry.jf.toNat, ⟨by simp [Follows, hdecode], hjumps.2⟩, by simp⟩
    | ldAbs size | ldInd size =>
      exact load_advances _ _ _ _ (h0 (by simp) (by simp [Follows, hdecode]))
    | ldxMsh =>
      dsimp only
      split
      · exact .stay (h0 (by simp) (by simp [Follows, hdecode])) rfl
      · trivial
    | ldMem | ldxMem | st | stx =>
      exact scratch_advances (by simpa using hchk) (h0 (by simp) (by simp [Follows, hdecode]))
        fun _ => rfl
    | _ => exact .stay (h0 (by simp) (by simp [Follows, hdecode])) rfl

/-- What the checker promises of a filter. -/
structure Accepted (filter : List SockFilter) : Prop where
  pos : 0 < filter.length
  le : filter.length ≤ bpfMaxinsns
  insns : ∀ pc fentry, filter[pc]? = some fentry → chkInsn filter.length pc fentry = true
  last : ∀ fentry, filter[filter.length - 1]? = some fentry → isRetClass fentry.code = true

theorem chkFrom_insn {flen pc i : ℕ} (h : chkFrom flen pc filter = true)
    (hi : filter[i]? = some fentry) : chkInsn flen (pc + i) fentry = true := by
  induction filter generalizing pc i with
  | nil => simp at hi
  | cons ftest rest ih =>
    simp only [chkFrom, Bool.and_eq_true] at h
    cases i with
    | zero =>
      obtain rfl : ftest = fentry := by simpa using hi
      exact h.1
    | succ i =>
      have hrest := ih h.2 (by simpa using hi)
      rwa [show pc + (i + 1) = pc + 1 + i by omega]

theorem skChkFilter_accepted (h : skChkFilter filter = 0) : Accepted filter := by
  have heinval : einval ≠ 0 := by decide
  unfold skChkFilter at h
  split_ifs at h with hlen hchk
  · exact absurd h heinval
  · rw [not_or, Nat.not_lt] at hlen
    refine ⟨Nat.pos_of_ne_zero hlen.1, hlen.2, fun pc fentry hpc => ?_, fun fentry hlast => ?_⟩
    · simpa using chkFrom_insn hchk hpc
    · rw [List.getLast?_eq_getElem?, hlast] at h
      by_contra hclass
      exact heinval (by simpa [hclass] using h)
  · exact absurd h heinval

theorem toInt_ofNat_of_lt (hn : n < bpfMaxinsns) : (BitVec.ofNat 32 n).toInt = n := by
  have hmax : bpfMaxinsns = 4096 := rfl
  rw [BitVec.toInt_eq_toNat_of_lt] <;> rw [BitVec.toNat_ofNat, Nat.mod_eq_of_lt] <;> omega

section

variable (hok : Accepted filter) (skb : SkBuff) (hpc : vm.pc = BitVec.ofNat 32 n)
include hok hpc

/-- A round at place `n` executes the instruction there. -/
theorem step_eq (hfetch : filter[n]? = some fentry) :
    step filter skb vm = (execInsn skb vm fentry).bind fun vm =>
      .ok { vm with pc := vm.pc + 1 } := by
  have hle := hok.le
  have hn : n < filter.length := (List.getElem?_eq_some_iff.mp hfetch).1
  have hint : vm.pc.toInt = n := by rw [hpc, toInt_ofNat_of_lt (by omega)]
  rw [step, hint, if_pos (by omega), if_neg (by omega), Int.toNat_natCast, hfetch]
  rfl

/-- One round of an accepted filter ends properly, or goes on at a later instruction. -/
theorem step_advances (hfetch : filter[n]? = some fentry) :
    match step filter skb vm with
    | .ok vm' => ∃ m, n < m ∧ m < filter.length ∧ Follows n fentry m ∧ vm'.pc = BitVec.ofNat 32 m
    | .error outcome => outcome.Proper := by
  have hn : n < filter.length := (List.getElem?_eq_some_iff.mp hfetch).1
  have hlast : isRetClass fentry.code = true ∨ n + 1 < filter.length := by
    by_cases hend : n + 1 < filter.length
    · exact .inr hend
    · refine .inl (hok.last fentry ?_)
      rwa [show filter.length - 1 = n by omega]
  have hexec := execInsn_advances skb vm (hok.insns n fentry hfetch) hlast
  rw [step_eq hok skb hpc hfetch]
  cases hresult : execInsn skb vm fentry with
  | error outcome =>
    rw [hresult] at hexec
    exact hexec
  | ok vm' =>
    rw [hresult] at hexec
    obtain ⟨offset, hoffset, hpc'⟩ := hexec
    refine ⟨n + offset + 1, by omega, hoffset.2, hoffset.1, ?_⟩
    change vm'.pc + 1 = _
    rw [hpc', hpc, BitVec.ofNat_add, BitVec.ofNat_add]
    rfl

/-- A run of an accepted filter from place `n` ends properly within the rounds that are left. -/
theorem runFrom_proper {fuel : ℕ} (hn : n < filter.length) (hfuel : filter.length ≤ n + fuel) :
    ∃ outcome, runFrom filter skb fuel vm = some outcome ∧ outcome.Proper := by
  induction fuel generalizing vm n with
  | zero => omega
  | succ fuel ih =>
    have hadvances := step_advances hok skb hpc (List.getElem?_eq_getElem hn)
    rw [runFrom]
    cases hresult : step filter skb vm with
    | error outcome =>
      rw [hresult] at hadvances
      exact ⟨outcome, rfl, hadvances⟩
    | ok vm' =>
      rw [hresult] at hadvances
      obtain ⟨m, hlt, hm, -, hpc'⟩ := hadvances
      exact ih hpc' hm (by omega)

end

/-- The states that a run goes through. -/
inductive Reaches (filter : List SockFilter) (skb : SkBuff) : Vm → Vm → Prop
  | refl (vm : Vm) : Reaches filter skb vm vm
  | step {vm vm' vm'' : Vm} (h : Reaches filter skb vm vm')
      (hstep : Filter.step filter skb vm' = .ok vm'') : Reaches filter skb vm vm''

theorem Reaches.pc_lt {skb : SkBuff} {vm' : Vm} (h : Reaches filter skb vm vm')
    (hok : Accepted filter) (hstart : ∃ n < filter.length, vm.pc = BitVec.ofNat 32 n) :
    ∃ n < filter.length, vm'.pc = BitVec.ofNat 32 n := by
  induction h with
  | refl => exact hstart
  | step h hstep ih =>
    obtain ⟨n, hn, hpc⟩ := ih
    have hadvances := step_advances hok skb hpc (List.getElem?_eq_getElem hn)
    rw [hstep] at hadvances
    obtain ⟨m, -, hm, -, hpc'⟩ := hadvances
    exact ⟨m, hm, hpc'⟩

/-- Every accepted filter is safe to run on every packet: within as many rounds as it has
instructions it ends with a `BPF_RET` instruction or with `return 0` for a failed load or a division
by a zero index register, and the program counter never leaves the filter on the way. -/
theorem accepted_filter_safe {filter : List SockFilter} (h : skChkFilter filter = 0)
    (skb : SkBuff) (mem : Fin 16 → BitVec 32) :
    (∃ outcome, skRunFilter filter skb mem filter.length = some outcome ∧ outcome.Proper) ∧
      ∀ vm, Reaches filter skb (.start mem) vm → 0 ≤ vm.pc.toInt ∧ vm.pc.toInt < filter.length := by
  have hok := skChkFilter_accepted h
  refine ⟨runFrom_proper hok skb rfl hok.pos (by omega), fun vm hvm => ?_⟩
  obtain ⟨n, hn, hpc⟩ := hvm.pc_lt hok ⟨0, hok.pos, rfl⟩
  have hle := hok.le
  rw [hpc, toInt_ofNat_of_lt (by omega)]
  omega

/-- The same for the filter that loads a word. -/
theorem accepted_filter_safe_load :
    (∃ outcome, skRunFilter loadThenReturn emptyPacket (fun _ => 0) loadThenReturn.length =
        some outcome ∧ outcome.Proper) ∧
      ∀ vm, Reaches loadThenReturn emptyPacket (.start fun _ => 0) vm →
        0 ≤ vm.pc.toInt ∧ vm.pc.toInt < loadThenReturn.length :=
  accepted_filter_safe (by decide +kernel) emptyPacket fun _ => 0

end AndroidKernel.Filter
