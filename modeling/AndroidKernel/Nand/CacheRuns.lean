import AndroidKernel.Nand.PageCache
import Mathlib.Data.UInt

/-!
# Sequences of calls to the NAND driver

Over any sequence of calls in which each one is as asked, the cache holds the page that it names and
what a read returns with success is what the device holds. Without the conditions this fails: a
read with OOB bytes overwrites the buffer of another page, a page that could not be corrected stays
cached, and a write beyond two gigabytes misses the cached page.
-/

namespace AndroidKernel.Nand

variable {chip : Chip} {s : State}

/-- What is asked of a call. -/
def State.Meets (chip : Chip) (s : State) : Call → Prop
  | .read ops reads => ops.Meets chip s reads
  | .write ops _ _ => ops.Meets chip s
  | .erase .. => True

/-- Every call of the sequence is as asked in the state where it is made. -/
def State.AllMeet (chip : Chip) (s : State) : List Call → Prop
  | [] => True
  | call :: calls => s.Meets chip call ∧ ∀ s' r, s.step chip call = some (s', r) →
      s'.AllMeet chip calls

/-- What a call that is a read returns. -/
def State.Honest (chip : Chip) (s : State) (call : Call) (r : Return) : Prop :=
  match call with
  | .read ops reads => ops.Honest chip s reads r
  | _ => True

theorem State.Coherent.step (h : s.Coherent chip) {call : Call} (hcall : s.Meets chip call) :
    ∃ s' r, s.step chip call = some (s', r) ∧ s'.Coherent chip ∧ s.Honest chip call r := by
  cases call with
  | read ops reads =>
    obtain ⟨s', r, hrun, hgood, -, hhonest⟩ := h.nandDoReadOps hcall
    exact ⟨s', r, hrun, hgood, hhonest⟩
  | write ops writes wp =>
    obtain ⟨s', r, hrun, hgood⟩ := h.nandDoWriteOps hcall writes wp
    exact ⟨s', r, hrun, hgood, trivial⟩
  | erase addr len erases wp =>
    obtain ⟨s', r, hrun, hgood⟩ := h.nandEraseNand erases wp addr len
    exact ⟨s', r, hrun, hgood, trivial⟩

theorem State.Coherent.run (h : s.Coherent chip) {calls rest : List Call}
    (hcalls : s.AllMeet chip (calls ++ rest)) :
    ∃ s', s.run chip calls = some s' ∧ s'.Coherent chip ∧ s'.AllMeet chip rest := by
  induction calls generalizing s with
  | nil => exact ⟨s, rfl, h, hcalls⟩
  | cons call calls ih =>
    obtain ⟨hcall, hnext⟩ := hcalls
    obtain ⟨s₁, r, hstep, hgood, -⟩ := h.step hcall
    obtain ⟨s₂, hrun, hrest⟩ := ih hgood (hnext s₁ r hstep)
    exact ⟨s₂, by simp [State.run, hstep, hrun], hrest⟩

/-- After any sequence of calls as asked the buffer holds the cached page, and so it does after one
more; what that one returns with success is what the device holds, page by page delivered or from
the cache. -/
theorem page_cache_coherent (chip : Chip) (flash : ℕ → ℕ → Page) (databuf : Page)
    (calls : List Call) (call : Call)
    (h : (State.init flash databuf).AllMeet chip (calls ++ [call])) :
    ∃ s s' r, (State.init flash databuf).run chip calls = some s ∧ s.Coherent chip ∧
      s.step chip call = some (s', r) ∧ s'.Coherent chip ∧ s.Honest chip call r := by
  have hinit : (State.init flash databuf).Coherent chip := .uncached ⟨-1, databuf, flash, 0, 0⟩ _
  obtain ⟨s, hrun, hgood, hcall, -⟩ := hinit.run h
  obtain ⟨s', r, hstep, hgood', hhonest⟩ := hgood.step hcall
  exact ⟨s, s', r, hrun, hgood, hstep, hgood', hhonest⟩

/-- A chip with pages of four bytes, where programming clears bits. -/
def smallChip : Chip where
  pageShift := 2
  physEraseShift := 3
  chipShift := 32
  subpageShift := 1
  size := 2 ^ 33
  nandSubpageRead := false
  program old new := fun j => old j &&& new j
  subpage_pos := Nat.one_pos
  subpage_le := by decide
  page_le := by decide
  erase_le := by decide

/-- Every byte of a page is the number of the page. -/
def numbered : ℕ → ℕ → Page := fun _ page _ => UInt8.ofNat page

/-- Two bytes from an address, with or without OOB bytes. -/
def readTwo (addr : ℕ) (oob : Bool) : ReadOps := ⟨addr, 2, oob, 0, 0⟩

/-- Every page is delivered. -/
def deliverAll : ℕ → PageRead := fun _ => .delivered 0

/-- Part of a page is read twice, the second time from the cache. -/
theorem page_cache_coherent_twice :
    (State.init numbered 0).AllMeet smallChip
      ([.read (readTwo 5 false) deliverAll] ++ [.read (readTwo 4 false) deliverAll]) ∧
    ∃ s s' r, (State.init numbered 0).run smallChip [.read (readTwo 5 false) deliverAll] = some s ∧
      s.Coherent smallChip ∧ s.step smallChip (.read (readTwo 4 false) deliverAll) = some (s', r) ∧
      s'.Coherent smallChip ∧ s.Honest smallChip (.read (readTwo 4 false) deliverAll) r := by
  have h : (State.init numbered 0).AllMeet smallChip
      ([.read (readTwo 5 false) deliverAll] ++ [.read (readTwo 4 false) deliverAll]) :=
    ⟨fun _ _ _ => .inl ⟨⟨0, rfl⟩, .inl rfl⟩, fun _ _ _ =>
      ⟨fun _ _ _ => .inl ⟨⟨0, rfl⟩, .inl rfl⟩, fun _ _ _ => trivial⟩⟩
  exact ⟨h, page_cache_coherent smallChip numbered 0 _ _ h⟩

/-- Whole pages of nines that nothing could correct. -/
def correctNone : ℕ → PageRead := fun _ => .uncorrectable (fun _ => 9) 0 0

/-- Zeros for the page at an address. -/
def writeZeros (addr : ℕ) : WriteOps := ⟨addr, [0, 0, 0, 0], false, 0, 0, 0, by decide⟩

/-- The return values and the data of a sequence of calls. -/
def answers (chip : Chip) : State → List Call → Option (List (ℤ × List UInt8))
  | _, [] => some []
  | s, call :: calls => do
    let (s, r) ← s.step chip call
    let rest ← answers chip s calls
    return (r.ret, r.datbuf) :: rest

/-- With page 0 cached, a read of a part of page 1 with OOB bytes makes the next read of page 0
return bytes of page 1. A page that could not be corrected is reported once, and then its data is
returned with success. The cached page at two gigabytes is written, and the next read returns its
older contents. -/
theorem cached_page_stale :
    answers smallChip (State.init numbered 0) [.read (readTwo 0 false) deliverAll,
      .read (readTwo 5 true) deliverAll, .read (readTwo 0 false) deliverAll] =
      some [(0, [0, 0]), (0, [1, 1]), (0, [1, 1])] ∧
    answers smallChip (State.init numbered 0) [.read (readTwo 0 false) correctNone,
      .read (readTwo 0 false) deliverAll] = some [(ebadmsg, [9, 9]), (0, [9, 9])] ∧
    answers smallChip (State.init (fun _ _ _ => 7) 0) [.read (readTwo (2 ^ 31) false) deliverAll,
      .write (writeZeros (2 ^ 31)) (fun _ => .done) false,
      .read (readTwo (2 ^ 31) false) deliverAll] = some [(0, [7, 7]), (0, []), (0, [7, 7])] := by
  decide +kernel

end AndroidKernel.Nand
