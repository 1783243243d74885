import AndroidKernel.Binder.Frames

/-!
# Processes and their threads

A process lists its threads, and every listed thread belongs to the process. Only
`binder_get_thread`, `binder_free_thread` and the end of a process change any of this.
-/

namespace AndroidKernel.Binder

open RbTree Heap List

namespace State

/-- The thread exists and belongs to the process. -/
def HasThread (s : State) (p id : Id) : Prop :=
  ∃ thread, s.calls.threads.cell id = some thread ∧ thread.proc = p

/-- The new thread of `binder_get_thread`. -/
def newThread (s : State) (p : Id) (pid : ℕ) : State :=
  let id := s.calls.threads.next
  let threads := s.calls.threads.alloc ⟨p, pid, none, brOk, brOk, false, false⟩
  let key (i : Id) : ℕ := (threads.cell i).elim 0 Thread.pid
  { s with
    calls := { s.calls with threads := threads, threadStat := s.calls.threadStat.create }
    procs := s.procs.modify p fun proc =>
      { proc with threads := proc.threads.orderedInsert (fun a b => key a ≤ key b) id } }

/-- The same threads in the same processes, which have the device open as before. -/
structure SameRoster (s s' : State) : Prop where
  threads : ∀ id, (s'.calls.threads.cell id).map Thread.proc =
    (s.calls.threads.cell id).map Thread.proc
  procs : ∀ p, (s'.procs.cell p).map Proc.threads = (s.procs.cell p).map Proc.threads
  next : s'.procs.next = s.procs.next
  binderProcs : s'.binderProcs = s.binderProcs

namespace SameRoster

variable {s s' t : State} {rb : Balance ℕ} {p id : Id} {b : BufferId}

theorem refl (s : State) : s.SameRoster s := ⟨fun _ => rfl, fun _ => rfl, rfl, rfl⟩

theorem trans (h : s.SameRoster t) (h' : t.SameRoster s') : s.SameRoster s' where
  threads id := (h'.threads id).trans (h.threads id)
  procs p := (h'.procs p).trans (h.procs p)
  next := h'.next.trans h.next
  binderProcs := h'.binderProcs.trans h.binderProcs

section

variable (hlist : s'.binderProcs = s.binderProcs)
include hlist

theorem of_eq (hcalls : s'.calls.threads = s.calls.threads) (hprocs : s'.procs = s.procs) :
    s.SameRoster s' :=
  ⟨fun _ => by rw [hcalls], fun _ => by rw [hprocs], by rw [hprocs], hlist⟩

theorem of_unwinds (h : s.calls.Unwinds s'.calls) (hprocs : s'.procs = s.procs) :
    s.SameRoster s' := by
  refine ⟨fun id => ?_, fun _ => by rw [hprocs], by rw [hprocs], hlist⟩
  have hproc : Thread.proc ∘ Thread.still = Thread.proc := rfl
  have hmap := congrArg (Option.map Thread.proc) (h.still id)
  rwa [Option.map_map, Option.map_map, hproc] at hmap

theorem of_modifyThread {f : Thread → Thread}
    (hcalls : s'.calls.threads = s.calls.threads.modify id f)
    (hf : ∀ thread, (f thread).proc = thread.proc) (hprocs : s'.procs = s.procs) :
    s.SameRoster s' := by
  refine ⟨fun i => ?_, fun _ => by rw [hprocs], by rw [hprocs], hlist⟩
  rw [hcalls, cell_modify]
  split_ifs with hi
  · subst hi
    cases s.calls.threads.cell i <;> simp [hf]
  · rfl

theorem of_modifyProc {f : Proc → Proc} (hcalls : s'.calls.threads = s.calls.threads)
    (hprocs : s'.procs = s.procs.modify p f) (hf : ∀ proc, (f proc).threads = proc.threads) :
    s.SameRoster s' := by
  refine ⟨fun _ => by rw [hcalls], fun i => ?_, by rw [hprocs]; rfl, hlist⟩
  rw [hprocs, cell_modify]
  split_ifs with hi
  · subst hi
    cases s.procs.cell i <;> simp [hf]
  · rfl

end

theorem of_release {w : Work} (h : s.Release w s') : s.SameRoster s' := by
  cases h with
  | failed _ _ _ _ hsend => exact of_unwinds rfl (.of_binderSendFailedReply hsend) rfl
  | dropped | complete | object => exact of_eq rfl rfl rfl

theorem of_binderReleaseWork {q : Queue} (h : s.binderReleaseWork q = .ok s') : s.SameRoster s' :=
  foldlM_ok (R := fun _ t => s.SameRoster t)
    (fun _ _ _ _ hR h => hR.trans (of_release (.of_ok h))) (.refl _) h

theorem of_commit {target : Target} {tr : TransactionData} (h : s.Commit id target b tr s') :
    s.SameRoster s' := by
  cases h with
  | @reply call calls _ hpop =>
    have hpopped : s.SameRoster { s with calls := calls } :=
      of_unwinds rfl (.of_binderPopTransaction hpop) rfl
    exact hpopped.trans (of_eq rfl rfl rfl)
  | waiting | oneWay => exact of_eq rfl rfl rfl
  | call => exact of_modifyThread rfl rfl (fun _ => rfl) rfl

theorem of_fail {error : ℕ} {inReplyTo : Option Id} (h : s.fail id error inReplyTo = .ok s') :
    s.SameRoster s' := by
  obtain ⟨calls, hfail, rfl⟩ := fail_ok h
  exact of_unwinds rfl (.of_failTransaction hfail) rfl

theorem of_readTransaction {t : Id} (h : s.ReadTransaction id t s') : s.SameRoster s' := by
  cases h with
  | oneWay | reply => exact of_eq rfl rfl rfl
  | call => exact of_modifyThread rfl rfl (fun _ => rfl) rfl

theorem of_binderFreeBuf (h : s.binderFreeBuf rb b = .ok s') : s.SameRoster s' := by
  obtain ⟨proc, area, area', -, -, -, -, rfl⟩ := binderFreeBuf_ok h
  exact of_modifyProc rfl rfl rfl (fun _ => rfl)

theorem of_detach : s.SameRoster (s.detach b) := by
  unfold detach
  split <;> exact of_eq rfl rfl rfl

theorem of_nextAsync (h : s.NextAsync id b s') : s.SameRoster s' := by
  cases h <;> exact of_eq rfl rfl rfl

theorem of_binderAllocBuf {dataSize offsetsSize : ℕ} {isAsync : Bool} {faults : PageFaults}
    {b : Option ℕ} (h : s.binderAllocBuf rb p dataSize offsetsSize isAsync faults = .ok (b, s')) :
    s.SameRoster s' ∧ s'.objs = s.objs := by
  obtain ⟨proc, -, h⟩ := Except.of_bind h
  split at h
  · cases h
    exact ⟨.refl _, rfl⟩
  · obtain ⟨⟨b', area⟩, -, h⟩ := Except.of_bind h
    cases h
    exact ⟨of_modifyProc rfl rfl rfl (fun _ => rfl), rfl⟩

theorem of_mmap {area : VmArea} {header : ℕ → BufferHeader} {step : ℕ → PageStep} {files : Files}
    (h : s.mmap rb p area header step files = .ok s') : s.SameRoster s' ∧ s'.objs = s.objs := by
  obtain rfl | ⟨proc, area', -, -, -, rfl⟩ := mmap_ok h
  · exact ⟨.refl _, rfl⟩
  · exact ⟨of_modifyProc rfl rfl rfl (fun _ => rfl), rfl⟩

theorem hasThread_iff (h : s.SameRoster s') (p id : Id) : s'.HasThread p id ↔ s.HasThread p id := by
  have := h.threads id
  unfold HasThread
  constructor <;> rintro ⟨thread, hthread, rfl⟩
  · rw [hthread] at this
    obtain ⟨thread', hthread', hproc⟩ := Option.map_eq_some_iff.mp this.symm
    exact ⟨thread', hthread', hproc⟩
  · rw [hthread] at this
    obtain ⟨thread', hthread', hproc⟩ := Option.map_eq_some_iff.mp this
    exact ⟨thread', hthread', hproc⟩

end SameRoster

/-- Each process lists threads of its own. -/
def Rostered (s : State) : Prop :=
  ∀ p proc, s.procs.cell p = some proc → proc.threads.Nodup ∧ ∀ id ∈ proc.threads, s.HasThread p id

namespace Rostered

variable {s s' : State}

theorem init : State.init.Rostered := by
  intro p proc hproc
  cases hproc

theorem sameRoster (h : s.Rostered) (hsame : s.SameRoster s') : s'.Rostered := by
  intro p proc hproc
  have hthreads := hsame.procs p
  rw [hproc] at hthreads
  obtain ⟨proc', hproc', heq⟩ := Option.map_eq_some_iff.mp hthreads.symm
  rw [← heq]
  refine ⟨(h p proc' hproc').1, fun id hid => ?_⟩
  rw [hsame.hasThread_iff]
  exact (h p proc' hproc').2 id hid

theorem openDevice (h : s.Rostered) : s.openDevice.Rostered := by
  intro p proc hproc
  simp only [State.openDevice, cell_alloc] at hproc
  split_ifs at hproc
  · cases hproc
    exact ⟨nodup_nil, by simp⟩
  · exact h p proc hproc

theorem freeProc (h : s.Rostered) {p : Id} {stat : Stat} :
    Rostered { s with procs := s.procs.free p, procStat := stat } := by
  intro q proc hproc
  simp only [cell_free] at hproc
  split_ifs at hproc
  exact h q proc hproc

theorem newThread (h : s.Rostered) (p : Id) (pid : ℕ) : (s.newThread p pid).Rostered := by
  have hkeep {q id : Id} (hid : s.HasThread q id) : (s.newThread p pid).HasThread q id := by
    obtain ⟨thread, hthread, hproc⟩ := hid
    exact ⟨thread, cell_alloc_of_cell _ hthread, hproc⟩
  intro q proc hproc
  simp only [State.newThread, cell_modify] at hproc
  split_ifs at hproc with hq
  · subst hq
    obtain ⟨proc', hproc', rfl⟩ := Option.map_eq_some_iff.mp hproc
    obtain ⟨hnodup, hthreads⟩ := h q proc' hproc'
    have hfresh : s.calls.threads.next ∉ proc'.threads := by
      intro hmem
      obtain ⟨thread, hthread, -⟩ := hthreads _ hmem
      simp at hthread
    constructor
    · exact ((perm_orderedInsert _ _ _).nodup_iff).mpr (List.nodup_cons.mpr ⟨hfresh, hnodup⟩)
    · intro id hid
      rcases List.mem_cons.mp ((perm_orderedInsert _ _ _).mem_iff.mp hid) with rfl | hid
      · exact ⟨_, cell_alloc_self _ _, rfl⟩
      · exact hkeep (hthreads id hid)
  · obtain ⟨hnodup, hthreads⟩ := h q proc hproc
    exact ⟨hnodup, fun id hid => hkeep (hthreads id hid)⟩

end Rostered

end State

end AndroidKernel.Binder
