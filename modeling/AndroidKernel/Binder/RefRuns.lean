import AndroidKernel.Binder.DeathRuns

/-!
# References over whole runs

In every state the driver can reach, all views of the references agree: the two trees of each
process, the lists of the nodes and their counts of strong references. Each reference is counted,
as long as `binder_inc_ref` does not refuse one that was just made for it.
-/

namespace AndroidKernel.Binder

open RbTree State Balance

/-- Every allocation and every copy of a transaction succeeds. -/
def calmEnv : TransactionEnv :=
  ⟨true, true, .none, true, true, fun _ => true, fun _ => true, fun _ => none, fun _ => true, 0⟩

/-- A process maps a page. -/
def mapPage (p : Id) : Op :=
  .mmap p onePage (fun _ => ⟨false, false, 0, 0⟩) (fun _ => .done)
    ⟨fun _ => none, 0, 0, fun _ _ => rfl⟩

/-- A transaction with some words of data and of offsets. -/
def sampleData (handle : ℕ) (oneWay : Bool) (data offsets : List ℕ) : TransactionData :=
  ⟨handle, oneWay, false, 4 * data.length, 4 * offsets.length, fun i => data.getD i 0,
    fun i => offsets.getD i 0⟩

/-- A thread writes a command. -/
def writes (p : Id) (pid : ℕ) (cmd : Command) : Op := .ioctl p pid true (.write cmd)

/-- The context manager passes a weak handle on as a strong one: process 1 gives process 0 a weak
reference to a node, and process 0 answers process 2 with a strong handle for it. -/
def forwardedHandle : List Op :=
  [.openDevice, .openDevice, .openDevice, mapPage 0, mapPage 2,
    .ioctl 0 100 true (.setContextMgr 0 true),
    writes 2 102 (.transaction (sampleData 0 false [] []) calmEnv),
    .ioctl 0 100 true (.readWork true),
    writes 1 101 (.transaction (sampleData 0 true [typeWeakBinder, 0, 16, 0] [0]) calmEnv),
    writes 0 100 (.reply (sampleData 0 false [typeHandle, 0, 1, 0] [0]) calmEnv)]

/-- Process 2 is left with a reference that nothing counts: `binder_inc_ref` refuses the strong
count for want of a list to tell the owner on, and the reference that was made for it stays. -/
theorem forwarded_handle_uncounted : ∃ s r ref,
    init.run (spine ℕ) forwardedHandle = .ok s ∧ s.objs.refs.cell r = some ref ∧
      ref.proc = 2 ∧ ref.strong + ref.weak = 0 := by
  obtain ⟨s, hrun, hs⟩ := Except.exists_ok (x := init.run (spine ℕ) forwardedHandle)
    (f := fun s => (s.objs.refs.cell 1).any fun ref => ref.proc == 2 && ref.strong + ref.weak == 0)
    (by decide +kernel)
  cases href : s.objs.refs.cell 1 with
  | none => simp [href] at hs
  | some ref =>
    rw [href, Option.any_some, Bool.and_eq_true, beq_iff_eq, beq_iff_eq] at hs
    exact ⟨s, 1, ref, hrun, href, hs⟩

/-- In every run in which no count that is `INT_MAX` goes up, the references agree, and they are
counted if all are accepted. -/
theorem refs_agree_and_counted {rb : Balance ℕ} {ops : List Op} {s : State}
    (hrun : init.run rb ops = .ok s) :
    s.objs.RefsAgree ∧ (init.AllAccept rb ops →
      ∀ r ref, s.objs.refs.cell r = some ref → 0 < ref.strong + ref.weak) := by
  have hruns : Runs (init.AllAccept rb ops) False .init s := .run .init id False.elim hrun
  have h := hruns.tracked
  refine ⟨h.refs.consistent.refsAgree, fun haccept r ref hr => ?_⟩
  have := h.refs.counted haccept r ref hr
  omega

/-- Process 1 acquires the context manager and sends it a node, and process 0 sends the handle it
got back to process 1, which owns the node. -/
def acceptedHandles : List Op :=
  [.openDevice, .openDevice, mapPage 0, mapPage 1, .ioctl 0 100 true (.setContextMgr 0 true),
    writes 1 101 (.acquire 0 true),
    writes 1 101 (.transaction (sampleData 0 false [typeBinder, 0, 16, 0] [0]) calmEnv),
    .ioctl 0 100 true (.readWork true),
    writes 0 100 (.reply (sampleData 0 false [typeHandle, 0, 1, 0] [0]) calmEnv)]

theorem refs_agree_and_counted_accepted : ∃ s,
    init.run (spine ℕ) acceptedHandles = .ok s ∧ s.objs.RefsAgree ∧
      (∀ r ref, s.objs.refs.cell r = some ref → 0 < ref.strong + ref.weak) ∧
      (s.objs.refs.cell 0).isSome ∧ (s.objs.refs.cell 1).isSome := by
  obtain ⟨s, hrun, hs⟩ := Except.exists_ok (x := init.run (spine ℕ) acceptedHandles)
    (f := fun s => (s.objs.refs.cell 0).isSome && (s.objs.refs.cell 1).isSome)
    (by decide +kernel)
  obtain ⟨hagree, hcounted⟩ := refs_agree_and_counted hrun
  exact ⟨s, hrun, hagree, hcounted (by decide +kernel), Bool.and_eq_true_iff.mp hs⟩

end AndroidKernel.Binder
