import AndroidKernel.Locks.Posix
import Mathlib.Data.Finset.Card
import Mathlib.Logic.Relation

/-!
# Deadlocks between POSIX lock owners

The list `blocked_list` of `fs/locks.c` and the search of `posix_locks_deadlock` in it. As long as
an owner waits for one lock at a time and the search meets no chain of more than eleven owners, no
cycle of owners that wait for one another comes about.
-/

namespace AndroidKernel.Locks

open Finset List Relation

variable {ω : Type} [DecidableEq ω]

/-- `MAX_DEADLK_ITERATIONS` -/
def maxDeadlkIterations : ℕ := 10

/-- An entry of `blocked_list`: its owner, and the owner of the lock that `fl_next` points to. -/
structure Blocked (ω : Type) where
  owner : ω
  next : ω
  deriving DecidableEq

/-- `what_owner_is_waiting_for` -/
def whatOwnerIsWaitingFor (blocked : List (Blocked ω)) (owner : ω) : Option ω :=
  (blocked.find? (·.owner = owner)).map Blocked.next

/-- The loop of `posix_locks_deadlock`, for the given number of comparisons. -/
def deadlockWithin (blocked : List (Blocked ω)) (caller : ω) : ℕ → ω → Bool
  | 0, _ => false
  | n + 1, block =>
    match whatOwnerIsWaitingFor blocked block with
    | none => false
    | some next => if caller = next then true else deadlockWithin blocked caller n next

/-- `posix_locks_deadlock`: the check `i++ > MAX_DEADLK_ITERATIONS` fails eleven times. -/
def posixLocksDeadlock (blocked : List (Blocked ω)) (caller block : ω) : Bool :=
  deadlockWithin blocked caller (maxDeadlkIterations + 1) block

/-- What changes the list. -/
inductive BlockOp (ω : Type) where
  /-- A request of `__posix_lock_file` with `FL_SLEEP` meets a lock of another owner. -/
  | request (caller block : ω)
  /-- `__locks_delete_block` on an entry. -/
  | delete (i : ℕ)

/-- One change; a request that would deadlock fails with `-EDEADLK`, and one that would not is put
at the head of the list by `locks_insert_block`. -/
def BlockOp.step (blocked : List (Blocked ω)) : BlockOp ω → List (Blocked ω)
  | .request caller block =>
    if posixLocksDeadlock blocked caller block then blocked else ⟨caller, block⟩ :: blocked
  | .delete i => blocked.eraseIdx i

/-- An owner waits for another. -/
def Waits (blocked : List (Blocked ω)) (a b : ω) : Prop := ⟨a, b⟩ ∈ blocked

open Classical in
/-- The chain of owners that wait, from an owner on. -/
noncomputable def ahead (blocked : List (Blocked ω)) (a : ω) : Finset ω :=
  {b ∈ (blocked.map Blocked.owner).toFinset | ReflTransGen (Waits blocked) a b}

/-- A request conflicts with another owner's lock, its owner is not waiting, and the chain from the
other owner is no longer than the loop can follow. -/
def BlockOp.Legal (blocked : List (Blocked ω)) : BlockOp ω → Prop
  | .request caller block => caller ≠ block ∧ caller ∉ blocked.map Blocked.owner ∧
    (ahead blocked block).card ≤ maxDeadlkIterations + 1
  | .delete _ => True

/-- Every change is legal when it is made. -/
def AllLegal (blocked : List (Blocked ω)) : List (BlockOp ω) → Prop
  | [] => True
  | op :: ops => op.Legal blocked ∧ AllLegal (op.step blocked) ops

/-- Each owner waits once, and none for itself in the end. -/
structure Acyclic (blocked : List (Blocked ω)) : Prop where
  nodup : (blocked.map Blocked.owner).Nodup
  irrefl : ∀ a, ¬ TransGen (Waits blocked) a a

variable {blocked : List (Blocked ω)} {a b caller block : ω}

theorem waits_of_whatOwner (h : whatOwnerIsWaitingFor blocked a = some b) : Waits blocked a b := by
  obtain ⟨e, he, rfl⟩ := Option.map_eq_some_iff.mp h
  obtain rfl : e.owner = a := by simpa using List.find?_some he
  exact mem_of_find?_eq_some he

/-- An owner that waits once is found. -/
theorem Waits.whatOwner_eq (h : Waits blocked a b) (hnodup : (blocked.map Blocked.owner).Nodup) :
    whatOwnerIsWaitingFor blocked a = some b := by
  have hsome : (blocked.find? (·.owner = a)).isSome :=
    List.find?_isSome.mpr ⟨⟨a, b⟩, h, by simp⟩
  obtain ⟨e, he⟩ := Option.isSome_iff_exists.mp hsome
  have howner : e.owner = a := by simpa using List.find?_some he
  have heq := inj_on_of_nodup_map hnodup (mem_of_find?_eq_some he) h howner
  rw [whatOwnerIsWaitingFor, he, heq]
  rfl

/-- What is found is a cycle that the request would close. -/
theorem transGen_of_deadlockWithin {n : ℕ} (h : deadlockWithin blocked caller n block = true) :
    TransGen (Waits blocked) block caller := by
  induction n generalizing block with
  | zero => cases h
  | succ n ih =>
    rw [deadlockWithin] at h
    cases hnext : whatOwnerIsWaitingFor blocked block with
    | none => simp [hnext] at h
    | some next =>
      simp only [hnext] at h
      split_ifs at h with heq
      · exact heq ▸ .single (waits_of_whatOwner hnext)
      · exact .head (waits_of_whatOwner hnext) (ih h)

theorem mem_ahead : b ∈ ahead blocked a ↔
    b ∈ blocked.map Blocked.owner ∧ ReflTransGen (Waits blocked) a b := by
  simp only [ahead, Finset.mem_filter, mem_toFinset]

theorem card_ahead_le (blocked : List (Blocked ω)) (a : ω) :
    (ahead blocked a).card ≤ blocked.length := by
  classical
  exact (card_filter_le _ _).trans ((toFinset_card_le _).trans_eq (length_map _))

/-- Along a step fewer owners are ahead, as the first one is not met again. -/
theorem Acyclic.card_ahead_lt (h : Acyclic blocked) (hw : Waits blocked a b) :
    (ahead blocked b).card < (ahead blocked a).card := by
  refine card_lt_card (ssubset_iff_of_subset ?_ |>.mpr ⟨a, ?_, ?_⟩)
  · intro c hc
    rw [mem_ahead] at hc ⊢
    exact ⟨hc.1, .head hw hc.2⟩
  · exact mem_ahead.mpr ⟨mem_map_of_mem hw, .refl⟩
  · exact fun hc => h.irrefl a (.head' hw (mem_ahead.mp hc).2)

theorem Acyclic.deadlockWithin {n : ℕ} (h : Acyclic blocked)
    (hreach : TransGen (Waits blocked) block caller) (hn : (ahead blocked block).card ≤ n) :
    deadlockWithin blocked caller n block = true := by
  induction hreach using TransGen.head_induction_on generalizing n with
  | single hw =>
    have hlt := h.card_ahead_lt hw
    obtain ⟨n, rfl⟩ := Nat.exists_eq_succ_of_ne_zero (show n ≠ 0 by omega)
    simp [Locks.deadlockWithin, hw.whatOwner_eq h.nodup]
  | head hw _ ih =>
    have hlt := h.card_ahead_lt hw
    obtain ⟨n, rfl⟩ := Nat.exists_eq_succ_of_ne_zero (show n ≠ 0 by omega)
    rw [Locks.deadlockWithin, hw.whatOwner_eq h.nodup]
    simp [ih (n := n) (by omega)]

/-- The search is exact for chains of up to eleven owners. -/
theorem Acyclic.posixLocksDeadlock_iff (h : Acyclic blocked)
    (hchain : (ahead blocked block).card ≤ maxDeadlkIterations + 1) :
    posixLocksDeadlock blocked caller block = true ↔ TransGen (Waits blocked) block caller :=
  ⟨transGen_of_deadlockWithin, fun hreach => h.deadlockWithin hreach hchain⟩

omit [DecidableEq ω] in
/-- A path with one more edge passes it or was there before. -/
theorem transGen_cons (h : TransGen (Waits (⟨caller, block⟩ :: blocked)) a b) :
    TransGen (Waits blocked) a b ∨
      ReflTransGen (Waits blocked) a caller ∧ ReflTransGen (Waits blocked) block b := by
  have hedge {a b} (hw : Waits (⟨caller, block⟩ :: blocked) a b) :
      Waits blocked a b ∨ a = caller ∧ b = block := by
    simpa [Waits, or_comm] using hw
  induction h with
  | single hw =>
    obtain hw | ⟨rfl, rfl⟩ := hedge hw
    · exact .inl (.single hw)
    · exact .inr ⟨.refl, .refl⟩
  | tail _ hw ih =>
    obtain hw | ⟨rfl, rfl⟩ := hedge hw
    · exact ih.imp (·.tail hw) fun ⟨h₁, h₂⟩ => ⟨h₁, h₂.tail hw⟩
    · exact .inr ⟨ih.elim (·.to_reflTransGen) (·.1), .refl⟩

theorem Acyclic.step (h : Acyclic blocked) {op : BlockOp ω} (hop : op.Legal blocked) :
    Acyclic (op.step blocked) := by
  cases op with
  | request caller block =>
    obtain ⟨hne, hnew, hchain⟩ := hop
    rw [BlockOp.step]
    split_ifs with hdead
    · exact h
    · refine ⟨List.nodup_cons.mpr ⟨hnew, h.nodup⟩, fun a ha => ?_⟩
      rcases transGen_cons ha with ha | ⟨h₁, h₂⟩
      · exact h.irrefl a ha
      · rcases reflTransGen_iff_eq_or_transGen.mp (h₂.trans h₁) with heq | hreach
        · exact hne heq
        · exact hdead ((h.posixLocksDeadlock_iff hchain).mpr hreach)
  | delete i =>
    have hsub : (blocked.eraseIdx i).Sublist blocked := eraseIdx_sublist _ i
    refine ⟨h.nodup.sublist (hsub.map _), fun a ha => h.irrefl a ?_⟩
    exact TransGen.mono (fun _ _ hw => hsub.mem hw) _ _ ha

theorem Acyclic.run {ops : List (BlockOp ω)} (h : Acyclic blocked) (hops : AllLegal blocked ops) :
    Acyclic (ops.foldl BlockOp.step blocked) := by
  induction ops generalizing blocked with
  | nil => exact h
  | cons op ops ih => exact ih (h.step hops.1) hops.2

/-- Whatever requests are made and entries deleted, in any order, no owners wait for one another in
a cycle, and `posix_locks_deadlock` refuses a request that meets a chain of up to eleven owners just
when it would close a cycle. -/
theorem no_deadlock (ops : List (BlockOp ω)) (hops : AllLegal [] ops) :
    let blocked := ops.foldl BlockOp.step []
    (∀ a, ¬ TransGen (Waits blocked) a a) ∧
    ∀ caller block, (ahead blocked block).card ≤ maxDeadlkIterations + 1 →
      (posixLocksDeadlock blocked caller block = true ↔
        TransGen (Waits blocked) block caller) := by
  have hempty : Acyclic ([] : List (Blocked ω)) := by
    refine ⟨nodup_nil, fun a ha => ?_⟩
    obtain ⟨b, hw, -⟩ := TransGen.head'_iff.mp ha
    cases hw
  have h := hempty.run hops
  exact ⟨h.irrefl, fun _ _ hchain => h.posixLocksDeadlock_iff hchain⟩

/-- Three owners, where the third request is refused and the first one goes away. -/
theorem no_deadlock_threeOwners :
    let blocked := [BlockOp.request 1 2, .request 2 3, .request 3 1, .delete 1].foldl
      BlockOp.step ([] : List (Blocked ℕ))
    blocked = [⟨2, 3⟩] ∧ ∀ a, ¬ TransGen (Waits blocked) a a := by
  have hchain {blocked : List (Blocked ℕ)} (h : blocked.length ≤ 11) (a : ℕ) :
      (ahead blocked a).card ≤ maxDeadlkIterations + 1 := (card_ahead_le blocked a).trans h
  refine ⟨by decide, (no_deadlock [.request 1 2, .request 2 3, .request 3 1, .delete 1] ?_).1⟩
  refine ⟨⟨?_, ?_, hchain ?_ 2⟩, ⟨?_, ?_, hchain ?_ 3⟩, ⟨?_, ?_, hchain ?_ 1⟩, trivial, trivial⟩
  all_goals decide

end AndroidKernel.Locks
