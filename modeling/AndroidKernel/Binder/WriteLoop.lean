import AndroidKernel.Binder.Driver

/-!
# The write buffer of `BINDER_WRITE_READ`

The loop of `binder_thread_write` over a buffer in user space, where any read may fault. On
return `*consumed` is behind the last command that was executed, and these are the commands that
the buffer holds up to there, each executed once and in order.
-/

namespace AndroidKernel.Binder

open RbTree

/-- `_IOW('c', nr, ..)` for an argument of `size` bytes -/
def iow (nr size : ℕ) : ℕ := 2 ^ 30 + size * 2 ^ 16 + 0x63 * 2 ^ 8 + nr

/-- `_IO('c', nr)` -/
def io (nr : ℕ) : ℕ := 0x63 * 2 ^ 8 + nr

/-- User space as one call of `binder_thread_write` sees it. The pointer of the loop only moves
on, so that no address is read twice; a read at or above `TASK_SIZE` faults, so that it does not
wrap either. -/
structure UserReads where
  /-- The 32-bit word at an address. -/
  word : ℕ → ℕ
  /-- The read at an address fails. -/
  fault : ℕ → Bool
  /-- Whether the `kzalloc` of the command at an address succeeds. -/
  alloc : ℕ → Bool
  /-- What a transaction at an address meets. -/
  env : ℕ → TransactionEnv

/-- The `struct binder_transaction_data` at an address, of 40 bytes. -/
def transactionDataAt (word : ℕ → ℕ) (ptr : ℕ) : TransactionData where
  handle := word ptr
  oneWay := (word (ptr + 12)).testBit 0
  acceptFds := (word (ptr + 12)).testBit 4
  dataSize := word (ptr + 24)
  offsetsSize := word (ptr + 28)
  data := fun i => word (word (ptr + 32) + 4 * i)
  offsets := fun i => word (word (ptr + 36) + 4 * i)

/-- The errors that `binder_thread_write` returns. -/
inductive WriteError where
  | efault
  | einval

/-- How a round of the loop ends: with a `return`, or with `ptr` behind a command. -/
inductive Round where
  | returned (error : WriteError) (s : State)
  | executed (s : State) (ptr : ℕ)

section Switch

variable {α : Type} (getUser : ℕ → (ℕ → α) → α) (execute : ℕ → Command → α) (einval : α)

/-- `switch (cmd)` in `binder_thread_write`. The command word is at `start`, its arguments are
from `ptr` on; `headerOf` is the header that belongs to a data pointer. `getUser` reads an
argument, `execute` stands for the effect of a command with `ptr` behind it. -/
def switchCommand (u : UserReads) (headerOf : ℕ → ℕ) (start ptr cmd : ℕ) : α :=
  if cmd = iow 4 4 then
    getUser ptr fun target => execute (ptr + 4) (.increfs target (u.alloc start))
  else if cmd = iow 5 4 then
    getUser ptr fun target => execute (ptr + 4) (.acquire target (u.alloc start))
  else if cmd = iow 6 4 then
    getUser ptr fun target => execute (ptr + 4) (.release target)
  else if cmd = iow 7 4 then
    getUser ptr fun target => execute (ptr + 4) (.decrefs target)
  else if cmd = iow 8 8 then
    getUser ptr fun nodePtr => getUser (ptr + 4) fun cookie =>
      execute (ptr + 8) (.increfsDone nodePtr cookie)
  else if cmd = iow 9 8 then
    getUser ptr fun nodePtr => getUser (ptr + 4) fun cookie =>
      execute (ptr + 8) (.acquireDone nodePtr cookie)
  else if cmd = iow 10 8 then einval
  else if cmd = iow 2 4 then einval
  else if cmd = iow 3 4 then
    getUser ptr fun dataPtr => execute (ptr + 4) (.freeBuffer (headerOf dataPtr))
  else if cmd = iow 0 40 then
    getUser ptr fun _ =>
      execute (ptr + 40) (.transaction (transactionDataAt u.word ptr) (u.env start))
  else if cmd = iow 1 40 then
    getUser ptr fun _ => execute (ptr + 40) (.reply (transactionDataAt u.word ptr) (u.env start))
  else if cmd = io 11 then execute ptr .registerLooper
  else if cmd = io 12 then execute ptr .enterLooper
  else if cmd = io 13 then execute ptr .exitLooper
  else if cmd = iow 14 8 then
    getUser ptr fun target => getUser (ptr + 4) fun cookie =>
      execute (ptr + 8) (.requestDeathNotification target cookie (u.alloc start))
  else if cmd = iow 15 8 then
    getUser ptr fun target => getUser (ptr + 4) fun cookie =>
      execute (ptr + 8) (.clearDeathNotification target cookie)
  else if cmd = iow 16 4 then
    getUser ptr fun cookie => execute (ptr + 4) (.deadBinderDone cookie)
  else einval

end Switch

/-- The command that the buffer holds at an address, and the address behind it. -/
def UserReads.commandAt (u : UserReads) (headerOf : ℕ → ℕ) (ptr : ℕ) : Option (Command × ℕ) :=
  switchCommand (fun a rest => rest (u.word a)) (fun a cmd => some (cmd, a)) none u headerOf ptr
    (ptr + 4) (u.word ptr)

/-- What an error of `binder_thread_write` comes from: one of the words of the command at `ptr`
cannot be read, or the buffer holds no command there. -/
def WriteError.CausedAt (u : UserReads) (headerOf : ℕ → ℕ) (ptr : ℕ) : WriteError → Prop
  | .efault => ∃ a, ptr ≤ a ∧ a ≤ ptr + 8 ∧ u.fault a = true
  | .einval => u.commandAt headerOf ptr = none

theorem ite_behind {c : Prop} [Decidable c] {ptr : ℕ} {o o' : Option (Command × ℕ)}
    (h : ∀ next, o = some next → ptr < next.2) (h' : ∀ next, o' = some next → ptr < next.2) :
    ∀ next, (if c then o else o') = some next → ptr < next.2 := by
  split
  · exact h
  · exact h'

theorem UserReads.lt_of_commandAt (u : UserReads) (headerOf : ℕ → ℕ) (ptr : ℕ) :
    ∀ next, u.commandAt headerOf ptr = some next → ptr < next.2 := by
  unfold commandAt switchCommand
  repeat' refine ite_behind ?_ ?_
  all_goals
    intro next h
    cases h
  all_goals
    dsimp only
    omega

/-- `if (get_user(x, ptr)) return -EFAULT;`, and `copy_from_user` likewise -/
def getUser (u : UserReads) (s : State) (ptr : ℕ) (rest : ℕ → Except Fault Round) :
    Except Fault Round :=
  if u.fault ptr then .ok (.returned .efault s) else rest (u.word ptr)

/-- What `binder_thread_write` leaves: the error it returns, if any, the state, and
`buffer + *consumed`. -/
structure Written where
  error : Option WriteError
  state : State
  consumed : ℕ

namespace State

section Loop

variable (rb : Balance ℕ) (u : UserReads) (headerOf : ℕ → ℕ) (p id : Id)

variable (s : State)

/-- The effect of a command, with `ptr` behind it. -/
def execute (ptr : ℕ) (cmd : Command) : Except Fault Round :=
  (s.command rb p id cmd).map (.executed · ptr)

/-- The body of the loop of `binder_thread_write`. -/
def writeRound (ptr : ℕ) : Except Fault Round :=
  getUser u s ptr fun cmd =>
    switchCommand (getUser u s) (s.execute rb p id) (.ok (.returned .einval s)) u headerOf ptr
      (ptr + 4) cmd

/-- The loop of `binder_thread_write` up to `stop`. As `*consumed` follows `ptr` at the end of
each round, it is `ptr` at the start of the next one. At most `fuel` rounds are made. -/
def writeLoop (stop : ℕ) : ℕ → State → ℕ → Except Fault Written
  | 0, s, ptr => .ok ⟨none, s, ptr⟩
  | fuel + 1, s, ptr => do
    let thread ← s.calls.threads.get .danglingThread id
    if ptr < stop ∧ thread.returnError = brOk then
      match ← s.writeRound rb u headerOf p id ptr with
      | .returned error s => .ok ⟨some error, s, ptr⟩
      | .executed s ptr => writeLoop stop fuel s ptr
    else .ok ⟨none, s, ptr⟩

/-- The commands that a buffer holds from one address up to another are executed in order. -/
inductive Executed (word : ℕ → ℕ) : ℕ → State → List Command → ℕ → State → Prop where
  | nil (ptr : ℕ) (s : State) : Executed word ptr s [] ptr s
  | cons {u : UserReads} {ptr ptr₁ ptr' : ℕ} {s s₁ s' : State} {cmd : Command}
    {cmds : List Command} (hword : u.word = word)
    (hat : u.commandAt headerOf ptr = some (cmd, ptr₁))
    (hcmd : s.command rb p id cmd = .ok s₁) (hrest : Executed word ptr₁ s₁ cmds ptr' s') :
    Executed word ptr s (cmd :: cmds) ptr' s'

/-- A round returns without effect, because a word from `start` on cannot be read or there is no
command, or executes the command that it is about. -/
def RoundSpec (start : ℕ) (next : Option (Command × ℕ)) : Round → Prop
  | .returned .efault s' => s' = s ∧ ∃ a, start ≤ a ∧ a ≤ start + 8 ∧ u.fault a = true
  | .returned .einval s' => s' = s ∧ next = none
  | .executed s' ptr => ∃ cmd, next = some (cmd, ptr) ∧ s.command rb p id cmd = .ok s'

end Loop

variable {rb : Balance ℕ} {u : UserReads} {headerOf word : ℕ → ℕ} {p id : Id} {s : State}
  {start ptr : ℕ}

theorem Executed.trans {ptr₁ ptr₂ : ℕ} {s₁ s₂ : State} {cmds cmds' : List Command}
    (h : Executed rb headerOf p id word ptr s cmds ptr₁ s₁)
    (h' : Executed rb headerOf p id word ptr₁ s₁ cmds' ptr₂ s₂) :
    Executed rb headerOf p id word ptr s (cmds ++ cmds') ptr₂ s₂ := by
  induction h with
  | nil => exact h'
  | cons hword hat hcmd _ ih => exact .cons hword hat hcmd (ih h')

theorem getUser_spec {next : Option (Command × ℕ)} {rest : ℕ → Except Fault Round}
    (hle : start ≤ ptr) (hge : ptr ≤ start + 8)
    (h : (rest (u.word ptr)).Ensures (RoundSpec rb u p id s start next)) :
    (getUser u s ptr rest).Ensures (RoundSpec rb u p id s start next) := by
  unfold getUser
  split
  next hfault => exact ⟨rfl, ptr, hle, hge, hfault⟩
  next => exact h

theorem execute_spec {cmd : Command} :
    (s.execute rb p id ptr cmd).Ensures (RoundSpec rb u p id s start (some (cmd, ptr))) := by
  unfold execute
  cases hcmd : s.command rb p id cmd with
  | error f => trivial
  | ok s' => exact ⟨cmd, rfl, hcmd⟩

theorem ite_spec {c : Prop} [Decidable c] {x y : Except Fault Round}
    {next next' : Option (Command × ℕ)} (hx : x.Ensures (RoundSpec rb u p id s start next))
    (hy : y.Ensures (RoundSpec rb u p id s start next')) :
    (if c then x else y).Ensures (RoundSpec rb u p id s start (if c then next else next')) := by
  split
  · exact hx
  · exact hy

/-- Each case of the `switch` reads all arguments before its effect. -/
theorem writeRound_spec : (s.writeRound rb u headerOf p id start).Ensures
    (RoundSpec rb u p id s start (u.commandAt headerOf start)) := by
  refine getUser_spec le_rfl (by omega) ?_
  unfold UserReads.commandAt switchCommand
  repeat' refine ite_spec ?_ ?_
  all_goals first
    | exact ⟨rfl, rfl⟩
    | exact execute_spec
    | exact getUser_spec (by omega) (by omega) execute_spec
    | exact getUser_spec (by omega) (by omega) (getUser_spec (by omega) (by omega) execute_spec)

/-- The loop ends behind the commands that it has executed: with an error of the command there, at
the end of the buffer, or because an error of the thread is pending. -/
theorem writeLoop_spec {stop fuel : ℕ} {r : Written} (hfuel : stop - ptr ≤ fuel)
    (hr : writeLoop rb u headerOf p id stop fuel s ptr = .ok r) :
    (∃ cmds, Executed rb headerOf p id u.word ptr s cmds r.consumed r.state) ∧
      (∀ e ∈ r.error, e.CausedAt u headerOf r.consumed) ∧ (r.error = none → stop ≤ r.consumed ∨
        ∃ thread, r.state.calls.threads.cell id = some thread ∧ thread.returnError ≠ brOk) := by
  induction fuel generalizing s ptr with
  | zero =>
    cases hr
    exact ⟨⟨[], .nil ptr s⟩, by simp,
      fun _ => .inl (Nat.sub_eq_zero_iff_le.mp (Nat.le_zero.mp hfuel))⟩
  | succ fuel ih =>
    obtain ⟨thread, hget, hr⟩ := Heap.of_get hr
    split at hr
    next hgo =>
      obtain ⟨round, hround, hr⟩ := Except.of_bind hr
      have hspec := writeRound_spec.of_eq hround
      cases round with
      | returned error s' =>
        cases hr
        obtain ⟨rfl, hcause⟩ : s' = s ∧ error.CausedAt u headerOf ptr := by
          cases error <;> exact hspec
        exact ⟨⟨[], .nil ptr s'⟩, by simpa using hcause, fun h => by cases h⟩
      | executed s' ptr' =>
        obtain ⟨cmd, hat, hcmd⟩ := hspec
        have hlt := u.lt_of_commandAt headerOf ptr _ hat
        obtain ⟨⟨cmds, hexec⟩, herror, hend⟩ := ih (by omega) hr
        exact ⟨⟨cmd :: cmds, .cons rfl hat hcmd hexec⟩, herror, hend⟩
    next hstop =>
      cases hr
      refine ⟨⟨[], .nil ptr s⟩, by simp, fun _ => ?_⟩
      by_cases hlt : ptr < stop
      · exact .inr ⟨thread, hget, fun hok => hstop ⟨hlt, hok⟩⟩
      · exact .inl (Nat.le_of_not_lt hlt)

end State

end AndroidKernel.Binder
