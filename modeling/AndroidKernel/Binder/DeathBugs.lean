import AndroidKernel.Binder.RefRuns

/-!
# The `BUG`s of death notifications, and what comes of requests

`BC_CLEAR_DEATH_NOTIFICATION` and the release of a process contain a `BUG` each for death records
in an impossible state. No run reaches them. A request is heeded once its node has lost its owner,
unless `binder_release_work` drops the news with the list of a thread that exits.
-/

namespace AndroidKernel.Binder

open RbTree Except List Objs Area Calls State Balance

/-- The two `BUG`s of death notifications. -/
def Fault.DeathBug (f : Fault) : Prop := f = .deathType ∨ f = .deathQueued

instance (f : Fault) : Decidable f.DeathBug := inferInstanceAs (Decidable (_ ∨ _))

/-- A program reaches neither of the two `BUG`s. -/
abbrev Safe {α : Type} (x : Except Fault α) : Prop := x.Avoids Fault.DeathBug

theorem increment_safe {c : ℤ} : Safe (increment c) := .ite (.error rfl) .ok

theorem incrementNat_safe {c : ℕ} : Safe (incrementNat c) := .ite (.error rfl) .ok

namespace Objs

variable {s : Objs} {n r : Id} {strong internal : Bool} {q : Option Queue} {inReplyTo : Option Id}
  {kernPtr offsetsSize : ℕ} {isAsync : Bool} {faults : PageFaults}

theorem binderIncNode_safe : Safe (s.binderIncNode n strong internal q) := by
  refine .read rfl fun node _ => ?_
  refine .ite .ok ?_
  refine .bind ?_ fun counted _ => ?_
  · cases strong <;> cases internal
    · exact increment_safe.map
    · exact .ok
    · exact increment_safe.map
    · exact increment_safe.map
  · dsimp only
    split
    · split <;> exact .ok
    · refine .ite ?_ .ok
      split <;> exact .ok

theorem binderDecNode_safe : Safe (s.binderDecNode n strong internal) := by
  refine .read rfl fun node _ => ?_
  refine .ite .ok ?_
  split
  · exact .ite .ok .ok
  · exact .ite .ok .ok

theorem binderGetRefForNode_safe {p : Id} {alloc : Bool} :
    Safe (s.binderGetRefForNode p n alloc) := by
  unfold binderGetRefForNode
  split
  · exact .ok
  · refine .ite ?_ .ok
    refine .read rfl fun node _ => ?_
    exact .ite (.error rfl) .ok

theorem binderIncRef_safe : Safe (s.binderIncRef r strong q) := by
  refine .read rfl fun ref _ => .bind ?_ fun done _ => ?_
  · exact .ite binderIncNode_safe .ok
  · exact .ite (.bind incrementNat_safe fun _ _ => .ok) .ok

theorem freeDeath_safe {d : Id} : Safe (s.freeDeath d) := .read rfl fun _ _ => .ok

theorem binderDeleteRef_safe : Safe (s.binderDeleteRef r) := by
  refine .read rfl fun ref _ => .bind ?_ fun t _ => .bind ?_ fun t _ =>
    .bind binderDecNode_safe fun t _ => .bind ?_ fun t _ => .ok
  · exact .ite binderDecNode_safe .ok
  · exact .read rfl fun _ _ => .ok
  · split
    · exact freeDeath_safe
    · exact .ok

theorem binderDecRef_safe : Safe (s.binderDecRef r strong) := by
  refine .read rfl fun ref _ => ?_
  refine .ite .ok ?_
  refine .bind ?_ fun t _ => ?_
  · exact .ite binderDecNode_safe .ok
  · exact .ite binderDeleteRef_safe .ok

end Objs

namespace Transfer

variable {x : Transfer} {route : Route} {i off dataSize : ℕ} {fp : FlatObject} {strong : Bool}
  {env : TransactionEnv} {offsets : List ℕ}

theorem translateToHandle_safe {n : Id} {cookie : ℕ} :
    Safe (x.translateToHandle route off fp strong n cookie env i) := by
  refine .ite .ok ?_
  refine .bind binderGetRefForNode_safe fun found _ => ?_
  dsimp only
  split
  · exact .ok
  · exact .read rfl fun ref _ => .bind binderIncRef_safe fun _ _ => .ok

theorem translateBinder_safe : Safe (x.translateBinder route off fp strong env i) := by
  unfold translateBinder
  split
  · exact .read rfl fun node _ => translateToHandle_safe
  · split
    · exact .ok
    · exact translateToHandle_safe

theorem translateHandle_safe : Safe (x.translateHandle route off fp strong env i) := by
  unfold translateHandle
  split
  · exact .ok
  · refine .read rfl fun ref _ => .read rfl fun node _ => ?_
    refine .ite (.bind binderIncNode_safe fun _ _ => .ok) ?_
    refine .bind binderGetRefForNode_safe fun found _ => ?_
    dsimp only
    split
    · exact .ok
    · exact .read rfl fun ref _ => .bind binderIncRef_safe fun _ _ => .ok

theorem translateObjects_safe : Safe (translateObjects route dataSize env i offsets x) := by
  induction offsets generalizing i x with
  | nil => exact .ok
  | cons off offsets ih =>
    refine .bind ?_ fun y _ => ?_
    · refine .ite ?_ .ok
      dsimp only
      split
      · exact translateBinder_safe
      · exact translateHandle_safe
      · exact .ok
      · exact .ok
    · dsimp only
      split
      · exact .ok
      · exact ih

theorem releaseObjects_safe {p : Id} {failed : Bool} :
    Safe (releaseObjects p dataSize failed offsets x) := by
  refine .foldlM_of_forall fun x off => ?_
  refine .ite ?_ .ok
  dsimp only
  split
  · split
    · exact .ok
    · exact .bind binderDecNode_safe fun _ _ => .ok
  · split
    · exact .ok
    · exact .bind binderDecRef_safe fun _ _ => .ok
  · exact .ok
  · exact .ok

end Transfer

namespace Calls

variable {c : Calls} {t id : Id} {fuel error : ℕ}

theorem binderPopTransaction_safe {target : Option Id} :
    Safe (c.binderPopTransaction target t) := by
  refine .read rfl fun tx _ => .bind ?_ fun _ _ => .ok
  split
  · refine .read rfl fun thread _ => ?_
    exact .ite (.error rfl) (.ite (.error rfl) .ok)
  · exact .ok

theorem failedReplyLoop_safe : Safe (failedReplyLoop error fuel c t) := by
  induction fuel generalizing c t with
  | zero => exact .error rfl
  | succ fuel ih =>
    refine .read rfl fun tx _ => ?_
    split
    · refine .read rfl fun thread _ => ?_
      exact .ite (.bind binderPopTransaction_safe fun _ _ => .ok) .ok
    · refine .bind binderPopTransaction_safe fun c _ => ?_
      split
      · exact .ok
      · exact ih

theorem binderSendFailedReply_safe : Safe (c.binderSendFailedReply t error) := by
  refine .read rfl fun tx _ => ?_
  exact .ite (.error rfl) failedReplyLoop_safe

theorem unlinkStack_safe {t : Option Id} : Safe (unlinkStack id fuel c t) := by
  induction fuel generalizing c t with
  | zero =>
    cases t with
    | none => exact .ok
    | some t => exact .error rfl
  | succ fuel ih =>
    cases t with
    | none => exact .ok
    | some t =>
      refine .read rfl fun tx _ => ?_
      exact .ite ih (.ite ih (.error rfl))

theorem leaveStack_safe : Safe (c.leaveStack id) := by
  refine .read rfl fun thread _ => .bind ?_ fun send _ =>
    .bind unlinkStack_safe fun c _ => ?_
  · split
    · exact .read rfl fun tx _ => .ok
    · exact .ok
  · split
    · exact binderSendFailedReply_safe
    · exact .ok

theorem searchTarget_safe {proc : Id} {t found : Option Id} :
    Safe (c.searchTarget proc fuel t found) := by
  induction fuel generalizing t found with
  | zero =>
    cases t with
    | none => exact .ok
    | some t => exact .error rfl
  | succ fuel ih =>
    cases t with
    | none => exact .ok
    | some t =>
      refine .read rfl fun tx _ => .bind ?_ fun found _ => ih
      split
      · exact .read rfl fun thread _ => .ok
      · exact .ok

theorem failTransaction_safe : Safe (c.failTransaction id error inReplyTo) := by
  refine .read rfl fun thread _ => ?_
  refine .ite (.error rfl) ?_
  split
  · exact binderSendFailedReply_safe
  · exact .ok

end Calls

variable {c : Calls} {id : Id} {rb : Balance ℕ} {a : Area}

theorem Calls.resolveReply_safe : Safe (c.resolveReply id) := by
  refine .read rfl fun thread _ => ?_
  split
  · exact .ok
  · refine .read rfl fun tx _ => ?_
    refine .ite .ok ?_
    dsimp only
    split
    · exact .ok
    · refine .read rfl fun target _ => ?_
      exact .ite .ok .ok

theorem Calls.resolveThread_safe {targetProc : Id} {oneWay : Bool} :
    Safe (c.resolveThread id targetProc oneWay) := by
  refine .read rfl fun thread _ => ?_
  split
  · refine .read rfl fun tx _ => ?_
    exact .ite .ok (.bind searchTarget_safe fun _ _ => .ok)
  · exact .ok

theorem BufferArea.lookupIn_safe {a : BufferArea} {t : RbTree.Tree ℕ} :
    Safe (a.lookupIn kernPtr t) := by
  induction t with
  | nil => exact .ok
  | node _ left b right ihl ihr => exact .ite (.error rfl) (.ite ihl (.ite ihr .ok))

theorem Area.alloc_safe {dataSize : ℕ} : Safe (a.alloc rb dataSize offsetsSize isAsync faults) := by
  obtain ⟨r, area, hok, -⟩ := a.2.binderAllocBuf rb dataSize offsetsSize isAsync faults
  unfold alloc
  split
  next f hf => cases hf.symm.trans hok
  next => exact .ok

theorem Area.free_safe {b : ℕ} : Safe (a.free rb b) := by
  unfold free
  split
  next hb =>
    obtain ⟨t, pages, hok, -⟩ := a.2.binderFreeBuf rb hb
    split
    next f hf => cases hf.symm.trans hok
    next => exact .ok
  next => exact .error rfl

theorem Area.mmap_safe {area : VmArea} {header : ℕ → BufferHeader} {step : ℕ → PageStep} :
    Safe (mmap rb area header step) := by
  obtain ⟨r, hok, -⟩ := binderMmap_ok rb area header step
  unfold mmap
  split
  next f hf => cases hf.symm.trans hok
  next => exact .ok
  next => exact .ok

namespace State

variable {rb : Balance ℕ} {s : State} {p id : Id} {tr : TransactionData}
  {alloc reply copied strong : Bool} {b : BufferId} {cookie target : ℕ} {env : TransactionEnv}
  {d n : Id}

theorem resolve_safe : Safe (s.resolve p id tr reply) := by
  refine .ite resolveReply_safe ?_
  refine Except.Avoids.map (.bind ?_ fun found _ => ?_)
  · unfold targetNode
    split
    · split
      · exact .map (.get rfl _)
      · exact .ok
    · split <;> exact .ok
  · split
    · exact .ok
    · refine .read rfl fun node _ => ?_
      split
      · exact .ok
      · refine .bind resolveThread_safe fun thread _ => ?_
        split <;> exact .ok

theorem binderAllocBuf_safe {dataSize : ℕ} :
    Safe (s.binderAllocBuf rb p dataSize offsetsSize isAsync faults) := by
  refine .read rfl fun proc _ => ?_
  split
  · exact .ok
  · exact .bind alloc_safe fun _ _ => .ok

theorem binderFreeBuf_safe : Safe (s.binderFreeBuf rb b) := by
  refine .read rfl fun proc _ => ?_
  split
  · exact .error rfl
  · exact .ite (.error rfl) (.bind free_safe fun _ _ => .ok)

theorem binderTransactionBufferRelease_safe {failedAt : Option ℕ} :
    Safe (s.binderTransactionBufferRelease b failedAt) := by
  refine .bind ?_ fun objs _ => .bind Transfer.releaseObjects_safe fun _ _ => .ok
  split
  · exact binderDecNode_safe
  · exact .ok

theorem fillBuffer_safe {node : Option Id} : Safe (s.fillBuffer b node tr) := by
  refine .bind ?_ fun objs _ => .ok
  split
  · exact binderIncNode_safe.map
  · exact .ok

theorem translate_safe {target : Target} : Safe (s.translate p id target b tr env) :=
  .ite .ok (.bind Transfer.translateObjects_safe fun _ _ => .ok)

theorem commit_safe {target : Target} : Safe (s.commit id target b tr) := by
  unfold commit
  dsimp only
  split
  · exact .ite (.error rfl) (.bind binderPopTransaction_safe fun _ _ => .ok)
  · refine .ite ?_ (.ite (.error rfl) (.read rfl fun _ _ => .ok))
    refine .ite (.error rfl) ?_
    refine .bind ?_ fun _ _ => .ok
    unfold asyncQueue
    split
    · exact .error rfl
    · refine .read rfl fun node _ => ?_
      exact .ite .ok .ok

theorem fail_safe {error : ℕ} : Safe (s.fail id error inReplyTo) :=
  .bind failTransaction_safe fun _ _ => .ok

theorem binderTransaction_safe : Safe (s.binderTransaction rb p id tr reply env) := by
  refine .bind resolve_safe fun resolved _ => ?_
  dsimp only
  split
  · exact fail_safe
  · refine .ite fail_safe ?_
    refine .ite fail_safe ?_
    refine .bind binderAllocBuf_safe fun found _ => ?_
    dsimp only
    split
    · exact fail_safe
    · refine .bind fillBuffer_safe fun s₂ _ =>
        .bind translate_safe fun result _ => ?_
      split
      · exact commit_safe
      · refine .bind ?_ fun s₄ _ => fail_safe
        exact .bind binderTransactionBufferRelease_safe fun _ _ => binderFreeBuf_safe

theorem incRefs_safe : Safe (s.incRefs p target strong alloc) := by
  refine .bind ?_ fun found _ => ?_
  · unfold incTarget
    split
    · refine .bind binderGetRefForNode_safe fun found _ => ?_
      dsimp only
      split
      · exact .ok
      · exact .error rfl
    · exact .ok
  · dsimp only
    split
    · exact .ok
    · exact .bind binderIncRef_safe fun _ _ => .ok

theorem decRefs_safe : Safe (s.decRefs p target strong) := by
  unfold decRefs
  split
  · exact .ok
  · exact .bind binderDecRef_safe fun _ _ => .ok

theorem refsDone_safe {ptr : ℕ} : Safe (s.refsDone p ptr cookie strong) := by
  unfold refsDone
  split
  · exact .ok
  · refine .read rfl fun node _ => ?_
    refine .ite .ok ?_
    refine .ite (.ite .ok (.bind binderDecNode_safe fun _ _ => .ok)) ?_
    exact .ite .ok (.bind binderDecNode_safe fun _ _ => .ok)

theorem nextAsync_safe : Safe (s.nextAsync id b) := by
  unfold nextAsync
  split
  · refine .read rfl fun node _ => ?_
    refine .ite (.error rfl) ?_
    split <;> exact .ok
  · exact .ok

theorem freeBuffer_safe : Safe (s.freeBuffer rb p id kernPtr) := by
  refine .read rfl fun proc _ => ?_
  split
  · exact .ok
  · refine .bind BufferArea.lookupIn_safe fun found _ => ?_
    split
    · exact .ok
    · refine .ite .ok ?_
      exact .bind nextAsync_safe fun _ _ =>
        .bind binderTransactionBufferRelease_safe fun _ _ => binderFreeBuf_safe

theorem requestDeathNotification_safe :
    Safe (s.requestDeathNotification p id target cookie alloc) := by
  unfold requestDeathNotification
  split
  · exact .ok
  · refine .read rfl fun ref _ => ?_
    refine .ite .ok ?_
    refine .ite .ok ?_
    refine .read rfl fun node _ => ?_
    dsimp only
    split <;> exact .ok

theorem deadBinderDone_safe : Safe (s.deadBinderDone p id cookie) := by
  unfold deadBinderDone
  dsimp only
  split
  · refine .read rfl fun death _ => ?_
    exact .ite .ok .ok
  · exact .ok

variable {strict : Prop}

theorem Watched.clearDeathNotification_safe (h : s.Watched strict) :
    Safe (s.clearDeathNotification p id target cookie) := by
  unfold clearDeathNotification
  split
  · exact .ok
  · refine .read rfl fun ref href => ?_
    split
    · exact .ok
    next d hd =>
      refine .read rfl fun death hdeath => ?_
      refine .ite .ok ?_
      dsimp only
      split
      · exact .ok
      next hhome =>
        split
        next htype =>
          obtain ⟨q, hq⟩ := Option.ne_none_iff_exists'.mp
            (show s.objs.works.home (.death d) ≠ none from fun hnone => hhome (by
              simp [Objs.setRef, hnone]))
          have hkind := (h.inv d).kind _ _ q (watch_of_cell (Heap.get_eq_ok.mp href) hd) rfl hq
          simp [deathView, Objs.deathView, Heap.get_eq_ok.mp hdeath] at hkind
          exact absurd hkind htype
        · exact .ok

theorem Watched.command_safe (h : s.Watched strict) {cmd : Command} :
    Safe (s.command rb p id cmd) := by
  cases cmd with
  | increfs target alloc | acquire target alloc => exact incRefs_safe
  | release target | decrefs target => exact decRefs_safe
  | increfsDone ptr cookie | acquireDone ptr cookie => exact refsDone_safe
  | freeBuffer kernPtr => exact freeBuffer_safe
  | transaction tr env | reply tr env => exact binderTransaction_safe
  | registerLooper => exact .ok
  | enterLooper => exact .ok
  | exitLooper => exact .ok
  | requestDeathNotification target cookie alloc => exact requestDeathNotification_safe
  | clearDeathNotification target cookie => exact h.clearDeathNotification_safe
  | deadBinderDone cookie => exact deadBinderDone_safe
  | unknown => exact .ok

theorem readNode_safe : Safe (s.readNode p n) := by
  refine .read rfl fun node _ => ?_
  refine .ite (.bind increment_safe fun _ _ => .ok) ?_
  exact .ite (.bind increment_safe fun _ _ => .ok) (.ite .ok (.ite .ok (.ite .ok .ok)))

theorem readTransaction_safe {t : Id} : Safe (s.readTransaction id t) := by
  refine .read rfl fun tx _ => ?_
  split
  · exact .error rfl
  · refine .read rfl fun thread _ => .bind ?_ fun _ _ => ?_
    · split
      · exact .map (.get rfl _)
      · exact .ok
    · split
      · refine .read rfl fun node _ => ?_
        exact .ite .ok .ok
      · exact .ok

theorem readDeath_safe : Safe (s.readDeath p d) := by
  refine .read rfl fun death _ => ?_
  exact .ite (.bind freeDeath_safe fun _ _ => .ok) .ok

theorem readItem_safe {w : Work} : Safe (s.readItem p id copied w) := by
  cases w with
  | node n => exact readNode_safe
  | transaction t =>
    simp only [readItem]
    exact .ite readTransaction_safe .ok
  | transactionComplete w => exact .ok
  | death d =>
    simp only [readItem]
    exact .ite readDeath_safe .ok

theorem readWork_safe : Safe (s.readWork p id copied) := by
  refine .read rfl fun thread _ => ?_
  split
  · exact readItem_safe
  · exact .ite readItem_safe .ok
  · exact .ok

theorem binderReleaseWork_safe {q : Queue} : Safe (s.binderReleaseWork q) := by
  refine .foldlM_of_forall fun s w => ?_
  unfold releaseItem
  dsimp only
  split
  · refine .read rfl fun tx _ => ?_
    split
    · exact .error rfl
    · exact .ite (.bind binderSendFailedReply_safe fun _ _ => .ok) .ok
  · exact .ok
  · exact .ok
  · exact .ok

theorem binderGetThread_safe {pid : ℕ} : Safe (s.binderGetThread p pid alloc) := by
  refine .read rfl fun proc _ => ?_
  split
  · exact .ok
  · exact .ite .ok .ok

theorem binderFreeThread_safe : Safe (s.binderFreeThread p id) :=
  .bind leaveStack_safe fun _ _ => .bind binderReleaseWork_safe fun _ _ => .ok

theorem leaveContextMgr_safe : Safe (s.leaveContextMgr p) := by
  unfold leaveContextMgr
  split
  · exact .ok
  · exact .read rfl fun _ _ => .ok

theorem mmap_safe {area : VmArea} {header : ℕ → BufferHeader} {step : ℕ → PageStep}
    {files : Files} : Safe (s.mmap rb p area header step files) := by
  refine .read rfl fun proc _ => ?_
  refine .ite .ok ?_
  refine .bind Area.mmap_safe fun found _ => ?_
  split <;> exact .ok

section

variable (h : s.Watched strict)
include h

theorem Watched.nodeDied_safe (howner : s.objs.owner n = some p) : Safe (s.nodeDied p n) := by
  refine .read rfl fun node hget => ?_
  have hnode := Heap.get_eq_ok.mp hget
  obtain ⟨hnodup, hmem⟩ := h.wired.refs.consistent.refsAgree.mem_refs n node hnode
  refine .ite .ok ?_
  refine .foldlM (R := fun l t => t.objs.refs = s.objs.refs ∧ l.Nodup ∧ ∀ r ∈ l, ∀ ref d,
    s.objs.refs.cell r = some ref → ref.death = some d →
      t.objs.works.home (.death d) = none) ⟨rfl, hnodup, ?_⟩ ?_
  · intro r hr ref d href hd
    obtain ⟨ref', href', hn⟩ := (hmem r).mp hr
    cases href.symm.trans href'
    have halive : (s.objs.owner ref.node).isSome = true := by rw [hn, howner]; rfl
    have hidle := ((h.inv d).idle r _ (watch_of_cell href hd) rfl halive).1
    have hidle : s.objs.works.home (.death d) = none := hidle
    simpa [Objs.setNode, Objs.unqueue, Queues.home_del] using hidle
  · rintro r l t ⟨hrefs, hnodup, hl⟩
    obtain ⟨hr, hnodup⟩ := List.nodup_cons.mp hnodup
    constructor
    · refine .read rfl fun ref hget => ?_
      have href := hrefs ▸ Heap.get_eq_ok.mp hget
      split
      · exact .ok
      next d hd =>
        refine .read rfl fun death _ => ?_
        simp only [hl r mem_cons_self ref d href hd, Option.isNone_none, if_true]
        exact .ok
    · intro t' hstep
      obtain ⟨objs, hdied, rfl⟩ := refDied_ok hstep
      cases hdied with
      | silent => exact ⟨hrefs, hnodup, fun i hi => hl i (mem_cons_of_mem _ hi)⟩
      | @queued ref d death href hd hdeath hhome =>
        refine ⟨hrefs, hnodup, fun i hi ref' e hi' he => ?_⟩
        have hne : e ≠ d := by
          rintro rfl
          have hinj := (h.inv e).inj i r _ _ (watch_of_cell hi' he)
            (watch_of_cell (hrefs ▸ href) hd) rfl rfl
          exact hr (hinj ▸ hi)
        have := hl i (mem_cons_of_mem _ hi) ref' e hi' he
        simpa [Objs.queue, Objs.setDeath, Queues.home_addTail, hne] using this

theorem Watched.nodesDied_safe {l : List Id} (hnodup : l.Nodup)
    (hl : ∀ n ∈ l, s.objs.owner n = some p) : Safe (l.foldlM (fun s n => s.nodeDied p n) s) := by
  refine .foldlM (R := fun l t => t.Watched strict ∧ l.Nodup ∧ ∀ n ∈ l, t.objs.owner n = some p)
    ⟨h, hnodup, hl⟩ ?_
  rintro n l t ⟨h, hnodup, hl⟩
  refine ⟨h.nodeDied_safe (hl n mem_cons_self), fun t' hstep => ?_⟩
  obtain ⟨hruns, -, howner⟩ := Runs.nodeDied h.tracked (hl n mem_cons_self) hstep
  obtain ⟨hn, hnodup⟩ := List.nodup_cons.mp hnodup
  refine ⟨hruns.watched, hnodup, fun m hm => ?_⟩
  rw [howner m (by rintro rfl; exact hn hm)]
  exact hl m (mem_cons_of_mem _ hm)

theorem Watched.binderDeferredRelease_safe (hp : p ∈ s.binderProcs) :
    Safe (s.binderDeferredRelease rb p) := by
  refine .read rfl fun proc hget => ?_
  refine .bind leaveContextMgr_safe fun s₁ hleave => ?_
  refine .bind (.foldlM_of_forall fun _ _ => binderFreeThread_safe)
    fun s₂ hthreads => ?_
  have h₂ := (Runs.leave h.tracked hp (Heap.get_eq_ok.mp hget) hleave hthreads).1.watched
  have hc₂ := h₂.wired.refs.consistent
  refine .bind (h₂.nodesDied_safe (hc₂.nodup_procNodes p)
    fun n hn => Transfer.owner_of_mem hc₂ hn) fun s₃ _ => ?_
  refine .bind (.foldlM_of_forall fun _ _ => binderDeleteRef_safe)
    fun objs _ => ?_
  refine .bind binderReleaseWork_safe fun s₄ _ => ?_
  exact .bind (.foldlM_of_forall fun _ _ => binderFreeBuf_safe) fun _ _ => .ok

theorem Watched.request_safe {r : Request} : Safe (s.request rb p id r) := by
  cases r with
  | write cmd =>
    refine .read rfl fun thread _ => ?_
    exact .ite h.command_safe .ok
  | readError read => exact .ok
  | readWork copied => exact readWork_safe
  | setContextMgr euid alloc => exact .ok
  | threadExit => exact binderFreeThread_safe
  | other => exact .ok

theorem Watched.step_safe {op : Op} : Safe (s.step rb op) := by
  cases op with
  | openDevice => exact .ok
  | mmap p area header step files =>
    simp only [State.step]
    exact .ite mmap_safe .ok
  | vmaClose p => exact .ok
  | setFiles p files => exact .ok
  | ioctl p pid alloc request =>
    simp only [step]
    refine .ite ?_ .ok
    refine .bind binderGetThread_safe fun found hget => ?_
    have h₁ := (Runs.binderGetThread h.tracked hget).1.watched
    dsimp only
    split
    · exact .ok
    · exact h₁.request_safe
  | release p =>
    simp only [step]
    split
    next hp =>
      have hclosed : Runs False strict s (s.vmaClose p) := .modifyProc h.tracked fun _ => rfl
      have hfiles : Runs False strict (s.vmaClose p) ((s.vmaClose p).modifyProc p fun proc =>
        { proc with files := none }) := .modifyProc hclosed.now fun _ => rfl
      exact hfiles.watched.binderDeferredRelease_safe hp
    next => exact .ok

end

theorem Watched.run_safe (h : s.Watched False) {ops : List Op} : Safe (s.run rb ops) := by
  refine .foldlM (R := fun _ t => t.Watched False) h fun op _ t ht => ?_
  exact ⟨ht.step_safe, fun t' hstep => (Runs.step ht.tracked False.elim False.elim hstep).watched⟩

/-- What came of the request of a process for a node without an owner: it was told of the death,
the news is on a list that it reads, it gave up the reference and the record went with it, or it
closed the device. -/
def Noticed (s : State) (r d p : Id) : Prop :=
  .deadBinder d ∈ s.events ∨
    (∃ q, s.objs.works.home (.death d) = some q ∧ s.Reads p q ∧ s.objs.isNotice (.death d) = true) ∨
    (s.objs.refs.cell r = none ∧ s.objs.deaths.cell d = none) ∨ s.Closed p

theorem Watched.noticed {r : Id} (h : s.Watched strict) (hp : s.Pending r d p) :
    s.Noticed r d p := by
  have hevent (htold : s.deathView.told d = 1) : .deadBinder d ∈ s.events :=
    List.count_pos_iff.mp (Nat.one_pos.trans_eq htold.symm)
  rcases hp.waits with htold | ⟨q, hq, htype⟩ | ⟨hfree, hgone⟩ | hclosed
  · exact .inl (hevent htold)
  · rcases h.inv.reads_of_asked hp.asked hq with rfl | hreads
    · exact .inl (hevent ((h.inv d).delivered p hq))
    · exact .inr (.inl ⟨q, hq, hreads, decide_eq_true htype⟩)
  · exact .inr (.inr (.inl ⟨hgone.1, Option.map_eq_none_iff.mp hfree⟩))
  · exact .inr (.inr (.inr hclosed))

end State

/-- Process 1 has a reference to the context manager, which goes away. Then a looper of process 1
asks to be told. -/
def lateRequest : List Op :=
  [.openDevice, .openDevice, .ioctl 0 100 true (.setContextMgr 0 true),
    writes 1 101 (.acquire 0 true), .release 0, writes 1 101 .enterLooper,
    writes 1 101 (.requestDeathNotification 0 7 true)]

/-- A reference of process 1 watches a node without an owner by a record. -/
def watchesDead (s : State) (r d : Id) : Bool :=
  (s.objs.refs.cell r).any fun ref =>
    ref.death == some d && s.objs.owner ref.node == none && ref.proc == 1

theorem exists_of_watchesDead {s : State} {r d : Id} (h : watchesDead s r d = true) :
    ∃ ref, s.objs.refs.cell r = some ref ∧ ref.death = some d ∧ s.objs.owner ref.node = none ∧
      ref.proc = 1 := by
  obtain ⟨ref, href, h⟩ := Option.any_eq_true _ _ |>.mp h
  simp only [Bool.and_eq_true, beq_iff_eq] at h
  exact ⟨ref, href, h.1.1, h.1.2, h.2⟩

/-- A record is on no list and was not told of, while its reference is there and its process has
the device open. -/
def untold (s : State) (r d p : Id) : Bool :=
  decide (Event.deadBinder d ∉ s.events ∧ s.objs.works.home (.death d) = none ∧
    (s.objs.refs.cell r).isSome ∧ p ∈ s.binderProcs)

theorem not_noticed_of_untold {s : State} {r d p : Id} (h : untold s r d p = true) :
    ¬ s.Noticed r d p := by
  obtain ⟨htold, hhome, hcell, hopen⟩ := of_decide_eq_true h
  rintro (h | ⟨q, hq, -⟩ | ⟨h, -⟩ | h)
  · exact htold h
  · cases hhome.symm.trans hq
  · simp [h] at hcell
  · exact h.2 hopen

/-- The looper exits, and `binder_release_work` drops the news that was on its list. -/
theorem late_request_dropped : ∃ s s' ref, init.run (spine ℕ) lateRequest = .ok s ∧
      s.run (spine ℕ) [.ioctl 1 101 true .threadExit] = .ok s' ∧
      s.objs.refs.cell 0 = some ref ∧ ref.death = some 0 ∧ s.objs.owner ref.node = none ∧
      ¬ s'.Noticed 0 0 ref.proc := by
  obtain ⟨s, hrun, hs⟩ := exists_ok (x := init.run (spine ℕ) lateRequest)
    (f := fun s => watchesDead s 0 0 &&
      (s.run (spine ℕ) [.ioctl 1 101 true .threadExit]).toOption.any (untold · 0 0 1))
    (by decide +kernel)
  obtain ⟨hwatch, hexit⟩ := Bool.and_eq_true_iff.mp hs
  obtain ⟨ref, href, hd, howner, hproc⟩ := exists_of_watchesDead hwatch
  obtain ⟨s', hrun', hs'⟩ := exists_ok hexit
  exact ⟨s, s', ref, hrun, hrun', href, hd, howner, hproc ▸ not_noticed_of_untold hs'⟩

/-- The two `BUG`s are not reached, each request has a record of its own that is told of once at
most, and if no thread exits with news of a death on its list, a request is heeded whose node has
lost its owner. -/
theorem death_notices_heeded (rb : Balance ℕ) (ops : List Op) :
    (∀ f, init.run rb ops = .error f → f ≠ .deathQueued ∧ f ≠ .deathType) ∧
      ∀ s, init.run rb ops = .ok s → (∀ d p, s.events.count (.deathRequested d p) ≤ 1) ∧
        (∀ d, s.events.count (.deadBinder d) ≤ 1) ∧
        (init.AllKeepNotices rb ops → ∀ r ref d, s.objs.refs.cell r = some ref →
          ref.death = some d → s.objs.owner ref.node = none →
          ∀ ops' s', s.AllKeepNotices rb ops' → s.run rb ops' = .ok s' →
            s'.Noticed r d ref.proc) := by
  refine ⟨fun f hf => ?_, fun s hs => ⟨fun d p => ?_, fun d => ?_, ?_⟩⟩
  · have hsafe := Watched.init.run_safe f hf
    exact ⟨fun h => hsafe (.inr h), fun h => hsafe (.inl h)⟩
  · exact ((Runs.run .init False.elim False.elim hs).watched.single d p).1
  · exact ((Runs.run .init False.elim False.elim hs).watched.inv d).once
  · intro hkeep r ref d href hd howner ops' s' hkeep' hs'
    have h : s.Watched True := (Runs.run .init False.elim (fun _ => hkeep) hs).watched
    have hpending : s.Pending r d ref.proc := h.kept trivial r _ (watch_of_cell href hd)
      (by rw [howner]; rfl)
    have hruns := Runs.run h.tracked False.elim (fun _ => hkeep') hs'
    exact hruns.watched.noticed (hruns.pending trivial r d _ hpending)

/-- Process 1 asks first, and then the context manager goes away. -/
def earlyRequest : List Op :=
  [.openDevice, .openDevice, .ioctl 0 100 true (.setContextMgr 0 true),
    writes 1 101 (.acquire 0 true), writes 1 101 (.requestDeathNotification 0 7 true), .release 0]

/-- The thread that asked exits. -/
theorem death_notices_heeded_early : ∃ s s', init.run (spine ℕ) earlyRequest = .ok s ∧
      s.run (spine ℕ) [.ioctl 1 101 true .threadExit] = .ok s' ∧ s'.Noticed 0 0 1 := by
  obtain ⟨s, hrun, hs⟩ := exists_ok (x := init.run (spine ℕ) earlyRequest)
    (f := fun s => watchesDead s 0 0 &&
      decide (s.AllKeepNotices (spine ℕ) [.ioctl 1 101 true .threadExit]) &&
      (s.run (spine ℕ) [.ioctl 1 101 true .threadExit]).toOption.any fun _ => true)
    (by decide +kernel)
  simp only [Bool.and_eq_true, decide_eq_true_eq] at hs
  obtain ⟨⟨hwatch, hkeep⟩, hexit⟩ := hs
  obtain ⟨ref, href, hd, howner, hproc⟩ := exists_of_watchesDead hwatch
  obtain ⟨s', hrun', -⟩ := exists_ok hexit
  have hnoticed := (death_notices_heeded (spine ℕ) earlyRequest).2 s hrun |>.2.2
    (by decide +kernel) 0 ref 0 href hd howner _ s' hkeep hrun'
  rw [hproc] at hnoticed
  exact ⟨s, s', hrun, hrun', hnoticed⟩

end AndroidKernel.Binder
