import AndroidKernel.Binder.DeathFrames

/-!
# References and death notifications under the commands

Every command and every read leaves the views of the references in agreement, and is a sequence of
steps in the life of death records. Only the commands on death notifications, the reads of death
work and the end of a reference take any.
-/

namespace AndroidKernel.Binder

open RbTree Except Objs State SameRoster
open DeathView (Steps)

namespace Objs

theorem deathView_append {e : Event} (hdead : ∀ d, e ≠ .deadBinder d)
    (hasked : ∀ d p, e ≠ .deathRequested d p) (o : Objs) (events : List Event) :
    o.deathView (events ++ [e]) = o.deathView events := by
  simp only [deathView, DeathView.mk.injEq]
  refine ⟨trivial, trivial, trivial, funext fun d => ?_, funext fun d => funext fun p => ?_,
    funext fun d => funext fun p => ?_, trivial, trivial⟩
  · simp [hdead d]
  · simp [(hasked d p).symm]
  · simp [hasked d p]

/-- The references stay in agreement, and death records take steps of their lives. -/
structure Moves (counted strict : Prop) (closed : Id → Prop) (reads : Id → Queue → Prop)
    (events : List Event) (o o' : Objs) : Prop where
  refs : o'.RefInv counted reads
  steps : Steps strict closed reads (o.deathView events) (o'.deathView events)

variable {counted strict : Prop} {closed : Id → Prop} {reads : Id → Queue → Prop}
  {events : List Event} {o o' o'' : Objs} {p n r : Id} {strong alloc done : Bool} {offsets : List ℕ}
  {failed copied : Bool} {inReplyTo : Option Id}

namespace Moves

theorem refl (h : o.RefInv counted reads) : o.Moves counted strict closed reads events o :=
  ⟨h, .refl⟩

theorem trans (h : o.Moves counted strict closed reads events o')
    (h' : o'.Moves counted strict closed reads events o'') :
    o.Moves counted strict closed reads events o'' :=
  ⟨h'.refs, h.steps.trans h'.steps⟩

theorem of_frame (h : o'.RefInv counted reads) (hframe : o.DeathFrame o') :
    o.Moves counted strict closed reads events o' :=
  ⟨h, hframe.steps⟩

theorem refNode {q : Option Queue} (h : o.RefInv counted reads)
    (hq : ∀ q', q = some q' → (∀ m, q' ≠ .async m) ∧ ∃ p, o.owner n = some p ∧ reads p q')
    (haccept : counted → (o.findRefForNode p n).isSome ∨ q.isSome ∨ o.Accepts n strong)
    (hget : o.GetRef p n alloc (some r) o') (hinc : o'.IncRef r strong q done o'') :
    o.Moves counted strict closed reads events o'' :=
  of_frame (h.refNode hq haccept hget hinc) ((DeathFrame.getRef hget).trans (.incRef hinc))

theorem decNode (hown : RefInv.OwnLists reads) (h : o.RefInv counted reads)
    (hdec : o.binderDecNode n strong false = .ok o') :
    o.Moves counted strict closed reads events o' :=
  of_frame (h.decNode hown hdec) (.decNode h.consistent hdec)

theorem decRef (hown : RefInv.OwnLists reads) (h : o.RefInv counted reads)
    (hdec : DecRef o r strong o') : o.Moves counted strict closed reads events o' :=
  ⟨h.decRef hown hdec, hdec.steps h.consistent⟩

end Moves

end Objs

namespace Transfer

variable {counted strict : Prop} {closed : Id → Prop} {reads : Id → Queue → Prop}
  {events : List Event} {x x' : Transfer} {route : Route} {off i : ℕ} {fp : FlatObject}
  {strong : Bool} {env : TransactionEnv} {e : Option ℕ} {n : Id} {dataSize : ℕ}

section

variable (h : x.objs.RefInv counted reads)
include h

theorem translateToHandle_moves {cookie : ℕ} (hreads : reads route.proc (.thread route.thread))
    (howner : x.objs.owner n = some route.proc)
    (hok : x.translateToHandle route off fp strong n cookie env i = .ok (e, x')) :
    x.objs.Moves counted strict closed reads events x'.objs := by
  unfold translateToHandle at hok
  split at hok
  · cases hok
    exact .refl h
  · obtain ⟨⟨r, objs⟩, hget, hok⟩ := of_bind hok
    have hget := GetRef.of_ok hget
    cases r with
    | none =>
      cases hok
      exact .of_frame (h.getRef_none hget) (.getRef hget)
    | some r =>
      obtain ⟨ref, -, hok⟩ := of_bind hok
      obtain ⟨⟨done, objs'⟩, hinc, hok⟩ := of_bind hok
      cases hok
      refine .refNode h ?_ (fun _ => .inr (.inl rfl)) hget (.of_ok hinc)
      rintro q' ⟨⟩
      exact ⟨by simp, route.proc, howner, hreads⟩

theorem translateBinder_moves (hreads : reads route.proc (.thread route.thread))
    (hok : x.translateBinder route off fp strong env i = .ok (e, x')) :
    x.objs.Moves counted strict closed reads events x'.objs := by
  unfold translateBinder at hok
  split at hok
  next n hn =>
    obtain ⟨node, -, hok⟩ := of_bind hok
    exact translateToHandle_moves h hreads
      (owner_of_mem h.consistent (List.mem_of_find?_eq_some hn)) hok
  next hnone =>
    split at hok
    next =>
      cases hok
      exact .refl h
    next n objs hnew =>
      unfold binderNewNode at hnew
      split at hnew
      · cases hnew
      · cases hnew
        refine (Moves.of_frame (h.addNode hnone) (.addNode h.consistent)).trans
          (translateToHandle_moves (h.addNode hnone) hreads ?_ hok)
        simp [owner, addNode]

theorem translateHandle_moves (haccept : counted → x.AcceptsHandle route fp.binder strong)
    (hok : x.translateHandle route off fp strong env i = .ok (e, x')) :
    x.objs.Moves counted strict closed reads events x'.objs := by
  unfold translateHandle at hok
  split at hok
  · cases hok
    exact .refl h
  next r hr =>
    obtain ⟨ref, href, hok⟩ := Heap.of_get hok
    obtain ⟨node, hnode, hok⟩ := Heap.of_get hok
    split at hok
    next =>
      obtain ⟨⟨done, objs⟩, hinc, hok⟩ := of_bind hok
      cases hok
      exact .of_frame (h.incNode (.of_ok hinc)) (.incNode (.of_ok hinc))
    next hproc =>
      obtain ⟨⟨r', objs⟩, hget, hok⟩ := of_bind hok
      have hget := GetRef.of_ok hget
      cases r' with
      | none =>
        cases hok
        exact .of_frame (h.getRef_none hget) (.getRef hget)
      | some r' =>
        obtain ⟨newRef, -, hok⟩ := of_bind hok
        obtain ⟨⟨done, objs'⟩, hinc, hok⟩ := of_bind hok
        cases hok
        refine .refNode h (by rintro q' ⟨⟩) (fun hcounted => ?_) hget (.of_ok hinc)
        rcases haccept hcounted r hr ref href node hnode hproc with hfound | haccepts
        · exact .inl hfound
        · exact .inr (.inr haccepts)

theorem translateObject_moves (hreads : reads route.proc (.thread route.thread))
    (haccept : counted → x.Accepts route off)
    (hok : x.translateObject route dataSize env i off = .ok (e, x')) :
    x.objs.Moves counted strict closed reads events x'.objs := by
  unfold translateObject at hok
  split at hok
  · dsimp only at hok
    split at hok
    next strong _ => exact translateBinder_moves h hreads hok
    next strong hdecode =>
      refine translateHandle_moves h (fun hcounted => ?_) hok
      simpa [Accepts, hdecode] using haccept hcounted
    next =>
      have hobjs := congrArg (fun r => r.2.objs) (Except.ok.inj hok)
      rw [translateFd_objs] at hobjs
      exact hobjs ▸ .refl h
    next =>
      cases hok
      exact .refl h
  · cases hok
    exact .refl h

theorem translateObjects_moves {e : Option (ℕ × ℕ)}
    (hreads : reads route.proc (.thread route.thread))
    (haccept : counted → AllAccept route dataSize env i offsets x)
    (hok : translateObjects route dataSize env i offsets x = .ok (e, x')) :
    x.objs.Moves counted strict closed reads events x'.objs := by
  induction offsets generalizing i x with
  | nil =>
    cases hok
    exact .refl h
  | cons off offsets ih =>
    unfold translateObjects at hok
    obtain ⟨⟨error, x₁⟩, hobject, hok⟩ := of_bind hok
    have h₁ : x.objs.Moves counted strict closed reads events x₁.objs :=
      translateObject_moves h hreads (fun hcounted => (haccept hcounted).1) hobject
    cases error with
    | some error =>
      cases hok
      exact h₁
    | none =>
      exact h₁.trans (ih h₁.refs (fun hcounted => (haccept hcounted).2.of_eq hobject rfl) hok)

end

theorem releaseObject_moves {p : Id} (hown : RefInv.OwnLists reads)
    (h : x.objs.RefInv counted reads) (hok : x.releaseObject p dataSize failed off = .ok x') :
    x.objs.Moves counted strict closed reads events x'.objs := by
  unfold releaseObject at hok
  by_cases hvalid : offsetValid dataSize off
  · rw [if_pos hvalid] at hok
    dsimp only at hok
    rcases hdecode : ObjectType.decode (readObject x.data off).type with _ | strong | strong | -
    all_goals rw [hdecode] at hok; dsimp only at hok
    · cases hok
      exact .refl h
    · split at hok
      · cases hok
        exact .refl h
      · obtain ⟨objs, hdec, hok⟩ := of_bind hok
        cases hok
        exact .decNode hown h hdec
    · split at hok
      · cases hok
        exact .refl h
      · obtain ⟨objs, hdec, hok⟩ := of_bind hok
        cases hok
        exact .decRef hown h (.of_ok hdec)
    · cases hok
      split_ifs <;> exact .refl h
  · rw [if_neg hvalid] at hok
    cases hok
    exact .refl h

theorem releaseObjects_moves {p : Id}
    (hown : RefInv.OwnLists reads) (h : x.objs.RefInv counted reads)
    (hok : releaseObjects p dataSize failed offsets x = .ok x') :
    x.objs.Moves counted strict closed reads events x'.objs :=
  List.foldlM_ok (R := fun _ y => x.objs.Moves counted strict closed reads events y.objs)
    (fun _ _ _ _ h hok => h.trans (releaseObject_moves hown h.refs hok)) (.refl h) hok

end Transfer

namespace State

/-- The state as far as death notifications are concerned. -/
def deathView (s : State) : DeathView := s.objs.deathView s.events

/-- A process that had the device open and closed it. -/
def Closed (s : State) (p : Id) : Prop := p < s.procs.next ∧ p ∉ s.binderProcs

variable {counted strict : Prop} {s s' t : State} {rb : Balance ℕ} {p id : Id}

theorem readers (s : State) : DeathView.Readers s.Reads where
  own _ := .inl rfl
  unique := by
    rintro p p' q (rfl | ⟨id, rfl, hid⟩) (hq | ⟨id', hq, hid'⟩)
    · cases hq
      rfl
    · cases hq
    · cases hq
    · cases hq
      exact hid.unique hid'
  not_delivered := by rintro p p' (hq | ⟨id, hq, -⟩) <;> cases hq

theorem SameRoster.reads_eq (h : s.SameRoster s') : s'.Reads = s.Reads := by
  funext p q
  simp only [Reads, h.hasThread_iff]

theorem SameRoster.closed_eq (h : s.SameRoster s') : s'.Closed = s.Closed := by
  funext p
  simp only [Closed, h.next, h.binderProcs]

/-- Processes and threads stay, and death records take steps of their lives. -/
structure Follows (strict : Prop) (s s' : State) : Prop where
  wired : s'.Wired False
  roster : s.SameRoster s'
  steps : Steps strict s.Closed s.Reads s.deathView s'.deathView

/-- References stay counted, too. -/
structure Tracks (counted strict : Prop) (s s' : State) : Prop extends Follows strict s s' where
  tracked : s'.Wired counted

namespace Tracks

variable {cookie target : ℕ} {strong : Bool} {b : BufferId} {tr : TransactionData}
  {env : TransactionEnv} {q : Queue}

theorem of_steps (h : s'.Wired counted) (hroster : s.SameRoster s')
    (hsteps : Steps strict s.Closed s.Reads s.deathView s'.deathView) :
    Tracks counted strict s s' :=
  ⟨⟨h.weaken, hroster, hsteps⟩, h⟩

theorem refl (h : s.Wired counted) : Tracks counted strict s s := of_steps h (.refl s) .refl

theorem trans (h : Tracks counted strict s t) (h' : Tracks counted strict t s') :
    Tracks counted strict s s' := by
  refine of_steps h'.tracked (h.roster.trans h'.roster) (h.steps.trans ?_)
  rw [← h.roster.reads_eq, ← h.roster.closed_eq]
  exact h'.steps

theorem of_frame (h : s'.Wired counted) (hroster : s.SameRoster s')
    (hframe : s.objs.DeathFrame s'.objs)
    (hevents : ∀ o : Objs, o.deathView s'.events = o.deathView s.events) :
    Tracks counted strict s s' := by
  refine of_steps h hroster ?_
  rw [deathView, deathView, hevents, hframe.view]

section

variable (h : s.Wired counted)
include h

theorem of_same (hroster : s.SameRoster s') (hobjs : s'.objs = s.objs)
    (hevents : s'.events = s.events) : Tracks counted strict s s' :=
  of_frame (h.same hroster hobjs) hroster (hobjs ▸ .refl _) fun _ => by rw [hevents]

theorem of_moves (hroster : s.SameRoster s')
    (hmoves : s.objs.Moves counted strict s.Closed s.Reads s.events s'.objs)
    (hevents : s'.events = s.events) : Tracks counted strict s s' := by
  refine of_steps (h.of_refs hroster hmoves.refs) hroster ?_
  rw [deathView, deathView, hevents]
  exact hmoves.steps

theorem of_objs {objs : Objs}
    (hmoves : s.objs.Moves counted strict s.Closed s.Reads s.events objs) :
    Tracks counted strict s { s with objs := objs } :=
  of_moves h (.of_eq rfl rfl rfl) hmoves rfl

theorem of_step {v : DeathView} (hroster : s.SameRoster s') (hdeaths : s.objs.DeathsOnly s'.objs)
    (hstep : DeathView.Step strict s.Closed s.Reads s.deathView v) (hview : s'.deathView = v) :
    Tracks counted strict s s' :=
  of_steps (h.of_refs hroster (h.refs.deathsOnly hdeaths)) hroster (.single (hview ▸ hstep))

theorem incRefs {alloc : Bool} (haccept : counted → s.AcceptsTarget p target strong)
    (hok : s.incRefs p target strong alloc = .ok s') : Tracks counted strict s s' := by
  obtain ⟨⟨r, objs⟩, htarget, hok⟩ := of_bind hok
  unfold incTarget at htarget
  split at htarget
  next n hmgr =>
    obtain ⟨⟨r', objs'⟩, hget, htarget⟩ := of_bind htarget
    cases r' with
    | none => cases htarget
    | some r' =>
      cases htarget
      obtain ⟨⟨done, objs''⟩, hinc, hok⟩ := of_bind hok
      cases hok
      refine of_objs h (.refNode h.refs (by rintro q' ⟨⟩) (fun hcounted => ?_) (.of_ok hget)
        (.of_ok hinc))
      rcases haccept hcounted rfl n hmgr with hfound | haccepts
      · exact .inl hfound
      · exact .inr (.inr haccepts)
  next =>
    obtain ⟨rfl, rfl⟩ := Prod.mk.inj (Except.ok.inj htarget)
    dsimp only at hok
    split at hok
    · cases hok
      exact refl h
    · obtain ⟨⟨done, objs''⟩, hinc, hok⟩ := of_bind hok
      cases hok
      exact of_objs h (.of_frame (h.refs.incRef (.of_ok hinc)) (.incRef (.of_ok hinc)))

theorem decRefs (hok : s.decRefs p target strong = .ok s') : Tracks counted strict s s' := by
  unfold State.decRefs at hok
  split at hok
  · cases hok
    exact refl h
  · obtain ⟨objs, hdec, hok⟩ := of_bind hok
    cases hok
    exact of_objs h (.decRef s.ownLists h.refs (.of_ok hdec))

theorem refsDone {ptr : ℕ} (hok : s.refsDone p ptr cookie strong = .ok s') :
    Tracks counted strict s s' := by
  have hpending {n : Id} {node node' : Node} (hnode : s.objs.nodes.cell n = some node)
      (hview : node'.view = node.view) {objs : Objs} {strong : Bool}
      (hdec : (s.objs.setNode n node').binderDecNode n strong false = .ok objs) :
      Tracks counted strict s { s with objs := objs } := by
    have hset := h.refs.nodeChange s.ownLists hnode (.setNode _ _ _) hview
    have hframe : s.objs.DeathFrame (s.objs.setNode n node') :=
      .setNode hnode (congrArg RefGraph.Node.proc hview)
    exact of_objs h ((Moves.of_frame hset hframe).trans (.decNode s.ownLists hset hdec))
  unfold State.refsDone at hok
  split at hok
  · cases hok
    exact refl h
  · obtain ⟨node, hnode, hok⟩ := Heap.of_get hok
    split at hok
    · cases hok
      exact refl h
    · split at hok
      all_goals
        split at hok
        · cases hok
          exact refl h
        · obtain ⟨objs, hdec, hok⟩ := of_bind hok
          cases hok
          refine hpending hnode ?_ hdec
          rfl

theorem binderTransactionBufferRelease {failedAt : Option ℕ}
    (hok : s.binderTransactionBufferRelease b failedAt = .ok s') : Tracks counted strict s s' := by
  obtain ⟨objs, htarget, hok⟩ := of_bind hok
  obtain ⟨x, hrelease, hok⟩ := of_bind hok
  cases hok
  have hobjs : s.objs.Moves counted strict s.Closed s.Reads s.events objs := by
    split at htarget
    · exact .decNode s.ownLists h.refs htarget
    · cases htarget
      exact .refl h.refs
  exact of_moves h (.of_modifyProc rfl rfl rfl (fun _ => rfl))
    (hobjs.trans (Transfer.releaseObjects_moves s.ownLists hobjs.refs hrelease)) rfl

theorem binderFreeBuf (hok : s.binderFreeBuf rb b = .ok s') : Tracks counted strict s s' := by
  refine of_same h (.of_binderFreeBuf hok) (objs_binderFreeBuf hok) ?_
  obtain ⟨_, _, _, -, -, -, -, rfl⟩ := binderFreeBuf_ok hok
  rfl

theorem detach (b : BufferId) : Tracks counted strict s (s.detach b) := by
  refine of_same h .of_detach objs_detach ?_
  unfold State.detach
  split <;> rfl

theorem fail {error : ℕ} (hok : s.fail id error inReplyTo = .ok s') :
    Tracks counted strict s s' := by
  have hroster := of_fail hok
  obtain ⟨calls, -, rfl⟩ := fail_ok hok
  exact of_same h hroster rfl rfl

theorem failCounted {error : ℕ}
    (hok : State.fail { s with calls := s.calls.deletedComplete.deletedTransaction } id error
      inReplyTo = .ok s') : Tracks counted strict s s' := by
  have hcalls : Tracks counted strict s
      { s with calls := s.calls.deletedComplete.deletedTransaction } :=
    of_same h (.of_eq rfl rfl rfl) rfl rfl
  exact hcalls.trans (fail hcalls.tracked hok)

theorem undo {failedAt : ℕ} (hok : s.undo rb b failedAt = .ok s') : Tracks counted strict s s' := by
  obtain ⟨t, hrelease, hok⟩ := of_bind hok
  have ht : Tracks counted strict s t := binderTransactionBufferRelease h hrelease
  exact ht.trans (binderFreeBuf ht.tracked hok)

theorem fillBuffer {node : Option Id} (hok : s.fillBuffer b node tr = .ok s') :
    Tracks counted strict s s' := by
  obtain ⟨objs, htarget, hok⟩ := of_bind hok
  cases hok
  refine of_moves h (.of_eq rfl rfl rfl) ?_ rfl
  split at htarget
  · obtain ⟨⟨done, objs'⟩, hinc, rfl⟩ := of_map htarget
    exact .of_frame (h.refs.incNode (.of_ok hinc)) (.incNode (.of_ok hinc))
  · cases htarget
    exact .refl h.refs

theorem translate {target : Target} {e : Option (ℕ × ℕ)} (hid : s.HasThread p id)
    (haccept : counted → Transfer.AllAccept ⟨p, id, target.proc, s.acceptsFds target⟩
      (s.header b).dataSize env 0 tr.offsetList (s.load b))
    (hok : s.translate p id target b tr env = .ok (e, s')) : Tracks counted strict s s' := by
  unfold State.translate at hok
  split at hok
  · cases hok
    exact refl h
  · obtain ⟨⟨error, x⟩, htranslate, hok⟩ := of_bind hok
    cases hok
    have hload : (s.load b).objs.RefInv counted s.Reads := h.refs
    exact of_moves h (.of_modifyProc rfl rfl rfl (fun _ => rfl))
      (Transfer.translateObjects_moves hload (.inr ⟨id, rfl, hid⟩) haccept htranslate) rfl

end

theorem commit {target : Target} (hw : s.Wired counted) (h : s.Commit id target b tr s') :
    Tracks counted strict s s' := by
  have hpublish (o : Objs) (t w : Id) (q : Queue) : o.DeathFrame
      ((o.queue (.transaction t) q).queue (.transactionComplete w) (.thread id)) :=
    (DeathFrame.queue (by simp) q).trans (.queue (by simp) _)
  have hroster := of_commit h
  have hwired := hw.quiet hroster h.quiet
  cases h with
  | reply | waiting | call =>
    exact of_frame hwired hroster (hpublish _ _ _ _)
      fun o => o.deathView_append (by simp) (by simp) _
  | oneWay _ _ _ hnode =>
    refine of_frame hwired hroster ((DeathFrame.setNode hnode ?_).trans (hpublish _ _ _ _))
      fun o => o.deathView_append (by simp) (by simp) _
    rfl

theorem sendTo {target : Target} {reply : Bool} (h : s.Wired counted) (hid : s.HasThread p id)
    (haccept : counted → s.AcceptsTransfer rb p id target tr reply env)
    (hok : s.sendTo rb p id target tr reply env = .ok s') : Tracks counted strict s s' := by
  obtain ⟨⟨b, s₁⟩, halloc, hok⟩ := of_bind hok
  have h₁ : Tracks counted strict s s₁ := by
    obtain ⟨hroster, hobjs⟩ := SameRoster.of_binderAllocBuf halloc
    refine of_same h hroster hobjs ?_
    obtain ⟨proc, -, halloc⟩ := of_bind halloc
    split at halloc
    · cases halloc
      rfl
    · obtain ⟨⟨_, _⟩, -, halloc⟩ := of_bind halloc
      cases halloc
      rfl
  cases b with
  | none => exact h₁.trans (failCounted h₁.tracked hok)
  | some b =>
    obtain ⟨s₂, hfill, hok⟩ := of_bind hok
    obtain ⟨⟨error, s₃⟩, htranslate, hok⟩ := of_bind hok
    have h₂ : Tracks counted strict s s₂ := h₁.trans (fillBuffer h₁.tracked hfill)
    have hid₂ : s₂.HasThread p id := (h₂.roster.hasThread_iff p id).mpr hid
    have h₃ : Tracks counted strict s s₃ := h₂.trans (translate h₂.tracked hid₂
      (fun hcounted => ((haccept hcounted).of_eq halloc b rfl).of_eq hfill) htranslate)
    cases error with
    | none => exact h₃.trans (commit h₃.tracked (.of_ok hok))
    | some error =>
      obtain ⟨s₄, hundo, hok⟩ := of_bind hok
      have h₄ : Tracks counted strict s s₄ := h₃.trans (undo h₃.tracked hundo)
      exact h₄.trans (failCounted h₄.tracked hok)

theorem binderTransaction {reply : Bool} (h : s.Wired counted) (hid : s.HasThread p id)
    (haccept : counted → s.AcceptsTransaction rb p id tr reply env)
    (hok : s.binderTransaction rb p id tr reply env = .ok s') : Tracks counted strict s s' := by
  obtain ⟨⟨resolved, calls⟩, hresolve, hok⟩ := of_bind hok
  have hcalls : s.calls.Unwinds calls := .of_resolve hresolve
  have h₁ : Tracks counted strict s { s with calls := calls } :=
    of_same h (.of_unwinds rfl hcalls rfl) rfl rfl
  have hstat (c : Calls) (hc : c.threads = calls.threads) :
      Tracks counted strict s { s with calls := c } := by
    have hroster : SameRoster { s with calls := calls } { s with calls := c } := .of_eq rfl hc rfl
    exact of_same h (h₁.roster.trans hroster) rfl rfl
  cases resolved with
  | failed error inReplyTo => exact h₁.trans (fail h₁.tracked hok)
  | target target =>
    dsimp only at hok
    split at hok
    · exact h₁.trans (fail h₁.tracked hok)
    · split at hok
      · have h₂ := hstat calls.createdTransaction.deletedTransaction rfl
        exact h₂.trans (fail h₂.tracked hok)
      · have h₂ := hstat calls.createdTransaction.createdComplete rfl
        exact h₂.trans (sendTo h₂.tracked ((h₂.roster.hasThread_iff p id).mpr hid)
          (fun hcounted => (haccept hcounted).of_eq hresolve) hok)

theorem nextAsync (hw : s.Wired counted) (h : s.NextAsync id b s') :
    Tracks counted strict s s' := by
  have hasync := hw.refs.placed.async_work
  have hroster := of_nextAsync h
  have hwired := hw.quiet hroster (h.quiet hasync)
  cases h with
  | none => exact refl hw
  | last _ _ hnode =>
    refine of_frame hwired hroster (.setNode hnode ?_) fun _ => rfl
    rfl
  | @next n node w l _ _ _ _ hitems =>
    have hmem : w ∈ s.objs.works.items (.async n) := by simp [hitems]
    obtain ⟨t, rfl⟩ := hasync w n ((s.objs.works.mem_items _ _).mp hmem)
    exact of_frame hwired hroster
      ((DeathFrame.unqueue (by simp)).trans (.queue (by simp) _)) fun _ => rfl

theorem freeBuffer {kernPtr : ℕ} (h : s.Wired counted)
    (hok : s.freeBuffer rb p id kernPtr = .ok s') : Tracks counted strict s s' := by
  obtain ⟨proc, -, hok⟩ := of_bind hok
  split at hok
  · cases hok
    exact refl h
  · obtain ⟨found, -, hok⟩ := of_bind hok
    cases found with
    | none =>
      cases hok
      exact refl h
    | some b =>
      dsimp only at hok
      split at hok
      · cases hok
        exact refl h
      · obtain ⟨s₁, hnext, hok⟩ := of_bind hok
        obtain ⟨s₂, hrelease, hok⟩ := of_bind hok
        have h₀ : Tracks counted strict s (s.detach (p, b)) := detach h (p, b)
        have h₁ : Tracks counted strict s s₁ := h₀.trans (nextAsync h₀.tracked (.of_ok hnext))
        have h₂ : Tracks counted strict s s₂ :=
          h₁.trans (binderTransactionBufferRelease h₁.tracked hrelease)
        exact h₂.trans (binderFreeBuf h₂.tracked hok)

theorem reads_deathQueue (hid : s.HasThread p id) : s.Reads p (s.deathQueue p id) := by
  unfold deathQueue
  split
  · exact .inr ⟨id, rfl, hid⟩
  · exact .inl rfl

section

variable (h : s.Wired counted)
include h

section

variable (hid : s.HasThread p id)
include hid

theorem requestDeathNotification {alloc : Bool}
    (hok : s.requestDeathNotification p id target cookie alloc = .ok s') :
    Tracks counted strict s s' := by
  cases RequestDeath.of_ok hok with
  | ignored => exact refl h
  | noMemory => exact of_same h (.of_modifyThread rfl rfl (fun _ => rfl) rfl) rfl rfl
  | @requested r ref node o href hproc _ hnode howner =>
    exact of_step h (.of_eq rfl rfl rfl) (.addDeath href _ _) (.request r p)
      (deathView_addDeath href (proc_of_mem h.refs.consistent hproc href) cookie
        (by simp [owner, hnode, howner]))
  | @dead r ref node href hproc _ hnode howner =>
    exact of_step h (.of_eq rfl rfl rfl)
      ((DeathsOnly.addDeath href _ _).trans (.queue _ _ (s.deathQueue_ne p id)))
      (.requestDead r (reads_deathQueue hid))
      (deathView_addDeath_queue href (proc_of_mem h.refs.consistent hproc href) cookie _
        (by simp [owner, hnode, howner]))

theorem clearDeathNotification (hok : s.clearDeathNotification p id target cookie = .ok s') :
    Tracks counted strict s s' := by
  obtain ⟨objs, hclear, rfl⟩ := clearDeathNotification_ok hok
  exact of_objs h ⟨h.refs.deathsOnly (.clearDeath (s.deathQueue_ne p id) hclear),
    hclear.steps h.refs.consistent (reads_deathQueue hid)⟩

theorem deadBinderDone (hok : s.deadBinderDone p id cookie = .ok s') :
    Tracks counted strict s s' := by
  obtain ⟨objs, hdone, rfl⟩ := deadBinderDone_ok hok
  exact of_objs h ⟨h.refs.deathsOnly (.deadBinderDone (s.deathQueue_ne p id) hdone),
    hdone.steps (reads_deathQueue hid)⟩

theorem command {cmd : Command} (haccept : counted → s.AcceptsCommand rb p id cmd)
    (hok : s.command rb p id cmd = .ok s') : Tracks counted strict s s' := by
  cases cmd with
  | increfs target alloc | acquire target alloc => exact incRefs h haccept hok
  | release target | decrefs target => exact decRefs h hok
  | increfsDone ptr cookie | acquireDone ptr cookie => exact refsDone h hok
  | freeBuffer kernPtr => exact freeBuffer h hok
  | transaction tr env | reply tr env => exact binderTransaction h hid haccept hok
  | registerLooper | enterLooper =>
    cases hok
    exact of_same h (.of_modifyThread rfl rfl (fun _ => rfl) rfl) rfl rfl
  | exitLooper | unknown =>
    cases hok
    exact refl h
  | requestDeathNotification target cookie alloc => exact requestDeathNotification h hid hok
  | clearDeathNotification target cookie => exact clearDeathNotification h hid hok
  | deadBinderDone cookie => exact deadBinderDone h hid hok

theorem readNode {n : Id} (hhome : s.objs.works.home (.node n) = some q)
    (hq : q = .thread id ∨ q = .proc p) (hok : s.readNode p n = .ok s') :
    Tracks counted strict s s' := by
  obtain ⟨objs, hread, rfl⟩ := readNode_ok hok
  obtain ⟨p', howner, hreads⟩ := h.refs.placed.node_work n q hhome
  obtain rfl := hreads.unique hid hq
  exact of_objs h (.of_frame (h.refs.readNode s.ownLists howner hread)
    (.readNode h.refs.consistent hread))

end

theorem readDeath {d : Id} (hq : s.Reads p q) (hhome : s.objs.works.home (.death d) = some q)
    (hok : s.readDeath p d = .ok s') : Tracks counted strict s s' := by
  cases ReadDeath.of_ok hok with
  | cleared hdeath htype =>
    exact of_step h (.of_eq rfl rfl rfl) (.dropDeath _ d)
      (.readClear hhome (by simp [deathView, Objs.deathView, hdeath, htype]))
      deathView_dropDeath
  | delivered hdeath htype =>
    exact of_step h (.of_eq rfl rfl rfl) (.deliver _ d p)
      (.tell hhome hq (by simpa [deathView, Objs.deathView, hdeath] using htype))
      deathView_deliver

end

theorem readTransaction {t : Id} (hw : s.Wired counted) (h : s.ReadTransaction id t s') :
    Tracks counted strict s s' := by
  have hroster := of_readTransaction h
  have hwired := hw.quiet hroster h.quiet
  cases h <;>
    exact of_frame hwired hroster (.unqueue (by simp))
      fun o => o.deathView_append (by simp) (by simp) _

theorem readItem {w : Work} (h : s.Wired counted) (hid : s.HasThread p id)
    (hhome : s.objs.works.home w = some q) (hq : q = .thread id ∨ q = .proc p)
    (hok : s.readItem p id copied w = .ok s') : Tracks counted strict s s' := by
  have hreads : s.Reads p q := by
    rcases hq with rfl | rfl
    · exact .inr ⟨id, rfl, hid⟩
    · exact .inl rfl
  cases w with
  | node n => exact readNode h hid hhome hq hok
  | transaction t =>
    simp only [State.readItem] at hok
    split at hok
    · exact readTransaction h (.of_ok hok)
    · cases hok
      exact refl h
  | transactionComplete w =>
    cases hok
    split
    · exact of_frame (h.quiet (.of_eq rfl rfl rfl) (.unqueue _ _)) (.of_eq rfl rfl rfl)
        (.unqueue (by simp)) fun _ => rfl
    · exact refl h
  | death d =>
    simp only [State.readItem] at hok
    split at hok
    · exact readDeath h hreads hhome hok
    · cases hok
      exact refl h

theorem readWork (h : s.Wired counted) (hid : s.HasThread p id)
    (hok : s.readWork p id copied = .ok s') : Tracks counted strict s s' := by
  have hmem {q : Queue} {w : Work} {l : List Work} (hitems : s.objs.works.items q = w :: l) :
      s.objs.works.home w = some q :=
    (s.objs.works.mem_items q w).mp (hitems ▸ List.mem_cons_self)
  obtain ⟨thread, -, hok⟩ := of_bind hok
  split at hok
  next hitems => exact readItem h hid (hmem hitems) (.inl rfl) hok
  next hitems =>
    split at hok
    · exact readItem h hid (hmem hitems) (.inr rfl) hok
    · cases hok
      exact refl h
  next =>
    cases hok
    exact refl h

end Tracks

end State

end AndroidKernel.Binder
