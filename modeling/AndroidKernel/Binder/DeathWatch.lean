import AndroidKernel.Binder.Objects

/-!
# Death notifications

A reference may watch the node it is for with a death record. The record is idle while the node
has an owner; it is queued when the owner goes, handed out once, and kept until its process has
acknowledged it. This is the life of such records on its own, whatever else the driver does.
-/

namespace AndroidKernel.Binder

open Function Nat Option

/-- A reference of a process watches a node with a record; `alive` says that the node has an
owner. -/
structure Watch where
  record : Id
  proc : Id
  alive : Bool

/-- What there is to see of death notifications. -/
structure DeathView where
  /-- What each reference watches. -/
  watch : Id → Option Watch
  /-- The type of each record that is there. -/
  type : Id → Option DeathWork
  /-- The list each record is on. -/
  home : Id → Option Queue
  /-- How often `BR_DEAD_BINDER` was handed out for each record. -/
  told : Id → ℕ
  /-- The processes that asked for each record. -/
  asked : Id → Id → Prop
  /-- How often they asked for it. -/
  requests : Id → Id → ℕ
  /-- The references that were deleted. -/
  gone : Id → Prop
  /-- Records from here on have never been used. -/
  next : Id

namespace DeathView

/-- A record is where it belongs; `reads` says which lists a process reads its work from. -/
structure Sound (reads : Id → Queue → Prop) (v : DeathView) (d : Id) : Prop where
  live : ∀ r w, v.watch r = some w → w.record = d → (v.type d).isSome
  inj : ∀ r r' w w', v.watch r = some w → v.watch r' = some w' → w.record = d → w'.record = d →
    r = r'
  idle : ∀ r w, v.watch r = some w → w.record = d → w.alive = true → v.home d = none ∧ v.told d = 0
  kind : ∀ r w q, v.watch r = some w → w.record = d → v.home d = some q →
    v.type d = some .deadBinder
  asked : ∀ r w, v.watch r = some w → w.record = d → v.asked d w.proc
  fresh : v.next ≤ d → v.type d = none ∧ v.home d = none ∧ v.told d = 0 ∧ ∀ p, ¬ v.asked d p
  queued : ∀ q, v.home d = some q → (v.type d).isSome
  once : v.told d ≤ 1
  untold : ∀ q, v.home d = some q → (∀ p, q ≠ .deliveredDeath p) →
    v.type d ≠ some .clearDeathNotification → v.told d = 0
  delivered : ∀ p, v.home d = some (.deliveredDeath p) → v.told d = 1
  placed : ∀ q, v.home d = some q → ∃ p, v.asked d p ∧ (q = .deliveredDeath p ∨ reads p q)
  unique : ∀ p p', v.asked d p → v.asked d p' → p = p'

/-- All records are where they belong. -/
def Inv (reads : Id → Queue → Prop) (v : DeathView) : Prop := ∀ d, v.Sound reads d

/-- Only processes read lists, and each list is read by one. -/
structure Readers (reads : Id → Queue → Prop) : Prop where
  own : ∀ p, reads p (.proc p)
  unique : ∀ p p' q, reads p q → reads p' q → p = p'
  not_delivered : ∀ p p', ¬ reads p (.deliveredDeath p')

variable (v : DeathView) {S closed' : Id → Prop}

/-- A request for a node with an owner. -/
def request (r p : Id) : DeathView :=
  { v with
    watch := update v.watch r (some ⟨v.next, p, true⟩)
    type := update v.type v.next (some .unset)
    asked := fun d p' => v.asked d p' ∨ d = v.next ∧ p' = p
    requests := fun d p' => v.requests d p' + if d = v.next ∧ p' = p then 1 else 0
    next := v.next + 1 }

/-- A request for a node without an owner. -/
def requestDead (r p : Id) (q : Queue) : DeathView :=
  { v with
    watch := update v.watch r (some ⟨v.next, p, false⟩)
    type := update v.type v.next (some .deadBinder)
    home := update v.home v.next (some q)
    asked := fun d p' => v.asked d p' ∨ d = v.next ∧ p' = p
    requests := fun d p' => v.requests d p' + if d = v.next ∧ p' = p then 1 else 0
    next := v.next + 1 }

/-- A request is cleared whose record is on no list. -/
def clear (r d : Id) (q : Queue) : DeathView :=
  { v with
    watch := update v.watch r none
    type := update v.type d (some .clearDeathNotification)
    home := update v.home d (some q) }

/-- A request is cleared whose record is on a list. -/
def clearQueued (r d : Id) : DeathView :=
  { v with
    watch := update v.watch r none
    type := update v.type d (some .deadBinderAndClear) }

/-- A cleared request is acknowledged. -/
def doneClear (d : Id) (q : Queue) : DeathView :=
  { v with
    type := update v.type d (some .clearDeathNotification)
    home := update v.home d (some q) }

/-- A record goes away. -/
def free (d : Id) : DeathView :=
  { v with
    type := update v.type d none
    home := update v.home d none }

/-- `BR_DEAD_BINDER` is handed out. -/
def tell (d p : Id) : DeathView :=
  { v with
    home := update v.home d (some (.deliveredDeath p))
    told := update v.told d (v.told d + 1) }

/-- A process acknowledges what it was told. -/
def acknowledge (d : Id) : DeathView := { v with home := update v.home d none }

/-- A reference goes away that watches nothing. -/
def lose (r : Id) : DeathView := { v with gone := fun r' => v.gone r' ∨ r' = r }

/-- A reference goes away, and the record with it. -/
def forget (r d : Id) : DeathView := { (v.free d).lose r with watch := update v.watch r none }

/-- Records are taken off lists. -/
structure Drops (v v' : DeathView) : Prop where
  watch : v'.watch = v.watch
  type : v'.type = v.type
  home : ∀ d, v'.home d = v.home d ∨ v'.home d = none
  told : v'.told = v.told
  asked : v'.asked = v.asked
  requests : v'.requests = v.requests
  gone : v'.gone = v.gone
  next : v'.next = v.next

/-- The owner of the node that the references in `S` are for goes away. -/
structure Died (v : DeathView) (S : Id → Prop) (v' : DeathView) : Prop where
  alive : ∀ r w, S r → v.watch r = some w → w.alive = true
  watch_of : ∀ r, S r → v'.watch r = (v.watch r).map fun w => { w with alive := false }
  watch_of_not : ∀ r, ¬ S r → v'.watch r = v.watch r
  hit : ∀ r w, S r → v.watch r = some w →
    v'.type w.record = some .deadBinder ∧ v'.home w.record = some (.proc w.proc)
  miss : ∀ d, (∀ r w, S r → v.watch r = some w → w.record ≠ d) →
    v'.type d = v.type d ∧ v'.home d = v.home d
  told : v'.told = v.told
  asked : v'.asked = v.asked
  requests : v'.requests = v.requests
  gone : v'.gone = v.gone
  next : v'.next = v.next

variable {reads reads' : Id → Queue → Prop} {v v' : DeathView} {r d p : Id} {w : Watch} {q : Queue}

theorem Sound.congr (h : v.Sound reads d)
    (hwatch : ∀ r w, v'.watch r = some w → w.record = d → v.watch r = some w)
    (htype : v'.type d = v.type d) (hhome : v'.home d = v.home d) (htold : v'.told d = v.told d)
    (hasked : ∀ p, v'.asked d p ↔ v.asked d p) (hnext : v.next ≤ v'.next) : v'.Sound reads d where
  live r w hw hd := htype ▸ h.live r w (hwatch r w hw hd) hd
  inj r r' w w' hw hw' hd hd' := h.inj r r' w w' (hwatch r w hw hd) (hwatch r' w' hw' hd') hd hd'
  idle r w hw hd ha := by
    rw [hhome, htold]
    exact h.idle r w (hwatch r w hw hd) hd ha
  kind r w q hw hd hq := by
    rw [htype]
    exact h.kind r w q (hwatch r w hw hd) hd (hhome ▸ hq)
  asked r w hw hd := (hasked _).mpr (h.asked r w (hwatch r w hw hd) hd)
  fresh hle := by
    rw [htype, hhome, htold]
    obtain ⟨h₁, h₂, h₃, h₄⟩ := h.fresh (hnext.trans hle)
    exact ⟨h₁, h₂, h₃, fun p hp => h₄ p ((hasked p).mp hp)⟩
  queued q hq := htype ▸ h.queued q (hhome ▸ hq)
  once := htold ▸ h.once
  untold q hq hne htype' := htold ▸ h.untold q (hhome ▸ hq) hne (htype ▸ htype')
  delivered p hp := htold ▸ h.delivered p (hhome ▸ hp)
  placed q hq := by
    obtain ⟨p, hp, hreads⟩ := h.placed q (hhome ▸ hq)
    exact ⟨p, (hasked p).mpr hp, hreads⟩
  unique p p' hp hp' := h.unique p p' ((hasked p).mp hp) ((hasked p').mp hp')

theorem Sound.of_unwatched (hwatch : ∀ r w, v.watch r = some w → w.record ≠ d) (hlt : d < v.next)
    (hqueued : ∀ q, v.home d = some q → (v.type d).isSome) (honce : v.told d ≤ 1)
    (huntold : ∀ q, v.home d = some q → (∀ p, q ≠ .deliveredDeath p) →
      v.type d ≠ some .clearDeathNotification → v.told d = 0)
    (hdelivered : ∀ p, v.home d = some (.deliveredDeath p) → v.told d = 1)
    (hplaced : ∀ q, v.home d = some q → ∃ p, v.asked d p ∧ (q = .deliveredDeath p ∨ reads p q))
    (hunique : ∀ p p', v.asked d p → v.asked d p' → p = p') : v.Sound reads d where
  live r w hw hd := absurd hd (hwatch r w hw)
  inj r _ w _ hw _ hd _ := absurd hd (hwatch r w hw)
  idle r w hw hd := absurd hd (hwatch r w hw)
  kind r w _ hw hd := absurd hd (hwatch r w hw)
  asked r w hw hd := absurd hd (hwatch r w hw)
  fresh hle := absurd hlt (Nat.not_lt_of_le hle)
  queued := hqueued
  once := honce
  untold := huntold
  delivered := hdelivered
  placed := hplaced
  unique := hunique

namespace Inv

section

variable (h : v.Inv reads)
include h

theorem mono (hreads : ∀ d p q, v.home d = some q → reads p q → reads' p q) :
    v.Inv reads' := fun d =>
  { h d with
    placed := fun q hq => by
      obtain ⟨p, hasked, hp⟩ := (h d).placed q hq
      exact ⟨p, hasked, hp.imp_right (hreads d p q hq)⟩ }

theorem lt_next (hd : (v.type d).isSome) : d < v.next := by
  by_contra hle
  rw [((h d).fresh (Nat.le_of_not_lt hle)).1] at hd
  cases hd

theorem not_watched (hd : v.type d = none) (hw : v.watch r = some w) : w.record ≠ d := by
  intro heq
  have := (h d).live r w hw heq
  simp [hd] at this

theorem reads_of_asked (hasked : v.asked d p) (hq : v.home d = some q) :
    q = .deliveredDeath p ∨ reads p q := by
  obtain ⟨p', hasked', hp'⟩ := (h d).placed q hq
  obtain rfl := (h d).unique p p' hasked hasked'
  exact hp'

/-- A queued record with another type than that of a death is watched by nothing. -/
theorem unwatched (hq : v.home d = some q) (htype : v.type d ≠ some .deadBinder)
    (hw : v.watch r = some w) : w.record ≠ d :=
  fun heq => htype ((h d).kind r w q hw heq hq)

theorem of_record (d : Id) (hwatch : ∀ r w, v'.watch r = some w → w.record ≠ d → v.watch r = some w)
    (htype : ∀ e, e ≠ d → v'.type e = v.type e) (hhome : ∀ e, e ≠ d → v'.home e = v.home e)
    (htold : ∀ e, e ≠ d → v'.told e = v.told e)
    (hasked : ∀ e p, e ≠ d → (v'.asked e p ↔ v.asked e p)) (hnext : v.next ≤ v'.next)
    (hd : v'.Sound reads d) : v'.Inv reads := by
  intro e
  by_cases he : e = d
  · exact he ▸ hd
  · exact (h e).congr (fun r w hw hr => hwatch r w hw (hr ▸ he)) (htype e he) (hhome e he)
      (htold e he) (fun p => hasked e p he) hnext

/-- A reference comes to watch by a new record. Where the record is queued at once, it is the
record of a death, on a list of the process. -/
theorem newRecord (hreaders : Readers reads) {alive : Bool} {k : DeathWork}
    (hwatch : v'.watch = update v.watch r (some ⟨v.next, p, alive⟩))
    (htype : v'.type = update v.type v.next (some k))
    (hhome : ∀ e, e ≠ v.next → v'.home e = v.home e) (htold : v'.told = v.told)
    (hasked : ∀ e p', v'.asked e p' ↔ v.asked e p' ∨ e = v.next ∧ p' = p)
    (hnext : v'.next = v.next + 1) (hidle : alive = true → v'.home v.next = none)
    (hqueued : ∀ q, v'.home v.next = some q → k = .deadBinder ∧ reads p q) : v'.Inv reads := by
  obtain ⟨hnone, -, hzero, hnever⟩ := (h v.next).fresh le_rfl
  have hnew {r' : Id} {w : Watch} (hw : v'.watch r' = some w) (hd : w.record = v.next) :
      r' = r ∧ w = ⟨v.next, p, alive⟩ := by
    rw [hwatch, update_apply] at hw
    split_ifs at hw with hr
    · exact ⟨hr, (some.inj hw).symm⟩
    · exact absurd hd (h.not_watched hnone hw)
  have hp {p' : Id} (hp' : v'.asked v.next p') : p' = p :=
    ((hasked _ _).mp hp').elim (fun hp' => absurd hp' (hnever p')) (·.2)
  have htold₀ : v'.told v.next = 0 := htold ▸ hzero
  refine h.of_record v.next ?_ ?_ hhome (fun _ _ => htold ▸ rfl) ?_ (hnext ▸ le_succ _) ?_
  · intro r' w hw hd
    rw [hwatch, update_apply] at hw
    split_ifs at hw with hr
    · cases hw
      exact absurd rfl hd
    · exact hw
  · intro e he
    rw [htype, update_of_ne he]
  · intro e p' he
    simp [hasked, he]
  · constructor
    · intros
      simp [htype]
    · intro r₁ r₂ w₁ w₂ h₁ h₂ hd₁ hd₂
      exact (hnew h₁ hd₁).1.trans (hnew h₂ hd₂).1.symm
    · intro r' w hw hd ha
      rw [(hnew hw hd).2] at ha
      exact ⟨hidle ha, htold₀⟩
    · intro r' w q _ _ hq
      simp [htype, (hqueued q hq).1]
    · intro r' w hw hd
      rw [(hnew hw hd).2]
      exact (hasked _ _).mpr (.inr ⟨rfl, rfl⟩)
    · intro hle
      exact absurd (hnext ▸ hle) (not_succ_le_self _)
    · intros
      simp [htype]
    · simp [htold₀]
    · intros
      exact htold₀
    · intro p' hq
      exact absurd (hqueued _ hq).2 (hreaders.not_delivered p p')
    · intro q hq
      exact ⟨p, (hasked _ _).mpr (.inr ⟨rfl, rfl⟩), .inr (hqueued q hq).2⟩
    · intro p₁ p₂ h₁ h₂
      exact (hp h₁).trans (hp h₂).symm

theorem request (hreaders : Readers reads) (r p : Id) : (v.request r p).Inv reads := by
  have hnone : v.home v.next = none := ((h v.next).fresh le_rfl).2.1
  refine h.newRecord hreaders rfl rfl (fun _ _ => rfl) rfl (fun _ _ => Iff.rfl) rfl
    (fun _ => hnone) (fun q hq => ?_)
  exact absurd (hnone.symm.trans hq) (by simp)

theorem requestDead (hreaders : Readers reads) (r : Id) (hq : reads p q) :
    (v.requestDead r p q).Inv reads := by
  refine h.newRecord hreaders rfl rfl (fun e he => update_of_ne he _ _) rfl
    (fun _ _ => Iff.rfl) rfl (fun ha => by cases ha) (fun q' hq' => ⟨rfl, ?_⟩)
  have heq : q = q' := by simpa [DeathView.requestDead] using hq'
  exact heq ▸ hq

/-- After the reference that watches by a record stops to do so, nothing does. -/
theorem update_watch_ne (hr : v.watch r = some w) {r' : Id} {w' : Watch}
    (hw' : update v.watch r none r' = some w') : w'.record ≠ w.record ∧ v.watch r' = some w' := by
  rw [update_apply] at hw'
  split_ifs at hw' with hne
  exact ⟨fun heq => hne ((h w.record).inj r' r w' w hw' hr heq rfl), hw'⟩

/-- A record that nothing watches by any more is put on a list as cleared. -/
theorem cleared (hreaders : Readers reads) (hlt : d < v.next) (hasked : v.asked d p)
    (hq : reads p q) (hwatch : ∀ r w, v'.watch r = some w → w.record ≠ d ∧ v.watch r = some w)
    (hv' : v' = { v.doneClear d q with watch := v'.watch }) : v'.Inv reads := by
  have htype : v'.type = update v.type d (some .clearDeathNotification) := by rw [hv']; rfl
  have hhome : v'.home = update v.home d (some q) := by rw [hv']; rfl
  have htold : v'.told = v.told := by rw [hv']; rfl
  have hasked' : v'.asked = v.asked := by rw [hv']; rfl
  have hnext : v'.next = v.next := by rw [hv']; rfl
  refine h.of_record d (fun r w hw _ => (hwatch r w hw).2) (fun e he => by simp [htype, he])
    (fun e he => by simp [hhome, he]) (fun e _ => by rw [htold]) (fun e p _ => by rw [hasked'])
    hnext.ge ?_
  refine .of_unwatched (fun r w hw => (hwatch r w hw).1) (by rwa [hnext]) (by simp [htype])
    (htold ▸ (h d).once) (by simp [htype]) (fun p' hp' => ?_) (fun q' hq' => ?_)
    (hasked' ▸ (h d).unique)
  · obtain rfl : q = .deliveredDeath p' := by simpa [hhome] using hp'
    exact absurd hq (hreaders.not_delivered p p')
  · obtain rfl : q = q' := by simpa [hhome] using hq'
    exact ⟨p, hasked' ▸ hasked, .inr hq⟩

theorem clear (hreaders : Readers reads) (hr : v.watch r = some w) (hq : reads w.proc q) :
    (v.clear r w.record q).Inv reads :=
  h.cleared hreaders (h.lt_next ((h w.record).live r w hr rfl)) ((h w.record).asked r w hr rfl) hq
    (fun _ _ hw => h.update_watch_ne hr hw) rfl

theorem clearQueued (hr : v.watch r = some w) (hq : v.home w.record = some q) :
    (v.clearQueued r w.record).Inv reads := by
  have hkind := (h w.record).kind r w q hr rfl hq
  refine h.of_record w.record (fun _ _ hw' _ => (h.update_watch_ne hr hw').2)
    (fun e he => by simp [DeathView.clearQueued, he]) (fun _ _ => rfl)
    (fun _ _ => rfl) (fun _ _ _ => Iff.rfl) le_rfl ?_
  exact .of_unwatched (fun _ _ hw' => (h.update_watch_ne hr hw').1)
    (h.lt_next ((h w.record).live r w hr rfl)) (fun _ _ => by simp [DeathView.clearQueued])
    (h w.record).once (fun q' hq' hne _ => (h w.record).untold q' hq' hne (by simp [hkind]))
    (h w.record).delivered (h w.record).placed (h w.record).unique

theorem doneClear (hreaders : Readers reads) (hd : v.home d = some (.deliveredDeath p))
    (htype : v.type d = some .deadBinderAndClear) (hq : reads p q) :
    (v.doneClear d q).Inv reads := by
  have hasked : v.asked d p := by
    obtain ⟨p', hasked, hp' | hp'⟩ := (h d).placed _ hd
    · cases hp'
      exact hasked
    · exact absurd hp' (hreaders.not_delivered p' p)
  exact h.cleared hreaders (h.lt_next (by simp [htype])) hasked hq
    (fun _ _ hw => ⟨h.unwatched hd (by simp [htype]) hw, hw⟩) rfl

theorem free (hlt : d < v.next)
    (hwatch : ∀ r w, v'.watch r = some w → w.record ≠ d ∧ v.watch r = some w)
    (hv' : v' = { v.free d with watch := v'.watch, gone := v'.gone }) : v'.Inv reads := by
  have htype : v'.type = update v.type d none := by rw [hv']; rfl
  have hhome : v'.home = update v.home d none := by rw [hv']; rfl
  have htold : v'.told = v.told := by rw [hv']; rfl
  have hasked : v'.asked = v.asked := by rw [hv']; rfl
  have hnext : v'.next = v.next := by rw [hv']; rfl
  refine h.of_record d (fun r w hw _ => (hwatch r w hw).2) (fun e he => by simp [htype, he])
    (fun e he => by simp [hhome, he]) (fun e _ => by rw [htold]) (fun e p _ => by rw [hasked])
    hnext.ge ?_
  refine .of_unwatched (fun r w hw => (hwatch r w hw).1) (by rwa [hnext]) ?_
    (htold ▸ (h d).once) ?_ ?_ ?_ (hasked ▸ (h d).unique) <;> simp [hhome]

theorem readClear (hd : v.home d = some q) (htype : v.type d = some .clearDeathNotification) :
    (v.free d).Inv reads :=
  h.free (h.lt_next (by simp [htype]))
    (fun _ _ hw => ⟨h.unwatched hd (by simp [htype]) hw, hw⟩) rfl

theorem forget (hr : v.watch r = some w) : (v.forget r w.record).Inv reads :=
  h.free (h.lt_next ((h w.record).live r w hr rfl)) (fun _ _ hw => h.update_watch_ne hr hw) rfl

theorem tell (hreaders : Readers reads) (hd : v.home d = some q) (hq : reads p q)
    (htype : v.type d ≠ some .clearDeathNotification) : (v.tell d p).Inv reads := by
  have hne (p' : Id) : q ≠ .deliveredDeath p' := by
    rintro rfl
    exact hreaders.not_delivered p p' hq
  have htold : (v.tell d p).told d = 1 := by simp [DeathView.tell, (h d).untold q hd hne htype]
  have hhome {q' : Queue} (hq' : (v.tell d p).home d = some q') : q' = .deliveredDeath p := by
    simpa [DeathView.tell] using hq'.symm
  obtain ⟨p', hasked, hp'⟩ := (h d).placed q hd
  obtain rfl := hreaders.unique p p' q hq (hp'.resolve_left (hne p'))
  refine h.of_record d (fun _ _ hw _ => hw) (fun _ _ => rfl)
    (fun e he => by simp [DeathView.tell, he]) (fun e he => by simp [DeathView.tell, he])
    (fun _ _ _ => Iff.rfl) le_rfl ?_
  exact
    { live := (h d).live
      inj := (h d).inj
      idle := fun r w hw hr ha => by
        have := ((h d).idle r w hw hr ha).1
        simp [hd] at this
      kind := fun r w _ hw hr _ => (h d).kind r w q hw hr hd
      asked := (h d).asked
      fresh := fun hle => absurd (h.lt_next ((h d).queued q hd)) (Nat.not_lt_of_le hle)
      queued := fun _ _ => (h d).queued q hd
      once := htold.le
      untold := fun q' hq' hne' => absurd (hhome hq') (hne' p)
      delivered := fun _ _ => htold
      placed := fun q' hq' => ⟨p, hasked, .inl (hhome hq')⟩
      unique := (h d).unique }

theorem drops (hdrops : v.Drops v') : v'.Inv reads := by
  intro d
  rcases hdrops.home d with hhome | hhome
  · exact (h d).congr (fun r w hw _ => hdrops.watch ▸ hw) (by rw [hdrops.type]) hhome
      (by rw [hdrops.told]) (fun p => by rw [hdrops.asked]) hdrops.next.ge
  · exact
      { live := by
          rw [hdrops.watch, hdrops.type]
          exact (h d).live
        inj := by
          rw [hdrops.watch]
          exact (h d).inj
        idle := fun r w hw hr ha => by
          rw [hdrops.watch] at hw
          exact ⟨hhome, hdrops.told ▸ ((h d).idle r w hw hr ha).2⟩
        kind := by simp [hhome]
        asked := by
          rw [hdrops.watch, hdrops.asked]
          exact (h d).asked
        fresh := fun hle => by
          rw [hdrops.next] at hle
          obtain ⟨htype, -, hrest⟩ := (h d).fresh hle
          rw [hdrops.type, hdrops.told, hdrops.asked]
          exact ⟨htype, hhome, hrest⟩
        queued := by simp [hhome]
        once := hdrops.told ▸ (h d).once
        untold := by simp [hhome]
        delivered := by simp [hhome]
        placed := by simp [hhome]
        unique := hdrops.asked ▸ (h d).unique }

theorem died (hreaders : Readers reads) (hdied : v.Died S v') : v'.Inv reads := by
  -- What a reference watches after the death, it watched before.
  have hback {r : Id} {w : Watch} (hw : v'.watch r = some w) :
      ∃ w₀, v.watch r = some w₀ ∧ w₀.record = w.record ∧ w₀.proc = w.proc ∧
        (w.alive = true → w₀ = w ∧ ¬ S r) := by
    by_cases hS : S r
    · rw [hdied.watch_of r hS] at hw
      obtain ⟨w₀, hw₀, rfl⟩ := map_eq_some_iff.mp hw
      exact ⟨w₀, hw₀, rfl, rfl, by simp⟩
    · rw [hdied.watch_of_not r hS] at hw
      exact ⟨w, hw, rfl, rfl, fun _ => ⟨rfl, hS⟩⟩
  intro d
  by_cases hit : ∃ r w, S r ∧ v.watch r = some w ∧ w.record = d
  · obtain ⟨r, w, hS, hw, rfl⟩ := hit
    obtain ⟨htype, hhome⟩ := hdied.hit r w hS hw
    have hone {q : Queue} (hq : v'.home w.record = some q) : q = .proc w.proc :=
      some.inj (hq.symm.trans hhome)
    have htold : v'.told w.record = 0 :=
      hdied.told ▸ ((h w.record).idle r w hw rfl (hdied.alive r w hS hw)).2
    exact
      { live := by simp [htype]
        inj := fun r₁ r₂ w₁ w₂ h₁ h₂ hd₁ hd₂ => by
          obtain ⟨u₁, hu₁, he₁, -⟩ := hback h₁
          obtain ⟨u₂, hu₂, he₂, -⟩ := hback h₂
          exact (h w.record).inj r₁ r₂ u₁ u₂ hu₁ hu₂ (he₁.trans hd₁) (he₂.trans hd₂)
        idle := fun r₁ w₁ h₁ hd₁ ha₁ => by
          obtain ⟨u₁, hu₁, he₁, -, halive⟩ := hback h₁
          obtain rfl := (h w.record).inj r₁ r u₁ w hu₁ hw (he₁.trans hd₁) rfl
          exact absurd hS (halive ha₁).2
        kind := fun _ _ _ _ _ _ => htype
        asked := fun r₁ w₁ h₁ hd₁ => by
          obtain ⟨u₁, hu₁, he₁, hp₁, -⟩ := hback h₁
          rw [hdied.asked, ← hp₁]
          exact (h w.record).asked r₁ u₁ hu₁ (he₁.trans hd₁)
        fresh := fun hle => by
          rw [hdied.next] at hle
          exact absurd (h.lt_next ((h w.record).live r w hw rfl)) (Nat.not_lt_of_le hle)
        queued := by simp [htype]
        once := by simp [htold]
        untold := fun _ _ _ _ => htold
        delivered := fun p' hp' => by cases hone hp'
        placed := fun q' hq' => by
          rw [hone hq', hdied.asked]
          exact ⟨w.proc, (h w.record).asked r w hw rfl, .inr (hreaders.own _)⟩
        unique := hdied.asked ▸ (h w.record).unique }
  · have hmiss : ∀ r w, S r → v.watch r = some w → w.record ≠ d :=
      fun r w hS hw hd => hit ⟨r, w, hS, hw, hd⟩
    obtain ⟨htype, hhome⟩ := hdied.miss d hmiss
    refine (h d).congr (fun r w hw hd => ?_) htype hhome (by rw [hdied.told])
      (fun p => by rw [hdied.asked]) hdied.next.ge
    by_cases hS : S r
    · obtain ⟨w₀, hw₀, he, -⟩ := hback hw
      exact absurd (he.trans hd) (hmiss r w₀ hS hw₀)
    · rwa [hdied.watch_of_not r hS] at hw

end

end Inv

/-- What can happen to death notifications. With `strict` only records of processes that are
closed are taken off lists that are read. -/
inductive Step (strict : Prop) (closed : Id → Prop) (reads : Id → Queue → Prop) (v : DeathView) :
    DeathView → Prop
  | request (r p : Id) : Step strict closed reads v (v.request r p)
  | requestDead (r : Id) {p : Id} {q : Queue} (hq : reads p q) :
      Step strict closed reads v (v.requestDead r p q)
  | clear {r : Id} {w : Watch} {q : Queue} (hr : v.watch r = some w)
    (hnone : v.home w.record = none)
      (hq : reads w.proc q) : Step strict closed reads v (v.clear r w.record q)
  | clearQueued {r : Id} {w : Watch} {q : Queue} (hr : v.watch r = some w)
      (hq : v.home w.record = some q) : Step strict closed reads v (v.clearQueued r w.record)
  | doneClear {d p : Id} {q : Queue} (hd : v.home d = some (.deliveredDeath p))
      (htype : v.type d = some .deadBinderAndClear) (hq : reads p q) :
      Step strict closed reads v (v.doneClear d q)
  | acknowledge {d p : Id} (hd : v.home d = some (.deliveredDeath p)) :
      Step strict closed reads v (v.acknowledge d)
  | readClear {d : Id} {q : Queue} (hd : v.home d = some q)
      (htype : v.type d = some .clearDeathNotification) : Step strict closed reads v (v.free d)
  | tell {d p : Id} {q : Queue} (hd : v.home d = some q) (hq : reads p q)
      (htype : v.type d ≠ some .clearDeathNotification) : Step strict closed reads v (v.tell d p)
  | lose {r : Id} (hr : v.watch r = none) : Step strict closed reads v (v.lose r)
  | forget {r : Id} {w : Watch} (hr : v.watch r = some w) :
      Step strict closed reads v (v.forget r w.record)
  | died {S : Id → Prop} {v' : DeathView} (hdied : v.Died S v') : Step strict closed reads v v'
  | drops {v' : DeathView} (hdrops : v.Drops v')
      (hclosed : strict → ∀ d q p, v.home d = some q → v.type d ≠ some .clearDeathNotification →
        v'.home d = none → reads p q → closed p) :
      Step strict closed reads v v'

variable {strict : Prop} {closed : Id → Prop}

theorem Drops.acknowledge (v : DeathView) (d : Id) : v.Drops (v.acknowledge d) where
  watch := rfl
  type := rfl
  home e := by
    simp only [DeathView.acknowledge, update_apply]
    split_ifs
    · exact .inr rfl
    · exact .inl rfl
  told := rfl
  asked := rfl
  requests := rfl
  gone := rfl
  next := rfl

/-- Each request has a record of its own. -/
def Single : Prop := ∀ d p, v.requests d p ≤ 1 ∧ (v.next ≤ d → v.requests d p = 0)

theorem Single.add (h : v.Single) (d p p' : Id) :
    (v.requests d p' + if d = v.next ∧ p' = p then 1 else 0) ≤ 1 ∧
      (v.next + 1 ≤ d → (v.requests d p' + if d = v.next ∧ p' = p then 1 else 0) = 0) := by
  obtain ⟨honce, hfresh⟩ := h d p'
  split_ifs with hd
  · rw [hfresh hd.1.ge]
    exact ⟨le_rfl, fun hle => absurd hd.1 (ne_of_gt hle)⟩
  · exact ⟨honce, fun hle => hfresh (le_of_succ_le hle)⟩

theorem Single.step (h : v.Single) (hstep : Step strict closed reads v v') : v'.Single := by
  cases hstep with
  | request r p => exact fun d => h.add d p
  | requestDead r hq => exact fun d => h.add d _
  | died hdied =>
    intro d p
    rw [hdied.requests, hdied.next]
    exact h d p
  | drops hdrops _ =>
    intro d p
    rw [hdrops.requests, hdrops.next]
    exact h d p
  | _ => exact h

theorem Inv.step (h : v.Inv reads) (hreaders : Readers reads)
    (hstep : Step strict closed reads v v') : v'.Inv reads := by
  cases hstep with
  | request r p => exact h.request hreaders r p
  | requestDead r hq => exact h.requestDead hreaders r hq
  | clear hr hnone hq => exact h.clear hreaders hr hq
  | clearQueued hr hq => exact h.clearQueued hr hq
  | doneClear hd htype hq => exact h.doneClear hreaders hd htype hq
  | acknowledge hd => exact h.drops (.acknowledge v _)
  | readClear hd htype => exact h.readClear hd htype
  | tell hd hq htype => exact h.tell hreaders hd hq htype
  | lose hr => exact fun d => (h d).congr (fun _ _ hw _ => hw) rfl rfl rfl (fun _ => Iff.rfl) le_rfl
  | forget hr => exact h.forget hr
  | died hdied => exact h.died hreaders hdied
  | drops hdrops => exact h.drops hdrops

/-- What a process asked for before its node lost its owner is handed out or waits to be, unless
the process is closed or gave up its reference. -/
structure Pending (closed : Id → Prop) (v : DeathView) (r d p : Id) : Prop where
  asked : v.asked d p
  only : ∀ r' w, v.watch r' = some w → w.record = d → r' = r
  waits : v.told d = 1 ∨ (∃ q, v.home d = some q ∧ v.type d ≠ some .clearDeathNotification) ∨
    (v.type d = none ∧ v.gone r) ∨ closed p

namespace Pending

variable {e p' r' : Id}

section

variable (hp : v.Pending closed r d p)
include hp

theorem lt_next (h : v.Inv reads) : d < v.next := by
  by_contra hle
  exact ((h d).fresh (Nat.le_of_not_lt hle)).2.2.2 p hp.asked

theorem congr (hwatch : ∀ r w, v'.watch r = some w → w.record = d → v.watch r = some w)
    (htype : v'.type d = v.type d) (hhome : v'.home d = v.home d) (htold : v'.told d = v.told d)
    (hasked : v.asked d p → v'.asked d p) (hgone : v.gone r → v'.gone r) :
    v'.Pending closed r d p where
  asked := hasked hp.asked
  only r' w hw hd := hp.only r' w (hwatch r' w hw hd) hd
  waits := by
    rw [htype, hhome, htold]
    exact hp.waits.imp_right (.imp_right (.imp_left (.imp_right hgone)))

theorem of_waits
    (hwatch : ∀ r w, v'.watch r = some w → w.record = d → (v.watch r).map Watch.record = some d)
    (hasked : v'.asked d p)
    (hwaits : v'.told d = 1 ∨ (∃ q, v'.home d = some q ∧ v'.type d ≠ some .clearDeathNotification) ∨
      (v'.type d = none ∧ v'.gone r) ∨ closed p) : v'.Pending closed r d p where
  asked := hasked
  only r' w hw hd := by
    obtain ⟨w', hw', hd'⟩ := map_eq_some_iff.mp (hwatch r' w hw hd)
    exact hp.only r' w' hw' hd'
  waits := hwaits

end

theorem watch_of_update (hw : update v.watch r none r' = some w) : v.watch r' = some w := by
  rw [update_apply] at hw
  split_ifs at hw
  exact hw

section

variable (hp : v.Pending closed r d p)
include hp

theorem watch_of_request (h : v.Inv reads) {r₁ : Id} {alive : Bool}
    (hw : update v.watch r₁ (some ⟨v.next, p', alive⟩) r' = some w) (hd : w.record = d) :
    v.watch r' = some w := by
  rw [update_apply] at hw
  split_ifs at hw
  · cases hw
    exact absurd hd (ne_of_gt (hp.lt_next h))
  · exact hw

theorem of_idle (hnone : v.home d = none) (hlive : v.type d ≠ none) : v.told d = 1 ∨ closed p := by
  rcases hp.waits with htold | ⟨q, hq, -⟩ | ⟨hfree, -⟩ | hclosed
  · exact .inl htold
  · simp [hnone] at hq
  · exact absurd hfree hlive
  · exact .inr hclosed

theorem clear (h : v.Inv reads) (hr : v.watch r' = some w) (hnone : v.home w.record = none) :
    (v.clear r' w.record q).Pending closed r d p := by
  by_cases hd : w.record = d
  · subst hd
    have hlive := isSome_iff_ne_none.mp ((h w.record).live r' w hr rfl)
    refine hp.of_waits (fun r' w' hw' hd' => ?_) hp.asked ?_
    · simp [watch_of_update hw', hd']
    · exact (hp.of_idle hnone hlive).imp_right fun hclosed => .inr (.inr hclosed)
  · have hd' : d ≠ w.record := Ne.symm hd
    exact hp.congr (fun _ _ hw _ => watch_of_update hw) (by simp [DeathView.clear, hd'])
      (by simp [DeathView.clear, hd']) rfl id id

theorem clearQueued (hq : v.home w.record = some q) :
    (v.clearQueued r' w.record).Pending closed r d p := by
  by_cases hd : w.record = d
  · subst hd
    refine hp.of_waits (fun r' w' hw' hd' => ?_) hp.asked
      (.inr (.inl ⟨q, hq, by simp [DeathView.clearQueued]⟩))
    simp [watch_of_update hw', hd']
  · have hd' : d ≠ w.record := Ne.symm hd
    exact hp.congr (fun _ _ hw _ => watch_of_update hw) (by simp [DeathView.clearQueued, hd']) rfl
      rfl id id

theorem readClear (htype : v.type e = some .clearDeathNotification) :
    (v.free e).Pending closed r d p := by
  by_cases he : d = e
  · subst he
    refine hp.of_waits (fun r' w hw hd => by simp [show v.watch r' = some w from hw, hd])
      hp.asked ?_
    rcases hp.waits with htold | ⟨q, -, hne⟩ | ⟨hfree, -⟩ | hclosed
    · exact .inl htold
    · exact absurd htype hne
    · simp [hfree] at htype
    · exact .inr (.inr (.inr hclosed))
  · exact hp.congr (fun _ _ hw _ => hw) (by simp [DeathView.free, he])
      (by simp [DeathView.free, he]) rfl id id

theorem tell (h : v.Inv reads) (hreaders : Readers reads) (hd : v.home e = some q)
    (hq : reads p' q) (htype : v.type e ≠ some .clearDeathNotification) :
    (v.tell e p').Pending closed r d p := by
  by_cases he : d = e
  · subst he
    have hne (p'' : Id) : q ≠ .deliveredDeath p'' := by
      rintro rfl
      exact hreaders.not_delivered _ p'' hq
    refine hp.of_waits (fun r' w hw hd => by simp [show v.watch r' = some w from hw, hd])
      hp.asked (.inl ?_)
    simp [DeathView.tell, (h d).untold q hd hne htype]
  · exact hp.congr (fun _ _ hw _ => hw) rfl (by simp [DeathView.tell, he])
      (by simp [DeathView.tell, he]) id id

theorem forget (hr : v.watch r' = some w) : (v.forget r' w.record).Pending closed r d p := by
  by_cases hd : w.record = d
  · subst hd
    refine hp.of_waits (fun r' w' hw' hd' => ?_) hp.asked (.inr (.inr (.inl ⟨?_, ?_⟩)))
    · simp [watch_of_update hw', hd']
    · simp [DeathView.forget, DeathView.lose, DeathView.free]
    · exact .inr (hp.only r' w hr rfl).symm
  · have hd' : d ≠ w.record := Ne.symm hd
    exact hp.congr (fun _ _ hw _ => watch_of_update hw)
      (by simp [DeathView.forget, DeathView.lose, DeathView.free, hd'])
      (by simp [DeathView.forget, DeathView.lose, DeathView.free, hd']) rfl id .inl

theorem died (hdied : v.Died S v') : v'.Pending closed r d p := by
  have hback {r' : Id} {w : Watch} (hw : v'.watch r' = some w) (hd : w.record = d) :
      (v.watch r').map Watch.record = some d := by
    by_cases hS : S r'
    · rw [hdied.watch_of r' hS] at hw
      obtain ⟨w₀, hw₀, rfl⟩ := map_eq_some_iff.mp hw
      simpa [hw₀] using hd
    · rw [hdied.watch_of_not r' hS] at hw
      simpa [hw] using hd
  refine hp.of_waits (fun _ _ => hback) (hdied.asked ▸ hp.asked) ?_
  by_cases hit : ∃ r w, S r ∧ v.watch r = some w ∧ w.record = d
  · obtain ⟨r', w, hS, hw, rfl⟩ := hit
    obtain ⟨htype, hhome⟩ := hdied.hit r' w hS hw
    exact .inr (.inl ⟨_, hhome, by simp [htype]⟩)
  · obtain ⟨htype, hhome⟩ := hdied.miss d fun r w hS hw hd => hit ⟨r, w, hS, hw, hd⟩
    rw [htype, hhome, hdied.told, hdied.gone]
    exact hp.waits

theorem drops (h : v.Inv reads) (hdrops : v.Drops v')
    (hclosed : ∀ d q p, v.home d = some q → v.type d ≠ some .clearDeathNotification →
      v'.home d = none → reads p q → closed p) : v'.Pending closed r d p := by
  refine hp.of_waits (fun r' w hw hd => by simp [hdrops.watch ▸ hw, hd])
    (hdrops.asked ▸ hp.asked) ?_
  rw [hdrops.type, hdrops.told, hdrops.gone]
  rcases hdrops.home d with hhome | hhome
  · rw [hhome]
    exact hp.waits
  · rcases hp.waits with htold | ⟨q, hq, htype⟩ | hfree | hgone
    · exact .inl htold
    · rcases h.reads_of_asked hp.asked hq with rfl | hreads
      · exact .inl ((h d).delivered p hq)
      · exact .inr (.inr (.inr (hclosed d q p hq htype hhome hreads)))
    · exact .inr (.inr (.inl hfree))
    · exact .inr (.inr (.inr hgone))

theorem of_delivered (h : v.Inv reads) (hd : v.home e = some (.deliveredDeath p'))
    (hwatch : v'.watch = v.watch) (htype : d ≠ e → v'.type d = v.type d)
    (hhome : d ≠ e → v'.home d = v.home d) (htold : v'.told = v.told) (hasked : v'.asked = v.asked)
    (hgone : v'.gone = v.gone) : v'.Pending closed r d p := by
  by_cases he : d = e
  · subst he
    refine hp.of_waits (fun r' w hw hd => by simp [hwatch ▸ hw, hd]) (hasked ▸ hp.asked) (.inl ?_)
    rw [htold]
    exact (h d).delivered p' hd
  · exact hp.congr (fun _ _ hw _ => hwatch ▸ hw) (htype he) (hhome he) (by rw [htold])
      (by rw [hasked]; exact id) (by rw [hgone]; exact id)

theorem step (h : v.Inv reads) (hreaders : Readers reads) (hstrict : strict)
    (hstep : Step strict closed reads v v') : v'.Pending closed r d p := by
  cases hstep with
  | request r₁ p₁ =>
    have hne := Nat.ne_of_lt (hp.lt_next h)
    exact hp.congr (fun _ _ => hp.watch_of_request h) (by simp [DeathView.request, hne]) rfl rfl
      .inl id
  | requestDead r₁ hq =>
    have hne := Nat.ne_of_lt (hp.lt_next h)
    exact hp.congr (fun _ _ => hp.watch_of_request h) (by simp [DeathView.requestDead, hne])
      (by simp [DeathView.requestDead, hne]) rfl .inl id
  | clear hr hnone hq => exact hp.clear h hr hnone
  | clearQueued hr hq => exact hp.clearQueued hq
  | doneClear hd htype hq =>
    exact hp.of_delivered h hd rfl (fun hne => by simp [DeathView.doneClear, hne])
      (fun hne => by simp [DeathView.doneClear, hne]) rfl rfl rfl
  | acknowledge hd =>
    exact hp.of_delivered h hd rfl (fun _ => rfl)
      (fun hne => by simp [DeathView.acknowledge, hne]) rfl rfl rfl
  | readClear hd htype => exact hp.readClear htype
  | tell hd hq htype => exact hp.tell h hreaders hd hq htype
  | lose hr => exact hp.congr (fun _ _ hw _ => hw) rfl rfl rfl id .inl
  | forget hr => exact hp.forget hr
  | died hdied => exact hp.died hdied
  | drops hdrops hclosed => exact hp.drops h hdrops (hclosed hstrict)

theorem mono (hclosed : ∀ p, closed p → closed' p) : v.Pending closed' r d p :=
  { hp with waits := hp.waits.imp_right (.imp_right (.imp_right (hclosed p))) }

end

end Pending

/-- Everything that was asked for about a node without an owner is handed out or waits to be. -/
def Kept (closed : Id → Prop) (v : DeathView) : Prop :=
  ∀ r w, v.watch r = some w → w.alive = false → v.Pending closed r w.record w.proc

theorem Kept.mono (h : v.Kept closed) (hclosed : ∀ p, closed p → closed' p) : v.Kept closed' :=
  fun r w hw ha => (h r w hw ha).mono hclosed

/-- A reference starts to watch a node without an owner when it asks then, or when the owner
goes. -/
theorem Step.watch_cases (hstep : Step strict closed reads v v') (hw : v'.watch r = some w)
    (ha : w.alive = false) :
    v.watch r = some w ∨ ∃ q, v'.home w.record = some q ∧
      v'.type w.record ≠ some .clearDeathNotification := by
  cases hstep with
  | request r₁ p₁ =>
    simp only [DeathView.request, update_apply] at hw
    split_ifs at hw
    · cases hw
      cases ha
    · exact .inl hw
  | @requestDead r₁ p₁ q hq =>
    simp only [DeathView.requestDead, update_apply] at hw
    split_ifs at hw
    · cases hw
      exact .inr ⟨q, by simp [DeathView.requestDead], by simp [DeathView.requestDead]⟩
    · exact .inl hw
  | clear | clearQueued | forget => exact .inl (Pending.watch_of_update hw)
  | doneClear | acknowledge | readClear | tell | lose => exact .inl hw
  | @died S _ hdied =>
    by_cases hS : S r
    · rw [hdied.watch_of r hS] at hw
      obtain ⟨w₀, hw₀, rfl⟩ := map_eq_some_iff.mp hw
      obtain ⟨htype, hhome⟩ := hdied.hit r w₀ hS hw₀
      exact .inr ⟨_, hhome, by simp [htype]⟩
    · rw [hdied.watch_of_not r hS] at hw
      exact .inl hw
  | drops hdrops => exact .inl (hdrops.watch ▸ hw)

theorem Kept.step (hk : v.Kept closed) (h : v.Inv reads) (hreaders : Readers reads)
    (hstrict : strict) (hstep : Step strict closed reads v v') : v'.Kept closed := by
  intro r w hw ha
  have h' := h.step hreaders hstep
  rcases hstep.watch_cases hw ha with hw₀ | hwaits
  · exact (hk r w hw₀ ha).step h hreaders hstrict hstep
  · exact ⟨(h' w.record).asked r w hw rfl,
      fun r' w' hw' hd => (h' w.record).inj r' r w' w hw' hw hd rfl, .inr (.inl hwaits)⟩

end DeathView

end AndroidKernel.Binder
