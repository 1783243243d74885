import AndroidKernel.IoResource.Insert

/-!
# Runs on the trees of resources

In every run that meets the conditions `Allowed` the trees are sound, no call that fails changes
them, and no region that `__request_region` handed out has a number in common with another resource
that is marked busy. Tasks may sleep in `__request_region`, with the region that they allocated.
When such a task goes on, it takes the resource that was in its way for a parent, and the conditions
ask that this one is still there and not below a busy one. A run shows that the task can otherwise
get a region inside of a busy one.
-/

namespace AndroidKernel.IoResource

open Relation (ReflTransGen)
open Function List Option

variable {h h' : Heap} {root new parent old res id x e : ℕ} {run rest pre post children : List ℕ}
  {regions : List ℕ} {sleepers : List Sleeper}

section Regions

variable {rank : ℕ → ℕ} {fuel : ℕ}

theorem Sound.below_child (hs : Sound h) {p c y : ℕ} (hc : Child h p c) (hy : Below h y c) :
    y = c ∨ Below h y p := by
  rcases hy.cases_tail with heq | ⟨q, hyq, hqc⟩
  · exact .inl heq.symm
  · obtain rfl := hs.parent_unique hqc hc
    exact .inr hyq

/-- How `__request_region` ends. A region is linked below `parent`, and what is busy above it is
above `parent`. -/
theorem regionLoop_spec (flags : BitVec 32) (hs : Sound h) (hres : Unlinked h res)
    (hrank : ∀ a b, Child h a b → rank b < rank a) (hparent : Live h parent) (hne : parent ≠ res)
    (hfuel : rank parent < fuel) :
    (∃ p pre post, regionLoop h res flags fuel parent =
        some (link h p res (pre ++ res :: post), .handedOut) ∧ Live h p ∧ p ≠ res ∧
      Spot h p res pre post ∧ ∀ y, Below h y p → Busy h y → Below h y parent) ∨
    regionLoop h res flags fuel parent = some (update h res none, .refused) ∨
    ∃ q, regionLoop h res flags fuel parent = some (h, .sleeping q) := by
  induction fuel generalizing parent with
  | zero => exact absurd hfuel (Nat.not_lt_zero _)
  | succ fuel ih =>
    rcases requestResource_spec hs hparent hres.1 with
      ⟨hreq, -⟩ | ⟨pre, c, post, hreq, hsplit, -⟩ | ⟨pre, post, hreq, hspot⟩
    · obtain ⟨r, hr⟩ := hparent
      simp only [regionLoop, hreq, bind_eq_bind, bind_some, hr, ne_eq,
        not_true_eq_false, false_and, if_false]
      split_ifs
      · exact .inr (.inl rfl)
      · exact .inr (.inr ⟨parent, rfl⟩)
    · have hchild : Child h parent c := by
        rw [Child, hsplit]
        simp
      have hlt := hrank parent c hchild
      have hcp : c ≠ parent := fun heq => Nat.lt_irrefl _ (heq ▸ hlt)
      obtain ⟨rc, hrc⟩ := hs.live_child hchild
      simp only [regionLoop, hreq, bind_eq_bind, bind_some, hrc]
      by_cases hbusy : rc.flags &&& ioresourceBusy = 0
      · rw [if_pos ⟨hcp, hbusy⟩]
        have hcr : c ≠ res := fun heq => hs.not_child hres.2.1 parent (heq ▸ hchild)
        rcases ih ⟨rc, hrc⟩ hcr (by omega) with ⟨p, pre, post, heq, hp, hpr, hspot, habove⟩ | hrest
        · refine .inl ⟨p, pre, post, heq, hp, hpr, hspot, fun y hy hyb => ?_⟩
          rcases hs.below_child hchild (habove y hy hyb) with rfl | hup
          · exact absurd hbusy ((busy_iff hrc).mp hyb)
          · exact hup
        · exact .inr hrest
      · rw [if_neg fun hand => hbusy hand.2]
        split_ifs
        · exact .inr (.inr ⟨c, rfl⟩)
        · exact .inr (.inl rfl)
    · simp only [regionLoop, hreq, bind_eq_bind, bind_some]
      exact .inl ⟨parent, pre, post, rfl, hparent, hne, hspot, fun y hy _ => hy⟩

theorem firstContaining_spec {s : ℕ} {l : List ℕ} (hlive : ∀ c ∈ l, Live h c) :
    ∃ o, firstContaining h s e l = some o ∧ ∀ c, o = some c → c ∈ l := by
  induction l with
  | nil => exact ⟨none, rfl, fun _ hc => (by cases hc)⟩
  | cons y rest ih =>
    obtain ⟨r, hr⟩ := hlive y mem_cons_self
    simp only [firstContaining, hr, bind_eq_bind, bind_some]
    by_cases hin : r.start ≤ s ∧ r.stop ≥ e
    · refine ⟨some y, by rw [if_pos hin], fun c hc => ?_⟩
      rw [← Option.some_inj.mp hc]
      exact mem_cons_self
    · obtain ⟨o, ho, hmem⟩ := ih fun c hc => hlive c (mem_cons_of_mem _ hc)
      exact ⟨o, by rw [if_neg hin, ho], fun c hc => mem_cons_of_mem _ (hmem c hc)⟩

/-- `__release_region` finds nothing to free, or frees a busy resource with the range. -/
theorem releaseRegion_spec {s : ℕ} (hs : Sound h) (hrank : ∀ a b, Child h a b → rank b < rank a)
    (hparent : Live h parent) (hfuel : rank parent < fuel) :
    releaseRegion h s e fuel parent = some (h, none) ∨
    ∃ p x fl, (Child h p x ∧ Below h parent p ∧ Busy h x ∧ lo h x = s ∧ hi h x = e) ∧
      releaseRegion h s e fuel parent = some (update (unlink h p x) x none, some (x, fl)) := by
  induction fuel generalizing parent with
  | zero => exact absurd hfuel (Nat.not_lt_zero _)
  | succ fuel ih =>
    obtain ⟨p, hp⟩ := hparent
    have hkids : ∀ c ∈ p.children, Child h parent c := fun c hc => by rwa [Child, kids_eq hp]
    obtain ⟨o, ho, hmem⟩ := firstContaining_spec (s := s) (e := e)
      fun c hc => hs.live_child (hkids c hc)
    cases o with
    | none =>
      simp only [releaseRegion, hp, ho, bind_eq_bind, bind_some]
      exact .inl trivial
    | some c =>
      have hchild := hkids c (hmem c rfl)
      obtain ⟨r, hr⟩ := hs.live_child hchild
      simp only [releaseRegion, hp, ho, hr, bind_eq_bind, bind_some]
      by_cases hbusy : r.flags &&& ioresourceBusy = 0
      · rw [if_pos hbusy]
        have := hrank parent c hchild
        rcases ih ⟨r, hr⟩ (by omega) with hnone | ⟨p, x, fl, ⟨hpx, hbelow, hfound⟩, heq⟩
        · exact .inl hnone
        · exact .inr ⟨p, x, fl, ⟨hpx, .head hchild hbelow, hfound⟩, heq⟩
      · rw [if_neg hbusy]
        by_cases hexact : r.start ≠ s ∨ r.stop ≠ e
        · rw [if_pos hexact]
          exact .inl rfl
        · rw [if_neg hexact]
          rw [not_or, not_not, not_not] at hexact
          refine .inr ⟨parent, c, r.flags, ⟨hchild, .refl, (busy_iff hr).mpr hbusy, ?_, ?_⟩, rfl⟩
          · rw [lo_eq hr, hexact.1]
          · rw [hi_eq hr, hexact.2]

end Regions

section Alone

variable {a b y : ℕ}

/-- The regions that were handed out: each is a busy child, and no other busy resource is above or
below it. -/
structure Guarded (h : Heap) (regions : List ℕ) : Prop where
  linked : ∀ g ∈ regions, ∃ p, parentOf h g = some p
  busy : ∀ g ∈ regions, Busy h g
  alone : ∀ g ∈ regions, ∀ y, Busy h y → y ≠ g → ¬ Below h g y ∧ ¬ Below h y g

theorem Guarded.ne (hg : Guarded h regions) (hid : parentOf h id = none) {g : ℕ}
    (hmem : g ∈ regions) :
    g ≠ id := by
  rintro rfl
  obtain ⟨p, hp⟩ := hg.linked g hmem
  rw [hid] at hp
  cases hp

theorem eq_of_below (hid : kids h id = []) (hy : Below h id y) : y = id := by
  rcases hy.cases_head with heq | ⟨c, hc, -⟩
  · exact heq.symm
  · rw [Child, hid] at hc
    cases hc

theorem Sound.eq_of_below (hs : Sound h) (hid : parentOf h id = none) (hy : Below h y id) :
    y = id := by
  rcases hy.cases_tail with heq | ⟨c, -, hc⟩
  · exact heq.symm
  · exact absurd hc (hs.not_child hid c)

theorem Sound.range_of_below (hs : Sound h) (hab : Below h a b) :
    lo h a ≤ lo h b ∧ hi h b ≤ hi h a := by
  induction hab with
  | refl => exact ⟨le_rfl, le_rfl⟩
  | tail _ hbc ih =>
    have hin := hs.inside _ _ hbc
    exact ⟨ih.1.trans hin.1, hin.2.2.trans ih.2⟩

theorem below_link (hroot : Live h root) (hnew : Unlinked h new) (hne : root ≠ new)
    (hspot : Spot h root new pre post) (hab : Below (link h root new (pre ++ new :: post)) a b) :
    Below h a b ∨ Below h a root ∧ b = new :=
  Forest.reflTransGen_link (fun p c => (child_link hroot hspot p c).mp)
    (fun c hc => by rw [Child, hnew.2.2] at hc; cases hc) hne hab

section

variable (hg : Guarded h regions)
include hg

theorem Guarded.link (hroot : Live h root) (hnew : Unlinked h new) (hne : root ≠ new)
    (hspot : Spot h root new pre post) (hclear : Busy h new → ∀ g ∈ regions, ¬ Below h g root) :
    Guarded (link h root new (pre ++ new :: post)) regions := by
  refine ⟨fun g hmem => ?_, fun g hmem => ?_, fun g hmem y hy hyg =>
    ⟨fun hgy => ?_, fun hyg' => ?_⟩⟩
  · rw [parentOf_link root _ hnew.1, update_of_ne (hg.ne hnew.2.1 hmem)]
    exact hg.linked g hmem
  · rw [busy_link]
    exact hg.busy g hmem
  · rw [busy_link] at hy
    rcases below_link hroot hnew hne hspot hgy with hold | ⟨hup, rfl⟩
    · exact (hg.alone g hmem y hy hyg).1 hold
    · exact hclear hy g hmem hup
  · rw [busy_link] at hy
    rcases below_link hroot hnew hne hspot hyg' with hold | ⟨-, heq⟩
    · exact (hg.alone g hmem y hy hyg).2 hold
    · exact hg.ne hnew.2.1 hmem heq

theorem Guarded.cons (hs : Sound h) (hroot : Live h root) (hnew : Unlinked h new)
    (hne : root ≠ new) (hspot : Spot h root new pre post) (hbusy : Busy h new)
    (habove : ∀ y, Below h y root → ¬ Busy h y) :
    Guarded (IoResource.link h root new (pre ++ new :: post)) (new :: regions) := by
  have hold := hg.link hroot hnew hne hspot fun _ g hmem hup => habove g hup (hg.busy g hmem)
  refine ⟨fun g hmem => ?_, fun g hmem => ?_, fun g hmem y hy hyg => ?_⟩
  · rcases List.mem_cons.mp hmem with rfl | hmem
    · exact ⟨root, by rw [parentOf_link root _ hnew.1, update_self]⟩
    · exact hold.linked g hmem
  · rcases List.mem_cons.mp hmem with rfl | hmem
    · rw [busy_link]
      exact hbusy
    · exact hold.busy g hmem
  · rcases List.mem_cons.mp hmem with rfl | hmem
    · rw [busy_link] at hy
      constructor
      · intro hdown
        rcases below_link hroot hnew hne hspot hdown with hdown | ⟨-, heq⟩
        · exact hyg (IoResource.eq_of_below hnew.2.2 hdown)
        · exact hyg heq
      · intro hup
        rcases below_link hroot hnew hne hspot hup with hup | ⟨hup, -⟩
        · exact hyg (hs.eq_of_below hnew.2.1 hup)
        · exact habove y hup hy
    · exact hold.alone g hmem y hy hyg

theorem Guarded.linkAbove (hs : Sound h) (hnew : Unlinked h new) (hparent : Live h parent)
    (hne : parent ≠ new) (hgap : Gap h parent new pre run rest)
    (hclear : Busy h new → ∀ g ∈ regions, ¬ Below h g parent ∧ ∀ c ∈ run, ¬ Below h c g) :
    Guarded (linkAbove h parent new run (pre ++ new :: rest)) regions := by
  have hnot := hs.not_child hnew.2.1
  have hcases := child_linkAbove_cases hnew hparent hne hgap
  have hrunLive : ∀ c ∈ run, Live h c := fun c hc => hs.live_child (p := parent) (by
    rw [Child, hgap.split]
    simp [hc])
  refine ⟨fun g hmem => ?_, fun g hmem => ?_, fun g hmem y hy hyg =>
    ⟨fun hgy => ?_, fun hyg' => ?_⟩⟩
  · rw [parentOf_linkAbove parent _ hnew.1 hrunLive]
    dsimp only
    by_cases hrun : g ∈ run
    · exact ⟨new, if_pos hrun⟩
    · rw [if_neg hrun, update_of_ne (hg.ne hnew.2.1 hmem)]
      exact hg.linked g hmem
  · rw [busy_linkAbove]
    exact hg.busy g hmem
  · rw [busy_linkAbove] at hy
    by_cases hyn : y = new
    · subst hyn
      rcases Forest.reflTransGen_to_between hcases hnot hne hgy with heq | hup
      · exact hyg heq.symm
      · exact (hclear hy g hmem).1 hup
    · rcases Forest.reflTransGen_between hcases hnot hne hgy hyn with ⟨-, hold⟩ | ⟨heq, -⟩
      · exact (hg.alone g hmem y hy hyg).1 hold
      · exact hg.ne hnew.2.1 hmem heq
  · rw [busy_linkAbove] at hy
    rcases Forest.reflTransGen_between hcases hnot hne hyg' (hg.ne hnew.2.1 hmem) with
      ⟨-, hold⟩ | ⟨rfl, c, hc, hcg⟩
    · exact (hg.alone g hmem y hy hyg).2 hold
    · rcases (child_linkAbove run rest pre hnew hparent hne y c).mp hc with
        ⟨heq, -⟩ | ⟨-, hrun⟩ | ⟨-, hself, -⟩
      · exact hne heq.symm
      · exact (hclear hy g hmem).2 c hrun hcg
      · exact hself rfl

theorem Guarded.unlink (hs : Sound h) (hc : Child h parent old) :
    Guarded (unlink h parent old) (regions.filter (· ≠ old)) := by
  have hbelow {a b : ℕ} (hab : Below (IoResource.unlink h parent old) a b) : Below h a b :=
    ReflTransGen.mono (fun p c hpc => ((child_unlink hs hc p c).mp hpc).1) _ _ hab
  have hmem' {g : ℕ} (hmem : g ∈ regions.filter (· ≠ old)) : g ∈ regions ∧ g ≠ old := by
    simpa using hmem
  refine ⟨fun g hmem => ?_, fun g hmem => ?_, fun g hmem y hy hyg => ?_⟩
  · rw [parentOf_unlink parent (hs.live_child hc), update_of_ne (hmem' hmem).2]
    exact hg.linked g (hmem' hmem).1
  · rw [busy_unlink]
    exact hg.busy g (hmem' hmem).1
  · rw [busy_unlink] at hy
    have halone := hg.alone g (hmem' hmem).1 y hy hyg
    exact ⟨fun hgy => halone.1 (hbelow hgy), fun hyg' => halone.2 (hbelow hyg')⟩

theorem Guarded.replace {v : Option Resource} (hs : Sound h) (hparent : parentOf h id = none)
    (hkids : kids h id = []) (hv : ∀ r, v = some r → r.parent = none ∧ r.children = []) :
    Guarded (update h id v) regions := by
  have hbelow : Below (update h id v) = Below h := by
    have hchild : Child (update h id v) = Child h := by
      funext p c
      rw [Child, kids_update hkids fun r hr => (hv r hr).2, Child]
    rw [Below, hchild, Below]
  have hbusy {y : ℕ} (hy : y ≠ id) : Busy (update h id v) y ↔ Busy h y := by
    rw [Busy, update_of_ne hy, Busy]
  refine ⟨fun g hmem => ?_, fun g hmem => ?_, fun g hmem y hy hyg => ?_⟩
  · rw [parentOf_update hparent fun r hr => (hv r hr).1]
    exact hg.linked g hmem
  · exact (hbusy (hg.ne hparent hmem)).mpr (hg.busy g hmem)
  · rw [hbelow]
    by_cases hyi : y = id
    · subst hyi
      exact ⟨fun hup => hyg (hs.eq_of_below hparent hup).symm,
        fun hdown => hyg (IoResource.eq_of_below hkids hdown).symm⟩
    · exact hg.alone g hmem y ((hbusy hyi).mp hy) hyg

end

end Alone

section Waiting

/-- The regions of the tasks that sleep: each is busy, not part of a tree, and the task's own. -/
structure Waiting (h : Heap) (sleepers : List Sleeper) : Prop where
  unlinked : ∀ sl ∈ sleepers, Unlinked h sl.res
  busy : ∀ sl ∈ sleepers, Busy h sl.res
  own : (sleepers.map Sleeper.res).Nodup

theorem Waiting.congr (hw : Waiting h sleepers) (hsame : ∀ sl ∈ sleepers, h' sl.res = h sl.res) :
    Waiting h' sleepers := by
  refine ⟨fun sl hsl => ?_, fun sl hsl => ?_, hw.own⟩
  · simpa only [Unlinked, Live, parentOf, kids, hsame sl hsl] using hw.unlinked sl hsl
  · simpa only [Busy, hsame sl hsl] using hw.busy sl hsl

/-- Tasks leave the queue, and those that stay keep their regions. -/
theorem Waiting.sublist {sleepers' : List Sleeper} (hw : Waiting h sleepers)
    (hsub : (sleepers'.map Sleeper.res).Sublist (sleepers.map Sleeper.res)) :
    Waiting h sleepers' := by
  have hmem {sl : Sleeper} (hsl : sl ∈ sleepers') : ∃ sl' ∈ sleepers, sl'.res = sl.res :=
    List.mem_map.mp (hsub.subset (mem_map_of_mem hsl))
  refine ⟨fun sl hsl => ?_, fun sl hsl => ?_, hw.own.sublist hsub⟩
  · obtain ⟨sl', hsl', heq⟩ := hmem hsl
    exact heq ▸ hw.unlinked sl' hsl'
  · obtain ⟨sl', hsl', heq⟩ := hmem hsl
    exact heq ▸ hw.busy sl' hsl'

theorem link_other (hroot : id ≠ root) (hnew : id ≠ new) : link h root new children id = h id := by
  simp [link, modify, hroot, hnew]

theorem unlink_other (hparent : id ≠ parent) (hold : id ≠ old) : unlink h parent old id = h id := by
  simp [unlink, modify, hparent, hold]

theorem reparent_other (hrun : id ∉ run) : reparent h new run id = h id := by
  induction run generalizing h with
  | nil => rfl
  | cons c run ih =>
    rw [mem_cons, not_or] at hrun
    exact (ih hrun.2).trans (by simp [modify, hrun.1])

/-- What is linked below `root` touches no other resource that is not part of a tree. -/
theorem Inserted.other (hins : Inserted h root new h') (hs : Sound h) (hid : Unlinked h id)
    (hroot : id ≠ root) (hnew : id ≠ new) : h' id = h id := by
  have hbelow {p : ℕ} (hp : Below h root p) : id ≠ p := by
    rintro rfl
    rcases hp.cases_tail with heq | ⟨q, -, hq⟩
    · exact hroot heq
    · exact hs.not_child hid.2.1 q hq
  cases hins with
  | link hp => exact link_other (hbelow hp) hnew
  | @above p pre run rest hp hlive hne hgap =>
    have hrun : id ∉ run := fun hmem => hs.not_child hid.2.1 p (by
      rw [Child, hgap.split]
      simp [hmem])
    rw [linkAbove, modify, update_of_ne (hbelow hp), reparent_other hrun, modify, update_of_ne hnew]

/-- The release of a child touches no resource that is not part of a tree. -/
theorem Sound.unlink_other (hs : Sound h) (hchild : Child h parent old) (hid : Unlinked h id) :
    id ≠ old ∧ IoResource.unlink h parent old id = h id := by
  have hparent : id ≠ parent := by
    rintro rfl
    rw [Child, hid.2.2] at hchild
    cases hchild
  have hold : id ≠ old := fun heq => hs.not_child hid.2.1 parent (heq ▸ hchild)
  exact ⟨hold, IoResource.unlink_other hparent hold⟩

end Waiting

section Steps

variable {n s fuel : ℕ} {rank : ℕ → ℕ} {g p : ℕ} {fl : BitVec 32}

/-- Two resources are in one tree. -/
def SameTree (h : Heap) (a b : ℕ) : Prop := ∃ o, Below h o a ∧ Below h o b

/-- A busy resource that is put into the tree of `root` does not meet a region that was
handed out. -/
def Clear (st : State) (root new : ℕ) : Prop :=
  Busy st.heap new → ∀ g ∈ st.regions, SameTree st.heap root g → ¬ Meets st.heap g new

/-- The region was allocated by a task that sleeps. -/
def Waits (st : State) (id : ℕ) : Prop := ∃ sl ∈ st.sleepers, sl.res = id

/-- The resource is there, and neither it nor one above it is busy. -/
def Open (h : Heap) (parent : ℕ) : Prop := Live h parent ∧ ∀ y, Below h y parent → ¬ Busy h y

/-- The conditions on a call, on the resources before it. They are given to the functions as their
comments ask: what is linked is not part of a tree, what is released or adjusted is, and the region
of a task that sleeps is known to this task only. A busy resource is not put over or into a region
that was handed out, and a region is not requested below a busy resource nor released while it has
children. A task that was woken finds the resource that was in its way not busy. -/
def Allowed (st : State) : Op → Prop
  | .setup id _ _ _ => parentOf st.heap id = none ∧ kids st.heap id = [] ∧ ¬ Waits st id
  | .request root new | .insert root new =>
    Live st.heap root ∧ Unlinked st.heap new ∧ root ≠ new ∧ Clear st root new ∧
      ¬ Waits st root ∧ ¬ Waits st new
  | .release old => ∃ p, parentOf st.heap old = some p
  | .adjust res start size =>
    (∃ p, parentOf st.heap res = some p) ∧ 1 ≤ size ∧ start + size ≤ 2 ^ 32
  | .requestRegion parent _ _ _ alloc =>
    Open st.heap parent ∧ ∀ res, alloc = some res → st.heap res = none
  | .releaseRegion parent start n =>
    Live st.heap parent ∧ ∀ x, Below st.heap parent x → Busy st.heap x → lo st.heap x = start →
      hi st.heap x = rangeEnd start n → kids st.heap x = []
  | .resume i => ∃ sl, st.sleepers[i]? = some sl ∧ sl.awake = true ∧ Open st.heap sl.parent

/-- The resources after a call that fails: a task that was woken frees the region that it had
allocated. -/
def State.afterFailure (st : State) : Op → Heap
  | .resume i =>
    match st.sleepers[i]? with
    | some sl => update st.heap sl.res none
    | none => st.heap
  | _ => st.heap

/-- What holds in every state. -/
structure Invariant (st : State) : Prop where
  sound : Sound st.heap
  guarded : Guarded st.heap st.regions
  waiting : Waiting st.heap st.sleepers

variable {st st' : State}

/-- What a call does: it returns and keeps the invariant, and if it fails the resources are
`failed`. -/
def Good (failed : Heap) (r : Option (Outcome × State)) : Prop :=
  ∃ out st', r = some (out, st') ∧ Invariant st' ∧ (out = .failure → st'.heap = failed)

theorem Invariant.good_unchanged (hi : Invariant st) : Good st.heap (some (.failure, st)) :=
  ⟨_, _, rfl, hi, fun _ => rfl⟩

theorem Sound.below_total (hs : Sound h) {a b y : ℕ} (ha : Below h a y) (hb : Below h b y) :
    Below h a b ∨ Below h b a := by
  induction ha with
  | refl => exact .inr hb
  | tail hay hyz ih =>
    rcases hs.below_child hyz hb with rfl | hb
    · exact .inl (.tail hay hyz)
    · exact ih hb

/-- What is linked below `root` under the condition is not below a region that was handed out. -/
theorem Clear.not_below (hclear : Clear st root new) (hs : Sound st.heap)
    (hp : Below st.heap root p) (hinside : Inside st.heap p new) (hbusy : Busy st.heap new)
    (hg : g ∈ st.regions) : ¬ Below st.heap g p := by
  intro hgp
  have hsame : SameTree st.heap root g := by
    rcases hs.below_total hp hgp with hrg | hgr
    · exact ⟨root, .refl, hrg⟩
    · exact ⟨g, hgr, .refl⟩
  have hrange := hs.range_of_below hgp
  refine hclear hbusy g hg hsame ⟨?_, ?_⟩
  · exact hrange.1.trans (hinside.1.trans hinside.2.1)
  · exact hinside.2.1.trans (hinside.2.2.trans hrange.2)

/-- A region that was handed out is not below what is covered under the condition. -/
theorem Clear.not_above (hclear : Clear st root new) (hs : Sound st.heap)
    (hg : Guarded st.heap st.regions) {c : ℕ} (hp : Below st.heap root p) (hc : Child st.heap p c)
    (hcovers : lo st.heap new ≤ lo st.heap c ∧ hi st.heap c ≤ hi st.heap new)
    (hbusy : Busy st.heap new) (hmem : g ∈ st.regions) : ¬ Below st.heap c g := by
  intro hcg
  obtain ⟨q, hq⟩ := hg.linked g hmem
  have hself := (hs.inside q g (hs.child q g hq)).2.1
  have hrange := hs.range_of_below hcg
  refine hclear hbusy g hmem ⟨root, .refl, (hp.tail hc).trans hcg⟩ ⟨?_, ?_⟩ <;> omega

theorem Inserted.guarded (hins : Inserted st.heap root new h') (hs : Sound st.heap)
    (hg : Guarded st.heap st.regions) (hnew : Unlinked st.heap new) (hclear : Clear st root new) :
    Guarded h' st.regions := by
  cases hins with
  | link hbelow hlive hne hspot =>
    exact hg.link hlive hnew hne hspot fun hbusy g hmem =>
      hclear.not_below hs hbelow hspot.inside hbusy hmem
  | @above p pre run rest hbelow hlive hne hgap =>
    refine hg.linkAbove hs hnew hlive hne hgap fun hbusy g hmem =>
      ⟨hclear.not_below hs hbelow hgap.inside hbusy hmem, fun c hc => ?_⟩
    have hchild : Child st.heap p c := by
      rw [Child, hgap.split]
      simp [hc]
    exact hclear.not_above hs hg hbelow hchild (hgap.covers c hc) hbusy hmem

section

variable (hi : Invariant st)
include hi

theorem Invariant.setup (fuel : ℕ) (hok : Allowed st (.setup id s e fl)) :
    Good st.heap (exec fuel st (.setup id s e fl)) := by
  have hv : ∀ r, some (⟨s, e, fl, none, []⟩ : Resource) = some r →
      r.parent = none ∧ r.children = [] := by
    intro r hr
    obtain rfl := Option.some_inj.mp hr
    exact ⟨rfl, rfl⟩
  obtain ⟨hp, hk, hown⟩ := hok
  exact ⟨_, _, rfl, ⟨hi.sound.replace hp hk hv, hi.guarded.replace hi.sound hp hk hv,
    hi.waiting.congr fun sl hsl => update_of_ne (fun heq => hown ⟨sl, hsl, heq⟩) ..⟩,
    fun hfail => (by cases hfail)⟩

theorem Invariant.inserted (hins : Inserted st.heap root new h') (hnew : Unlinked st.heap new)
    (hclear : Clear st root new) (hown : ¬ Waits st root ∧ ¬ Waits st new) :
    Invariant { st with heap := h' } where
  sound := hins.sound hi.sound hnew
  guarded := hins.guarded hi.sound hi.guarded hnew hclear
  waiting := hi.waiting.congr fun sl hsl => hins.other hi.sound (hi.waiting.unlinked sl hsl)
    (fun heq => hown.1 ⟨sl, hsl, heq⟩) (fun heq => hown.2 ⟨sl, hsl, heq⟩)

/-- `request_resource` keeps the invariant. -/
theorem Invariant.request (fuel : ℕ) (hok : Allowed st (.request root new)) :
    Good st.heap (exec fuel st (.request root new)) := by
  obtain ⟨hroot, hnew, hne, hclear, hown⟩ := hok
  rcases requestResource_spec hi.sound hroot hnew.1 with
    ⟨hreq, -⟩ | ⟨pre, c, post, hreq, -⟩ | ⟨pre, post, hreq, hspot⟩
  iterate 2
    · rw [exec, hreq]
      exact hi.good_unchanged
  · have hins : Inserted st.heap root new (link st.heap root new (pre ++ new :: post)) :=
      .link .refl hroot hne hspot
    rw [exec, hreq]
    exact ⟨_, _, rfl, hi.inserted hins hnew hclear hown, fun hfail => (by cases hfail)⟩

/-- `insert_resource` keeps the invariant. -/
theorem Invariant.insert (hrank : ∀ a b, Child st.heap a b → rank b < rank a)
    (hfuel : rank root < fuel) (hok : Allowed st (.insert root new)) :
    Good st.heap (exec fuel st (.insert root new)) := by
  obtain ⟨hroot, hnew, hne, hclear, hown⟩ := hok
  rcases insertResource_spec hi.sound hnew hrank hroot hne hfuel with ⟨c, heq⟩ | ⟨h', heq, hins⟩
  · rw [exec, heq]
    exact hi.good_unchanged
  · rw [exec, heq]
    exact ⟨_, _, rfl, hi.inserted hins hnew hclear hown, fun hfail => (by cases hfail)⟩

/-- `release_resource` keeps the invariant. -/
theorem Invariant.release (fuel : ℕ) (hok : Allowed st (.release old)) :
    Good st.heap (exec fuel st (.release old)) := by
  obtain ⟨p, hp⟩ := hok
  have hchild := hi.sound.child p old hp
  obtain ⟨o, ho⟩ := live_of_parentOf hp
  obtain ⟨r, hr⟩ := live_of_child hchild
  have hmem : old ∈ r.children := by rwa [Child, kids_eq hr] at hchild
  have heq : releaseResource st.heap old = some (unlink st.heap p old, true) := by
    rw [parentOf_eq ho] at hp
    simp [releaseResource, ho, hp, hr, if_pos hmem]
  rw [exec, heq]
  exact ⟨_, _, rfl, ⟨hi.sound.unlink hchild, hi.guarded.unlink hi.sound hchild,
    hi.waiting.congr fun sl hsl =>
      (hi.sound.unlink_other hchild (hi.waiting.unlinked sl hsl)).2⟩, fun hfail => (by cases hfail)⟩

/-- `adjust_resource` keeps the invariant. -/
theorem Invariant.adjust (fuel : ℕ) (hok : Allowed st (.adjust res s n)) :
    Good st.heap (exec fuel st (.adjust res s n)) := by
  obtain ⟨⟨p, hp⟩, hsize, hwrap⟩ := hok
  rcases adjustResource_spec hi.sound (hi.sound.child p res hp) hsize hwrap with heq | ⟨heq, hsound⟩
  · rw [exec, heq]
    exact hi.good_unchanged
  · rw [exec, heq]
    refine ⟨_, _, rfl, ⟨hsound, ⟨?_, ?_, ?_⟩, ?_⟩, fun hfail => (by cases hfail)⟩
    · rw [parentOf_setRange]
      exact hi.guarded.linked
    · rw [busy_setRange]
      exact hi.guarded.busy
    · rw [busy_setRange, Below, child_setRange]
      exact hi.guarded.alone
    · refine hi.waiting.congr fun sl hsl => update_of_ne (fun heq => ?_) ..
      have hnone := (hi.waiting.unlinked sl hsl).2.1
      rw [heq, hp] at hnone
      cases hnone

end

theorem busy_newRegion (s n : ℕ) (fl : BitVec 32) :
    (newRegion s n fl).flags &&& ioresourceBusy ≠ 0 := by
  intro hzero
  have hbit := congrArg (fun b : BitVec 32 => b.getLsbD 31) hzero
  simp [newRegion, ioresourceBusy] at hbit

section

variable (hi : Invariant st) (hrank : ∀ a b, Child st.heap a b → rank b < rank a)
  (hfuel : rank parent < fuel)
include hi hrank hfuel

/-- The loop of `__request_region`, for a region that is allocated. -/
theorem Invariant.regionLoop (fl : BitVec 32) (hres : Unlinked st.heap res)
    (hbusy : Busy st.heap res) (hown : ¬ Waits st res) (hopen : Open st.heap parent) :
    Good (update st.heap res none)
      ((regionLoop st.heap res fl fuel parent).map (st.afterRegion res fl)) := by
  obtain ⟨hparent, habove⟩ := hopen
  have hne : parent ≠ res := fun heq => habove parent .refl (heq ▸ hbusy)
  have hother : ∀ sl ∈ st.sleepers, sl.res ≠ res := fun sl hsl heq => hown ⟨sl, hsl, heq⟩
  rcases regionLoop_spec fl hi.sound hres hrank hparent hne hfuel with
    ⟨p, pre, post, heq, hplive, hpne, hspot, hup⟩ | heq | ⟨q, heq⟩
  · have hclear (y : ℕ) (hy : Below st.heap y p) : ¬ Busy st.heap y :=
      fun hyb => habove y (hup y hy hyb) hyb
    rw [heq]
    refine ⟨_, _, rfl, ⟨hi.sound.link hplive hres hpne hspot,
      hi.guarded.cons hi.sound hplive hres hpne hspot hbusy hclear, ?_⟩,
      fun hfail => (by cases hfail)⟩
    exact hi.waiting.congr fun sl hsl =>
      link_other (fun heq => hclear p .refl (heq ▸ hi.waiting.busy sl hsl)) (hother sl hsl)
  · rw [heq]
    exact ⟨_, _, rfl, ⟨hi.sound.replace hres.2.1 hres.2.2 fun _ hr => (by cases hr),
      hi.guarded.replace hi.sound hres.2.1 hres.2.2 fun _ hr => (by cases hr),
      hi.waiting.congr fun sl hsl => update_of_ne (hother sl hsl) ..⟩, fun _ => rfl⟩
  · rw [heq]
    refine ⟨_, _, rfl, ⟨hi.sound, hi.guarded, ?_, ?_, ?_⟩, fun hfail => (by cases hfail)⟩
    · exact forall_mem_append.mpr ⟨hi.waiting.unlinked, by simpa using hres⟩
    · exact forall_mem_append.mpr ⟨hi.waiting.busy, by simpa using hbusy⟩
    · rw [map_append, nodup_append]
      refine ⟨hi.waiting.own, by simp, ?_⟩
      intro a ha b hb
      obtain ⟨sl, hsl, rfl⟩ := List.mem_map.mp ha
      rw [map_singleton, mem_singleton] at hb
      exact hb ▸ hother sl hsl

/-- `__release_region` keeps the invariant. -/
theorem Invariant.releaseRegion (hok : Allowed st (.releaseRegion parent s n)) :
    Good st.heap (exec fuel st (.releaseRegion parent s n)) := by
  obtain ⟨hparent, hleaf⟩ := hok
  rcases releaseRegion_spec (s := s) (e := rangeEnd s n) hi.sound hrank hparent hfuel with
    heq | ⟨p, x, fl, ⟨hchild, hbelow, hbusy, hlo, hhi⟩, heq⟩
  · rw [exec, heq]
    exact hi.good_unchanged
  · have hnone := hleaf x (hbelow.tail hchild) hbusy hlo hhi
    have hsound := hi.sound.unlink hchild
    have hguarded := hi.guarded.unlink hi.sound hchild
    have hp : parentOf (unlink st.heap p x) x = none := by
      rw [parentOf_unlink p (hi.sound.live_child hchild), update_self]
    have hk : kids (unlink st.heap p x) x = [] := by
      have hpx : x ≠ p := by
        rintro rfl
        rw [Child, hnone] at hchild
        cases hchild
      rw [kids_unlink (live_of_child hchild), update_of_ne hpx]
      exact hnone
    rw [exec, heq]
    refine ⟨_, _, rfl, ⟨hsound.replace hp hk fun _ hr => (by cases hr),
      hguarded.replace hsound hp hk fun _ hr => (by cases hr), ?_⟩, fun hfail => (by cases hfail)⟩
    have hwaiting : Waiting (update (unlink st.heap p x) x none) st.sleepers :=
      hi.waiting.congr fun sl hsl => by
        obtain ⟨hne, heq⟩ := hi.sound.unlink_other hchild (hi.waiting.unlinked sl hsl)
        rw [update_of_ne hne, heq]
    dsimp only
    split_ifs
    · exact hwaiting
    · refine hwaiting.sublist ?_
      rw [List.map_map]
      exact .refl _

end

/-- A call of `__request_region`, which allocates its region first. -/
theorem Invariant.requestRegion {alloc : Option ℕ} (hi : Invariant st)
    (hrank : ∀ a b, Child st.heap a b → rank b < rank a) (hfuel : rank parent < fuel)
    (hok : Allowed st (.requestRegion parent s n fl alloc)) :
    Good st.heap (exec fuel st (.requestRegion parent s n fl alloc)) := by
  obtain ⟨⟨hparent, habove⟩, hfresh⟩ := hok
  cases alloc with
  | none => exact hi.good_unchanged
  | some res =>
    have hnone := hfresh res rfl
    have hp : parentOf st.heap res = none := by rw [parentOf, hnone]; rfl
    have hk : kids st.heap res = [] := by rw [kids, hnone]; rfl
    have hv : ∀ r, some (newRegion s n fl) = some r → r.parent = none ∧ r.children = [] := by
      intro r hr
      obtain rfl := Option.some_inj.mp hr
      exact ⟨rfl, rfl⟩
    have hown (sl : Sleeper) (hsl : sl ∈ st.sleepers) : sl.res ≠ res := by
      intro heq
      obtain ⟨r, hr⟩ := (hi.waiting.unlinked sl hsl).1
      rw [heq, hnone] at hr
      cases hr
    have hne : parent ≠ res := by
      rintro rfl
      obtain ⟨r, hr⟩ := hparent
      rw [hnone] at hr
      cases hr
    have hi₁ : Invariant { st with heap := update st.heap res (some (newRegion s n fl)) } :=
      ⟨hi.sound.replace hp hk hv, hi.guarded.replace hi.sound hp hk hv,
        hi.waiting.congr fun sl hsl => update_of_ne (hown sl hsl) ..⟩
    have hafter : (st.afterRegion res fl) = State.afterRegion
        { st with heap := update st.heap res (some (newRegion s n fl)) } res fl := by
      funext r
      obtain ⟨h, out⟩ := r
      cases out <;> rfl
    have hback : update (update st.heap res (some (newRegion s n fl))) res none = st.heap := by
      rw [update_idem, ← hnone, update_eq_self]
    rw [exec, hafter]
    generalize hheap : update st.heap res (some (newRegion s n fl)) = h₁ at hi₁ hback ⊢
    have hres : h₁ res = some (newRegion s n fl) := by rw [← hheap, update_self]
    have hchild : Child h₁ = Child st.heap := by
      funext p c
      rw [Child, ← hheap, kids_update hk fun r hr => (hv r hr).2, Child]
    have hloop := hi₁.regionLoop (hchild ▸ hrank) hfuel fl
      ⟨⟨_, hres⟩, parentOf_eq hres, kids_eq hres⟩
      ((busy_iff hres).mpr (busy_newRegion s n fl)) ?_ ?_
    · rwa [hback] at hloop
    · rintro ⟨sl, hsl, heq⟩
      exact hown sl hsl heq
    · refine ⟨?_, fun y hy => ?_⟩
      · change Live h₁ parent
        rw [← hheap, Live, update_of_ne hne]
        exact hparent
      · have hyr : y ≠ res := by
          rintro rfl
          exact hne (eq_of_below (kids_eq hres) hy)
        rw [Below, hchild] at hy
        change ¬ Busy h₁ y
        rw [Busy, ← hheap, update_of_ne hyr]
        exact habove y hy

/-- A task that was woken goes on. -/
theorem Invariant.resume {i : ℕ} {sl : Sleeper} (hi : Invariant st)
    (hrank : ∀ a b, Child st.heap a b → rank b < rank a) (hfuel : rank sl.parent < fuel)
    (hsl : st.sleepers[i]? = some sl) (hawake : sl.awake = true) (hopen : Open st.heap sl.parent) :
    Good (st.afterFailure (.resume i)) (exec fuel st (.resume i)) := by
  have hmem := mem_of_getElem? hsl
  have hi₁ : Invariant { st with sleepers := st.sleepers.eraseIdx i } :=
    ⟨hi.sound, hi.guarded, hi.waiting.sublist ((eraseIdx_sublist _ i).map _)⟩
  have hown : ¬ Waits { st with sleepers := st.sleepers.eraseIdx i } sl.res := by
    rintro ⟨sl', hsl', heq⟩
    obtain ⟨j, hji, hj⟩ := mem_eraseIdx_iff_getElem?.mp hsl'
    have hlt : j < (st.sleepers.map Sleeper.res).length := by
      rw [length_map]
      exact (List.getElem?_eq_some_iff.mp hj).1
    refine hji ((getElem?_inj hlt hi.waiting.own).mp ?_)
    rw [getElem?_map, getElem?_map, hj, hsl, map_some, map_some, heq]
  obtain ⟨parent, res, fl, awake⟩ := sl
  obtain rfl : awake = true := hawake
  simp only [State.afterFailure, exec, hsl]
  exact hi₁.regionLoop hrank hfuel fl (hi.waiting.unlinked _ hmem) (hi.waiting.busy _ hmem) hown
    hopen

/-- Every call that is allowed returns if it has enough fuel, and keeps the invariant. -/
theorem Invariant.exec (hi : Invariant st) (op : Op) (hok : Allowed st op) :
    ∃ n, ∀ fuel ≥ n, Good (st.afterFailure op) (exec fuel st op) := by
  obtain ⟨rank, hrank⟩ := hi.sound.ranked
  cases op with
  | setup id s e fl => exact ⟨0, fun fuel _ => hi.setup fuel hok⟩
  | request root new => exact ⟨0, fun fuel _ => hi.request fuel hok⟩
  | release old => exact ⟨0, fun fuel _ => hi.release fuel hok⟩
  | insert parent new => exact ⟨rank parent + 1, fun fuel hf => hi.insert hrank hf hok⟩
  | adjust res s n => exact ⟨0, fun fuel _ => hi.adjust fuel hok⟩
  | requestRegion parent s n fl alloc =>
    exact ⟨rank parent + 1, fun fuel hf => hi.requestRegion hrank hf hok⟩
  | releaseRegion parent s n =>
    exact ⟨rank parent + 1, fun fuel hf => hi.releaseRegion hrank hf hok⟩
  | resume i =>
    obtain ⟨sl, hsl, hawake, hopen⟩ := hok
    exact ⟨rank sl.parent + 1, fun fuel hf => hi.resume hrank hf hsl hawake hopen⟩

end Steps

section Fuel

variable {fuel fuel' : ℕ} {flags : BitVec 32} {α β : Type}

/-- What the first one gives, the second one gives too. -/
def Extends {α : Type} (o o' : Option α) : Prop := ∀ a, o = some a → o' = some a

theorem Extends.refl {o : Option α} : Extends o o := fun _ heq => heq

theorem Extends.bind {o : Option α} {f g : α → Option β} (hfg : ∀ a, Extends (f a) (g a)) :
    Extends (o >>= f) (o >>= g) := by
  intro b heq
  obtain ⟨a, ha, hb⟩ := Option.bind_eq_some_iff.mp heq
  exact Option.bind_eq_some_iff.mpr ⟨a, ha, hfg a b hb⟩

theorem Extends.map {o o' : Option α} {f : α → β} (ho : Extends o o') :
    Extends (o.map f) (o'.map f) := by
  intro b heq
  obtain ⟨a, ha, hb⟩ := Option.map_eq_some_iff.mp heq
  exact Option.map_eq_some_iff.mpr ⟨a, ho a ha, hb⟩

theorem insertResource_succ :
    Extends (insertResource h new fuel parent) (insertResource h new (fuel + 1) parent) := by
  induction fuel generalizing parent with
  | zero => exact fun _ heq => (by cases heq)
  | succ fuel ih =>
    unfold insertResource
    refine .bind fun r => ?_
    split
    · exact .refl
    · split_ifs with hfirst
      · exact .refl
      · refine .bind fun f => .bind fun n => ?_
        split_ifs with hbreak
        · exact .refl
        · exact ih

theorem regionLoop_succ :
    Extends (regionLoop h res flags fuel parent) (regionLoop h res flags (fuel + 1) parent) := by
  induction fuel generalizing parent with
  | zero => exact fun _ heq => (by cases heq)
  | succ fuel ih =>
    unfold regionLoop
    refine .bind fun r => ?_
    split
    · exact .refl
    · refine .bind fun c => ?_
      split
      · exact ih
      · exact .refl

theorem releaseRegion_succ {s : ℕ} :
    Extends (releaseRegion h s e fuel parent) (releaseRegion h s e (fuel + 1) parent) := by
  induction fuel generalizing parent with
  | zero => exact fun _ heq => (by cases heq)
  | succ fuel ih =>
    unfold releaseRegion
    refine .bind fun p => .bind fun first => ?_
    split
    · exact .refl
    · refine .bind fun r => ?_
      split
      · exact ih
      · exact .refl

theorem exec_succ (st : State) (op : Op) : Extends (exec fuel st op) (exec (fuel + 1) st op) := by
  cases op with
  | setup | request | release | adjust => exact .refl
  | insert => exact insertResource_succ.map
  | requestRegion parent s n fl alloc =>
    cases alloc with
    | none => exact .refl
    | some res => exact regionLoop_succ.map
  | releaseRegion => exact releaseRegion_succ.map
  | resume i =>
    simp only [exec]
    split
    · exact regionLoop_succ.map
    · exact .refl

/-- More fuel changes no result. -/
theorem exec_mono {st : State} {op : Op} {r : Outcome × State} (hle : fuel ≤ fuel')
    (heq : exec fuel st op = some r) : exec fuel' st op = some r := by
  induction hle with
  | refl => exact heq
  | step _ ih => exact exec_succ st op r ih

end Fuel

/-- The states that are reached by allowed calls, from one in which there are no links. -/
inductive Reachable : State → Prop
  | init {h : Heap} : (∀ id, parentOf h id = none ∧ kids h id = []) → Reachable ⟨h, [], []⟩
  | step {st st' : State} {op : Op} {fuel : ℕ} {out : Outcome} : Reachable st → Allowed st op →
      exec fuel st op = some (out, st') → Reachable st'

theorem Reachable.invariant {st : State} (hr : Reachable st) : Invariant st := by
  induction hr with
  | @init h hnone =>
    have hchild (p c : ℕ) : ¬ Child h p c := fun hc => by
      rw [Child, (hnone p).2] at hc
      cases hc
    refine ⟨⟨fun p c hc => absurd hc (hchild p c), fun p c hc => ?_,
      fun p c hc => absurd hc (hchild p c), fun p => ?_, fun _ => 0,
      fun a b hab => absurd hab (hchild a b)⟩,
      ⟨fun _ hg => (by cases hg), fun _ hg => (by cases hg), fun _ hg => (by cases hg)⟩,
      ⟨fun _ hsl => (by cases hsl), fun _ hsl => (by cases hsl), .nil⟩⟩
    · rw [(hnone c).1] at hc
      cases hc
    · rw [(hnone p).2]
      exact .nil
  | @step st st' op fuel out _ hok hexec ih =>
    obtain ⟨n, hn⟩ := ih.exec op hok
    obtain ⟨out', st'', heq, hinv, -⟩ := hn (max n fuel) (le_max_left ..)
    rw [exec_mono (le_max_right n fuel) hexec] at heq
    obtain ⟨-, rfl⟩ := Prod.mk.inj (Option.some_inj.mp heq)
    exact hinv

/-- In every run of allowed calls: the children of every resource are sorted, disjoint and inside of
it, and the links up and down agree. No region that was handed out meets another busy resource of
its tree. Every allowed call returns, and one that fails leaves everything as it was, but for the
region that a woken task had allocated. -/
theorem resource_trees_sound {st : State} (hr : Reachable st) : Sound st.heap ∧
    (∀ g ∈ st.regions, ∀ y, SameTree st.heap g y → Busy st.heap y → y ≠ g → ¬ Meets st.heap g y) ∧
    ∀ op, Allowed st op → ∃ n out st', (∀ fuel ≥ n, exec fuel st op = some (out, st')) ∧
      (out = .failure → st'.heap = st.afterFailure op) := by
  have hinv := hr.invariant
  refine ⟨hinv.sound, fun g hg y hsame hbusy hne hmeets => ?_, fun op hok => ?_⟩
  · obtain ⟨o, hog, hoy⟩ := hsame
    have halone := hinv.guarded.alone g hg y hbusy hne
    rcases hinv.sound.comparable hog hoy hmeets with hgy | hyg
    · exact halone.1 hgy
    · exact halone.2 hyg
  · obtain ⟨n, hn⟩ := hinv.exec op hok
    obtain ⟨out, st', heq, -, hfail⟩ := hn n le_rfl
    exact ⟨n, out, st', fun fuel hle => exec_mono hle heq, hfail⟩

/-- One resource with the numbers up to 99. -/
def oneRoot : Heap := fun id => if id = 0 then some ⟨0, 99, 0, none, []⟩ else none

theorem reachable_oneRoot : Reachable ⟨oneRoot, [], []⟩ :=
  .init fun id => by
    by_cases hid : id = 0
    · subst hid
      exact ⟨rfl, rfl⟩
    · simp [parentOf, kids, oneRoot, hid]

/-- A run of calls, with the fuel that each of them takes. -/
def runOps (fuel : ℕ) (st : State) (ops : List Op) : Option State :=
  ops.foldlM (fun st op => (exec fuel st op).map Prod.snd) st

/-- A region can be requested below the root of `oneRoot`, whatever is below it. -/
theorem allowed_region {st : State} (hr : Reachable st) {start n res : ℕ} {flags : BitVec 32}
    {children : List ℕ} (hroot : st.heap 0 = some ⟨0, 99, 0, none, children⟩)
    (hres : st.heap res = none) : Allowed st (.requestRegion 0 start n flags (some res)) := by
  refine ⟨⟨⟨_, hroot⟩, fun y hy => ?_⟩, fun res' heq => Option.some_inj.mp heq ▸ hres⟩
  obtain rfl := hr.invariant.sound.eq_of_below (parentOf_eq hroot) hy
  rw [busy_iff hroot]
  simp

/-- The regions 1 and 2 are handed out, and a task waits with the region 3. -/
def twoRegions : State :=
  (runOps 3 ⟨oneRoot, [], []⟩ [
    .requestRegion 0 0 10 ioresourceMuxed (some 1),
    .requestRegion 0 20 10 0 (some 2),
    .requestRegion 0 5 5 ioresourceMuxed (some 3)]).getD ⟨oneRoot, [], []⟩

theorem reachable_twoRegions : Reachable twoRegions := by
  have h₁ := @Reachable.step _ _ (.requestRegion 0 0 10 ioresourceMuxed (some 1)) 3 _
    reachable_oneRoot (allowed_region reachable_oneRoot rfl rfl) rfl
  have h₂ := @Reachable.step _ _ (.requestRegion 0 20 10 0 (some 2)) 3 _ h₁
    (allowed_region h₁ rfl rfl) rfl
  exact @Reachable.step _ _ (.requestRegion 0 5 5 ioresourceMuxed (some 3)) 3 _ h₂
    (allowed_region h₂ rfl rfl) rfl

/-- The region 1, which is in the way of the task that waits, can be released. -/
theorem resource_trees_sound_twoRegions :
    kids twoRegions.heap 0 = [1, 2] ∧ twoRegions.sleepers.length = 1 ∧ Sound twoRegions.heap ∧
    ¬ Meets twoRegions.heap 1 2 ∧
    ∃ n out st', (∀ fuel ≥ n, exec fuel twoRegions (.releaseRegion 0 0 10) = some (out, st')) ∧
      (out = .failure → st'.heap = twoRegions.heap) := by
  obtain ⟨hsound, hclear, hcalls⟩ := resource_trees_sound reachable_twoRegions
  have hroot : Child twoRegions.heap 0 1 ∧ Child twoRegions.heap 0 2 := by decide
  refine ⟨rfl, rfl, hsound, ?_, hcalls _ ⟨⟨_, rfl⟩, fun x hx hbusy _ _ => ?_⟩⟩
  · exact hclear 1 (by decide) 2 ⟨0, .single hroot.1, .single hroot.2⟩ ⟨_, rfl, by decide⟩
      (by decide)
  · rcases hx.cases_head with rfl | ⟨c, hc, hcx⟩
    · exact absurd rfl ((busy_iff rfl).mp hbusy)
    · rcases (show c = 1 ∨ c = 2 by simpa using (show c ∈ [1, 2] from hc)) with rfl | rfl
      · exact eq_of_below rfl hcx ▸ rfl
      · exact eq_of_below rfl hcx ▸ rfl

/-- A task waits for the region 1 to be released, and wakes up when the region 2 is. It gets the
region 3 with the same numbers, inside of the region 1, which is busy. -/
theorem woken_request_inside_busy : ∃ st, runOps 3 ⟨oneRoot, [], []⟩ [
      .requestRegion 0 0 10 ioresourceMuxed (some 1),
      .requestRegion 0 20 10 ioresourceMuxed (some 2),
      .requestRegion 0 0 10 ioresourceMuxed (some 3),
      .releaseRegion 0 20 10,
      .resume 0] = some st ∧ 3 ∈ st.regions ∧ Child st.heap 1 3 ∧ Busy st.heap 1 ∧
    Meets st.heap 3 1 :=
  ⟨_, rfl, by decide, by decide, ⟨_, rfl, by decide⟩, by decide⟩

/-- In every reachable state the release of a resource that was just requested undoes the request:
the trees are as they were, every resource with its range, its flags, its parent and its children
in their order. -/
theorem release_undoes_request {st : State} (hr : Reachable st) {h' : Heap} {root new : ℕ}
    (hroot : Live st.heap root) (hnew : Unlinked st.heap new) (hne : root ≠ new)
    (hreq : requestResource st.heap root new = some (h', none)) :
    releaseResource h' new = some (st.heap, true) := by
  have hs := hr.invariant.sound
  rcases requestResource_spec hs hroot hnew.1 with ⟨heq, -⟩ | ⟨_, _, _, heq, -⟩ |
    ⟨pre, post, heq, hspot⟩
  · cases heq.symm.trans hreq
  · cases heq.symm.trans hreq
  · cases heq.symm.trans hreq
    obtain ⟨r, hr⟩ := hroot
    obtain ⟨⟨n, hn⟩, hparent, -⟩ := hnew
    rw [parentOf_eq hn] at hparent
    have hkids : r.children = pre ++ post := (kids_eq hr).symm.trans hspot.split
    have hnot : new ∉ pre := fun hmem => hs.not_child (by rw [parentOf_eq hn, hparent]) root
      (hspot.split ▸ mem_append_left post hmem)
    have herase : (pre ++ new :: post).erase new = r.children := by
      rw [erase_append_right _ hnot, erase_cons_head, hkids]
    have hroot' : link st.heap root new (pre ++ new :: post) root =
        some { r with children := pre ++ new :: post } := by simp [link, modify, hne, hr]
    have hnew' : link st.heap root new (pre ++ new :: post) new =
        some { n with parent := some root } := by simp [link, modify, hne.symm, hn]
    simp only [releaseResource, hnew', hroot', bind_eq_bind, bind_some]
    rw [if_pos (by simp)]
    refine congrArg some (Prod.ext (funext fun x => ?_) rfl)
    by_cases hx : x = new
    · subst hx
      simp [unlink, modify, hne.symm, hnew', hn, ← hparent]
    · by_cases hx' : x = root
      · subst hx'
        simp [unlink, modify, hne, hroot', hr, herase]
      · simp [unlink, link, modify, hx, hx']

/-- A range between the two regions of `twoRegions`. -/
theorem release_undoes_request_twoRegions :
    let h := update twoRegions.heap 4 (some ⟨12, 15, 0, none, []⟩)
    ∃ h', requestResource h 0 4 = some (h', none) ∧ kids h' 0 = [1, 4, 2] ∧
      releaseResource h' 4 = some (h, true) := by
  intro h
  have hreach := @Reachable.step _ _ (.setup 4 12 15 0) 0 _ reachable_twoRegions
    ⟨rfl, rfl, by
      rintro ⟨sl, hsl, hres⟩
      obtain rfl := List.mem_singleton.mp hsl
      cases hres⟩ rfl
  exact ⟨_, rfl, rfl, release_undoes_request hreach ⟨_, rfl⟩ ⟨⟨_, rfl⟩, rfl, rfl⟩
    (show 0 ≠ 4 by decide) rfl⟩

end AndroidKernel.IoResource
