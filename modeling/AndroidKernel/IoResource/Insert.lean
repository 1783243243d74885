import AndroidKernel.IoResource.Tree

/-!
# Insertion and adjustment of resources

`__insert_resource` goes down the tree as long as a child contains the new range. Then it links the
new resource as a child, or puts it between a parent and those children that it covers.
`adjust_resource` gives a resource another range, as far as its neighbours, its parent and its
children let it.
-/

namespace AndroidKernel.IoResource

open Relation (ReflTransGen)
open Function List Option

variable {h h' : Heap} {new parent res first x : ℕ} {run rest pre post children : List ℕ}

section Above

theorem lo_reparent : lo (reparent h new run) = lo h := by
  induction run generalizing h with
  | nil => rfl
  | cons c run ih => exact ih.trans (by rw [lo_modify]; exact fun _ => rfl)

theorem hi_reparent : hi (reparent h new run) = hi h := by
  induction run generalizing h with
  | nil => rfl
  | cons c run ih => exact ih.trans (by rw [hi_modify]; exact fun _ => rfl)

theorem busy_reparent : Busy (reparent h new run) = Busy h := by
  induction run generalizing h with
  | nil => rfl
  | cons c run ih => exact ih.trans (by rw [busy_modify]; exact fun _ => rfl)

theorem kids_reparent : kids (reparent h new run) = kids h := by
  induction run generalizing h with
  | nil => rfl
  | cons c run ih => exact ih.trans (by rw [kids_modify]; exact fun _ => rfl)

theorem live_reparent : Live (reparent h new run) x ↔ Live h x := by
  induction run generalizing h with
  | nil => rfl
  | cons c run ih => exact ih.trans modify_live

theorem parentOf_reparent (hlive : ∀ c ∈ run, Live h c) : parentOf (reparent h new run) =
    fun c => if c ∈ run then some new else parentOf h c := by
  induction run generalizing h with
  | nil => rfl
  | cons d run ih =>
    refine (ih fun c hc => modify_live.mpr (hlive c (mem_cons_of_mem _ hc))).trans ?_
    funext c
    rw [parentOf_modify_parent (hlive d mem_cons_self) (by exact fun _ => rfl)]
    by_cases hrun : c ∈ run
    · rw [if_pos hrun, if_pos (mem_cons_of_mem _ hrun)]
    · rw [if_neg hrun]
      by_cases hcd : c = d
      · rw [hcd, update_self, if_pos mem_cons_self]
      · rw [update_of_ne hcd, if_neg (by simp [hcd, hrun])]

/-- How the children of `parent` are split for a resource that covers some of them. -/
structure Gap (h : Heap) (parent new : ℕ) (pre run rest : List ℕ) : Prop where
  split : kids h parent = pre ++ (run ++ rest)
  before : ∀ y ∈ pre, hi h y < lo h new
  covers : ∀ y ∈ run, lo h new ≤ lo h y ∧ hi h y ≤ hi h new
  behind : ∀ y ∈ rest, hi h new < lo h y
  inside : Inside h parent new

theorem lo_linkAbove : lo (linkAbove h parent new run children) = lo h := by
  rw [linkAbove, lo_modify, lo_reparent, lo_modify] <;> exact fun _ => rfl

theorem hi_linkAbove : hi (linkAbove h parent new run children) = hi h := by
  rw [linkAbove, hi_modify, hi_reparent, hi_modify] <;> exact fun _ => rfl

theorem busy_linkAbove : Busy (linkAbove h parent new run children) = Busy h := by
  rw [linkAbove, busy_modify, busy_reparent, busy_modify] <;> exact fun _ => rfl

theorem kids_linkAbove (hnew : Live h new) (hparent : Live h parent) :
    kids (linkAbove h parent new run children) =
      update (update (kids h) new run) parent children := by
  rw [linkAbove, kids_modify_children (live_reparent.mpr (modify_live.mpr hparent)), kids_reparent,
    kids_modify_children hnew] <;> exact fun _ => rfl

theorem parentOf_linkAbove (parent : ℕ) (children : List ℕ) (hnew : Live h new)
    (hrun : ∀ c ∈ run, Live h c) :
    parentOf (linkAbove h parent new run children) =
      fun c => if c ∈ run then some new else update (parentOf h) new (some parent) c := by
  rw [linkAbove, parentOf_modify, parentOf_reparent fun c hc => modify_live.mpr (hrun c hc),
    parentOf_modify_parent hnew] <;> exact fun _ => rfl

theorem child_linkAbove (run rest pre : List ℕ) (hnew : Unlinked h new) (hparent : Live h parent)
    (hne : parent ≠ new)
    (p c : ℕ) : Child (linkAbove h parent new run (pre ++ new :: rest)) p c ↔
      p = parent ∧ (c = new ∨ c ∈ pre ++ rest) ∨ p = new ∧ c ∈ run ∨
        p ≠ parent ∧ p ≠ new ∧ Child h p c := by
  rw [Child, kids_linkAbove hnew.1 hparent]
  by_cases hp : p = parent
  · subst hp
    rw [update_self]
    simp only [mem_append, mem_cons, true_and, ne_eq, not_true_eq_false, false_and, or_false, hne]
    tauto
  · rw [update_of_ne hp]
    by_cases hpn : p = new
    · subst hpn
      rw [update_self]
      simp [hp]
    · rw [update_of_ne hpn]
      simp [hp, hpn, Child]

theorem child_linkAbove_cases (hnew : Unlinked h new) (hparent : Live h parent)
    (hne : parent ≠ new) (hgap : Gap h parent new pre run rest) (p c : ℕ)
    (hc : Child (linkAbove h parent new run (pre ++ new :: rest)) p c) :
    Child h p c ∧ p ≠ new ∨ p = parent ∧ c = new ∨ p = new ∧ Child h parent c := by
  rcases (child_linkAbove run rest pre hnew hparent hne p c).mp hc with
    ⟨rfl, rfl | hmem⟩ | ⟨rfl, hrun⟩ | ⟨-, hpn, hpc⟩
  · exact .inr (.inl ⟨rfl, rfl⟩)
  · refine .inl ⟨?_, hne⟩
    rw [Child, hgap.split]
    simp only [mem_append] at hmem ⊢
    tauto
  · refine .inr (.inr ⟨rfl, ?_⟩)
    rw [Child, hgap.split]
    simp only [mem_append]
    exact .inr (.inl hrun)
  · exact .inl ⟨hpc, hpn⟩

theorem Sound.linkAbove (hs : Sound h) (hnew : Unlinked h new) (hparent : Live h parent)
    (hne : parent ≠ new) (hgap : Gap h parent new pre run rest) :
    Sound (linkAbove h parent new run (pre ++ new :: rest)) := by
  have hnot := hs.not_child hnew.2.1
  have hchild (p c : ℕ) := child_linkAbove run rest pre hnew hparent hne p c
  have hrunChild : ∀ c ∈ run, Child h parent c := fun c hc => by
    rw [Child, hgap.split]
    simp [hc]
  have hparents := parentOf_linkAbove parent (pre ++ new :: rest) hnew.1
    fun c hc => hs.live_child (hrunChild c hc)
  have hsorted := hs.sorted parent
  have hnodup := hs.nodup parent
  rw [hgap.split] at hsorted hnodup
  have hnewRun : new ∉ run := fun hmem => hnot parent (hrunChild new hmem)
  constructor
  · intro p c hc
    rw [hparents]
    dsimp only
    rcases (hchild p c).mp hc with ⟨rfl, rfl | hmem⟩ | ⟨rfl, hrun⟩ | ⟨hp, -, hpc⟩
    · rw [if_neg hnewRun, update_self]
    · have hpc : Child h p c := by
        rw [Child, hgap.split]
        simp only [mem_append] at hmem ⊢
        tauto
      have hcrun : c ∉ run := by
        intro hrun
        rw [nodup_append] at hnodup
        obtain ⟨-, hright, hdisj⟩ := hnodup
        rw [nodup_append] at hright
        rcases List.mem_append.mp hmem with hpre | hrest
        · exact hdisj c hpre c (mem_append_left _ hrun) rfl
        · exact hright.2.2 c hrun c hrest rfl
      have hcn : c ≠ new := fun heq => hnot p (heq ▸ hpc)
      rw [if_neg hcrun, update_of_ne hcn]
      exact hs.parent p c hpc
    · rw [if_pos hrun]
    · have hcn : c ≠ new := fun heq => hnot p (heq ▸ hpc)
      have hcrun : c ∉ run := fun hrun => hp (hs.parent_unique hpc (hrunChild c hrun))
      rw [if_neg hcrun, update_of_ne hcn]
      exact hs.parent p c hpc
  · intro p c hc
    rw [hparents] at hc
    dsimp only at hc
    rw [hchild]
    by_cases hrun : c ∈ run
    · rw [if_pos hrun] at hc
      exact .inr (.inl ⟨(Option.some_inj.mp hc).symm, hrun⟩)
    · rw [if_neg hrun] at hc
      by_cases hcn : c = new
      · rw [hcn, update_self] at hc
        exact .inl ⟨(Option.some_inj.mp hc).symm, .inl hcn⟩
      · rw [update_of_ne hcn] at hc
        have hpc := hs.child p c hc
        by_cases hp : p = parent
        · subst hp
          rw [Child, hgap.split] at hpc
          simp only [mem_append] at hpc ⊢
          exact .inl ⟨trivial, by tauto⟩
        · have hpn : p ≠ new := by
            rintro rfl
            rw [Child, hnew.2.2] at hpc
            cases hpc
          exact .inr (.inr ⟨hp, hpn, hpc⟩)
  · intro p c hc
    rw [Inside, lo_linkAbove, hi_linkAbove]
    rcases (hchild p c).mp hc with ⟨rfl, rfl | hmem⟩ | ⟨rfl, hrun⟩ | ⟨-, -, hpc⟩
    · exact hgap.inside
    · apply hs.inside p c
      rw [Child, hgap.split]
      simp only [mem_append] at hmem ⊢
      tauto
    · have hcovers := hgap.covers c hrun
      exact ⟨hcovers.1, (hs.inside parent c (hrunChild c hrun)).2.1, hcovers.2⟩
    · exact hs.inside p c hpc
  · intro p
    rw [kids_linkAbove hnew.1 hparent, lo_linkAbove, hi_linkAbove]
    rw [pairwise_append, pairwise_append] at hsorted
    obtain ⟨hpre, ⟨hrun, hrest, -⟩, hacross⟩ := hsorted
    by_cases hp : p = parent
    · rw [hp, update_self, pairwise_append]
      refine ⟨hpre, List.pairwise_cons.mpr ⟨hgap.behind, hrest⟩, ?_⟩
      intro a ha b hb
      rcases List.mem_cons.mp hb with rfl | hb
      · exact hgap.before a ha
      · exact hacross a ha b (mem_append_right _ hb)
    · rw [update_of_ne hp]
      by_cases hpn : p = new
      · rw [hpn, update_self]
        exact hrun
      · rw [update_of_ne hpn]
        exact hs.sorted p
  · exact hs.ranked.between (child_linkAbove_cases hnew hparent hne hgap) hnot hne

end Above

section Search

theorem covered_spec {s e : ℕ} {l : List ℕ} (hl : l ≠ []) (hlive : ∀ c ∈ l, Live h c)
    (hrange : ∀ c ∈ l, lo h c ≤ hi h c) (hsorted : l.Pairwise fun a b => hi h a < lo h b) :
    (∃ run rest, l = run ++ rest ∧ covered h s e l = some (.ok (run, rest)) ∧
      (∀ y ∈ run, s ≤ lo h y ∧ hi h y ≤ e) ∧ ∀ y ∈ rest, e < lo h y) ∨
    ∃ c ∈ l, covered h s e l = some (.error c) := by
  induction l with
  | nil => exact absurd rfl hl
  | cons next rest ih =>
    obtain ⟨x, hx⟩ := hlive next mem_cons_self
    simp only [covered, hx, bind_eq_bind, bind_some]
    by_cases hpart : x.start < s ∨ x.stop > e
    · exact .inr ⟨next, mem_cons_self, by rw [if_pos hpart]⟩
    · rw [if_neg hpart]
      have hnext : s ≤ lo h next ∧ hi h next ≤ e := by
        rw [lo_eq hx, hi_eq hx]
        omega
      have hrun {run : List ℕ} (hr : ∀ y ∈ run, s ≤ lo h y ∧ hi h y ≤ e) :
          ∀ y ∈ next :: run, s ≤ lo h y ∧ hi h y ≤ e := by
        intro y hy
        rcases List.mem_cons.mp hy with rfl | hy
        · exact hnext
        · exact hr y hy
      cases rest with
      | nil =>
        exact .inl ⟨[next], [], rfl, rfl, hrun fun _ hy => (by cases hy), fun _ hy => (by cases hy)⟩
      | cons sibling rest =>
        obtain ⟨y, hy⟩ := hlive sibling (by simp)
        have hrest := (List.pairwise_cons.mp hsorted).2
        simp only [hy, bind_some]
        by_cases hgt : y.start > e
        · refine .inl ⟨[next], sibling :: rest, rfl, by rw [if_pos hgt],
            hrun fun _ hy => (by cases hy), fun z hz => ?_⟩
          have hsib := hrange sibling (by simp)
          rw [lo_eq hy] at hsib
          rcases List.mem_cons.mp hz with rfl | hz
          · rw [lo_eq hy]; exact hgt
          · have := (List.pairwise_cons.mp hrest).1 z hz
            omega
        · rw [if_neg hgt]
          rcases ih (by simp) (fun c hc => hlive c (mem_cons_of_mem _ hc))
            (fun c hc => hrange c (mem_cons_of_mem _ hc)) hrest with
            ⟨run, rest', hsplit, hcov, hr, hq⟩ | ⟨c, hc, hcov⟩
          · refine .inl ⟨next :: run, rest', by rw [hsplit]; rfl, ?_, hrun hr, hq⟩
            rw [hcov]
            rfl
          · exact .inr ⟨c, mem_cons_of_mem _ hc, by rw [hcov]; rfl⟩

theorem takeWhile_ne (hx : x ∉ pre) : (pre ++ x :: post).takeWhile (· ≠ x) = pre := by
  rw [takeWhile_append_of_pos (by simpa using fun y hy => ne_of_mem_of_not_mem hy hx)]
  simp

theorem dropWhile_ne (hx : x ∉ pre) : (pre ++ x :: post).dropWhile (· ≠ x) = x :: post := by
  rw [dropWhile_append_of_pos (by simpa using fun y hy => ne_of_mem_of_not_mem hy hx)]
  simp

/-- What the insertion of a resource can do to the trees. -/
inductive Inserted (h : Heap) (root new : ℕ) : Heap → Prop
  | link {p : ℕ} {pre post : List ℕ} : Below h root p → Live h p → p ≠ new →
      Spot h p new pre post → Inserted h root new (link h p new (pre ++ new :: post))
  | above {p : ℕ} {pre run rest : List ℕ} : Below h root p → Live h p → p ≠ new →
      Gap h p new pre run rest → Inserted h root new (linkAbove h p new run (pre ++ new :: rest))

theorem insertAbove_spec (hs : Sound h) (hnew : Live h new) (hparent : Live h parent)
    (hsplit : kids h parent = pre ++ first :: post) (hpre : ∀ y ∈ pre, hi h y < lo h new)
    (hmeets : Meets h first new) (hinside : Inside h parent new) :
    (∃ c, insertAbove h parent first new = some (h, some c)) ∨
    ∃ pre run rest, Gap h parent new pre run rest ∧ insertAbove h parent first new =
      some (linkAbove h parent new run (pre ++ new :: rest), none) := by
  obtain ⟨p, hp⟩ := hparent
  obtain ⟨n, hn⟩ := hnew
  have hkids := kids_eq hp
  have hnot : first ∉ pre := fun hmem => by
    have := hpre first hmem
    have := hmeets.2
    omega
  have hchild : ∀ c ∈ first :: post, Child h parent c := fun c hc => by
    rw [Child, hsplit]
    exact mem_append_right _ hc
  have hsorted := hs.sorted parent
  rw [hsplit, pairwise_append] at hsorted
  simp only [insertAbove, hp, hn, bind_eq_bind, bind_some]
  rw [← hkids, hsplit, takeWhile_ne hnot, dropWhile_ne hnot]
  rcases covered_spec (s := n.start) (e := n.stop) (cons_ne_nil first post)
    (fun c hc => hs.live_child (hchild c hc)) (fun c hc => (hs.inside parent c (hchild c hc)).2.1)
    hsorted.2.1 with ⟨run, rest, hrun, hcov, hin, hbehind⟩ | ⟨c, -, hcov⟩
  · rw [hcov]
    refine .inr ⟨pre, run, rest, ⟨hsplit.trans (by rw [hrun]), hpre, ?_, ?_, hinside⟩, rfl⟩
    · rwa [lo_eq hn, hi_eq hn]
    · rwa [hi_eq hn]
  · rw [hcov]
    exact .inl ⟨c, rfl⟩

/-- `__insert_resource` fails and changes nothing, or inserts the resource. -/
theorem insertResource_spec (hs : Sound h) (hnew : Unlinked h new) {rank : ℕ → ℕ}
    (hrank : ∀ a b, Child h a b → rank b < rank a) {fuel : ℕ} (hparent : Live h parent)
    (hne : parent ≠ new) (hfuel : rank parent < fuel) :
    (∃ c, insertResource h new fuel parent = some (h, some c)) ∨
    ∃ h', insertResource h new fuel parent = some (h', none) ∧ Inserted h parent new h' := by
  induction fuel generalizing parent with
  | zero => exact absurd hfuel (Nat.not_lt_zero _)
  | succ fuel ih =>
    rcases requestResource_spec hs hparent hnew.1 with
      ⟨hreq, -⟩ | ⟨pre, c, post, hreq, hsplit, hpre, hmeets, hinside⟩ | ⟨pre, post, hreq, hspot⟩
    · simp only [insertResource, hreq, bind_eq_bind, bind_some, if_true]
      exact .inl ⟨parent, rfl⟩
    · have hchild : Child h parent c := by
        rw [Child, hsplit]
        simp
      have hcp : c ≠ parent := fun heq => absurd (hrank parent c hchild) (by rw [heq]; omega)
      obtain ⟨f, hf⟩ := hs.live_child hchild
      obtain ⟨n, hn⟩ := hnew.1
      simp only [insertResource, hreq, bind_eq_bind, bind_some, if_neg hcp, hf, hn]
      by_cases hbreak : f.start > n.start ∨ f.stop < n.stop ∨ f.start = n.start ∧ f.stop = n.stop
      · rw [if_pos hbreak]
        rcases insertAbove_spec hs hnew.1 hparent hsplit hpre hmeets hinside with
          ⟨d, hd⟩ | ⟨pre, run, rest, hgap, hd⟩
        · exact .inl ⟨d, hd⟩
        · exact .inr ⟨_, hd, .above .refl hparent hne hgap⟩
      · rw [if_neg hbreak]
        have hcn : c ≠ new := fun heq => hs.not_child hnew.2.1 parent (heq ▸ hchild)
        have hlt := hrank parent c hchild
        rcases ih ⟨f, hf⟩ hcn (by omega) with ⟨d, hd⟩ | ⟨h', hd, hins⟩
        · exact .inl ⟨d, hd⟩
        · refine .inr ⟨h', hd, ?_⟩
          cases hins with
          | link hbelow hlive hp hspot => exact .link (.head hchild hbelow) hlive hp hspot
          | above hbelow hlive hp hgap => exact .above (.head hchild hbelow) hlive hp hgap
    · simp only [insertResource, hreq, bind_eq_bind, bind_some]
      exact .inr ⟨_, rfl, .link .refl hparent hne hspot⟩

theorem Inserted.sound (hs : Sound h) (hnew : Unlinked h new) {root : ℕ}
    (hins : Inserted h root new h') : Sound h' := by
  cases hins with
  | link _ hlive hne hspot => exact hs.link hlive hnew hne hspot
  | above _ hlive hne hgap => exact hs.linkAbove hnew hlive hne hgap

end Search

section Adjust

variable {start stop size : ℕ} {l : List ℕ}

theorem le_rangeEnd (hsize : 1 ≤ size) (hwrap : start + size ≤ 2 ^ 32) :
    start ≤ rangeEnd start size := by
  have heq : start + size + (2 ^ 32 - 1) = start + size - 1 + 2 ^ 32 := by omega
  rw [rangeEnd, heq, Nat.add_mod_right, Nat.mod_eq_of_lt (by omega)]
  omega

theorem allInside_spec (start stop : ℕ) (hlive : ∀ c ∈ l, Live h c) :
    ∃ b, allInside h start stop l = some b ∧
      (b = true → ∀ c ∈ l, start ≤ lo h c ∧ hi h c ≤ stop) := by
  induction l with
  | nil => exact ⟨true, rfl, fun _ _ hc => (by cases hc)⟩
  | cons tmp rest ih =>
    obtain ⟨t, ht⟩ := hlive tmp mem_cons_self
    simp only [allInside, ht, bind_eq_bind, bind_some]
    by_cases hout : t.start < start ∨ t.stop > stop
    · exact ⟨false, by rw [if_pos hout], fun heq => (by cases heq)⟩
    · obtain ⟨b, hb, hin⟩ := ih fun c hc => hlive c (mem_cons_of_mem _ hc)
      refine ⟨b, by rw [if_neg hout, hb], fun heq c hc => ?_⟩
      rcases List.mem_cons.mp hc with rfl | hc
      · rw [lo_eq ht, hi_eq ht]
        omega
      · exact hin heq c hc

/-- The resource with another range. -/
def setRange (h : Heap) (res start stop : ℕ) : Heap :=
  modify h res fun r => { r with start := start, stop := stop }

theorem lo_setRange (hres : Live h res) :
    lo (setRange h res start stop) = update (lo h) res start :=
  modify_set (fun o => (o.map Resource.start).getD 0) hres fun _ => rfl

theorem hi_setRange (hres : Live h res) : hi (setRange h res start stop) = update (hi h) res stop :=
  modify_set (fun o => (o.map Resource.stop).getD 0) hres fun _ => rfl

theorem kids_setRange : kids (setRange h res start stop) = kids h :=
  kids_modify (by exact fun _ => rfl)

theorem parentOf_setRange : parentOf (setRange h res start stop) = parentOf h :=
  parentOf_modify (by exact fun _ => rfl)

theorem busy_setRange : Busy (setRange h res start stop) = Busy h :=
  busy_modify (by exact fun _ => rfl)

theorem child_setRange : Child (setRange h res start stop) = Child h := by
  funext p c
  rw [Child, kids_setRange, Child]

theorem Sound.setRange (hs : Sound h) (hsplit : kids h parent = pre ++ res :: post)
    (hle : start ≤ stop) (hparent : lo h parent ≤ start ∧ stop ≤ hi h parent)
    (hkids : ∀ c, Child h res c → start ≤ lo h c ∧ hi h c ≤ stop)
    (hpre : ∀ y ∈ pre, hi h y < start) (hpost : ∀ y ∈ post, stop < lo h y) :
    Sound (setRange h res start stop) := by
  have hchild : Child h parent res := by
    rw [Child, hsplit]
    simp
  have hlive := hs.live_child hchild
  obtain ⟨rank, hrank⟩ := hs.ranked
  have hirrefl (p : ℕ) : ¬ Child h p p := fun hpp => Nat.lt_irrefl _ (hrank p p hpp)
  constructor
  · rw [child_setRange, parentOf_setRange]
    exact hs.parent
  · rw [child_setRange, parentOf_setRange]
    exact hs.child
  · intro p c hc
    rw [child_setRange] at hc
    rw [Inside, lo_setRange hlive, hi_setRange hlive]
    by_cases hcr : c = res
    · subst hcr
      obtain rfl := hs.parent_unique hc hchild
      have hpc : p ≠ c := fun heq => hirrefl c (heq ▸ hc)
      rw [update_self, update_self, update_of_ne hpc, update_of_ne hpc]
      exact ⟨hparent.1, hle, hparent.2⟩
    · rw [update_of_ne hcr, update_of_ne hcr]
      have hin := hs.inside p c hc
      by_cases hpr : p = res
      · subst hpr
        rw [update_self, update_self]
        exact ⟨(hkids c hc).1, hin.2.1, (hkids c hc).2⟩
      · rw [update_of_ne hpr, update_of_ne hpr]
        exact hin
  · intro p
    rw [kids_setRange, lo_setRange hlive, hi_setRange hlive]
    have hsorted := hs.sorted p
    by_cases hp : p = parent
    · subst hp
      have hnodup := hs.nodup p
      rw [hsplit] at hsorted hnodup ⊢
      rw [pairwise_append, pairwise_cons] at hsorted ⊢
      rw [nodup_append, nodup_cons] at hnodup
      obtain ⟨hspre, ⟨-, hspost⟩, hacross⟩ := hsorted
      have hnpre {y : ℕ} (hy : y ∈ pre) : y ≠ res := hnodup.2.2 y hy res mem_cons_self
      have hnpost {y : ℕ} (hy : y ∈ post) : y ≠ res := fun heq => hnodup.2.1.1 (heq ▸ hy)
      refine ⟨hspre.imp_of_mem fun ha hb hlt => ?_, ⟨fun y hy => ?_,
        hspost.imp_of_mem fun ha hb hlt => ?_⟩, fun a ha b hb => ?_⟩
      · rw [update_of_ne (hnpre ha), update_of_ne (hnpre hb)]
        exact hlt
      · rw [update_self, update_of_ne (hnpost hy)]
        exact hpost y hy
      · rw [update_of_ne (hnpost ha), update_of_ne (hnpost hb)]
        exact hlt
      · rw [update_of_ne (hnpre ha)]
        rcases List.mem_cons.mp hb with rfl | hb'
        · rw [update_self]
          exact hpre a ha
        · rw [update_of_ne (hnpost hb')]
          exact hacross a ha b hb
    · have hne {y : ℕ} (hy : y ∈ kids h p) : y ≠ res := by
        rintro rfl
        exact hp (hs.parent_unique hy hchild)
      refine hsorted.imp_of_mem fun ha hb hlt => ?_
      rw [update_of_ne (hne ha), update_of_ne (hne hb)]
      exact hlt
  · rw [child_setRange]
    exact hs.ranked

section

variable (hrange : ∀ c ∈ l, lo h c ≤ hi h c) (hsorted : l.Pairwise fun a b => hi h a < lo h b)
include hrange hsorted

theorem lt_of_getLast (hlast : ∀ t, l.getLast? = some t → hi h t < start) :
    ∀ y ∈ l, hi h y < start := by
  rcases eq_nil_or_concat l with rfl | ⟨l', t, rfl⟩
  · exact fun y hy => (by cases hy)
  · intro y hy
    have ht := hlast t (by simp)
    rw [concat_eq_append] at hy hsorted
    rcases List.mem_append.mp hy with hy | hy
    · have hlt := (List.pairwise_append.mp hsorted).2.2 y hy t (by simp)
      have := hrange t (by simp)
      omega
    · rw [List.mem_singleton.mp hy]
      exact ht

theorem lt_of_head (hhead : ∀ t, l.head? = some t → stop < lo h t) : ∀ y ∈ l, stop < lo h y := by
  cases l with
  | nil => exact fun y hy => (by cases hy)
  | cons t l =>
    intro y hy
    have ht := hhead t rfl
    rcases List.mem_cons.mp hy with rfl | hy
    · exact ht
    · have hlt := (List.pairwise_cons.mp hsorted).1 y hy
      have := hrange t mem_cons_self
      omega

end

theorem neighbour_spec (test : Resource → Bool) {o : Option ℕ}
    (hlive : ∀ t, o = some t → Live h t) :
    ∃ b, neighbour h o test = some b ∧
      (b = true → ∀ t r, o = some t → h t = some r → test r = true) := by
  cases o with
  | none => exact ⟨true, rfl, fun _ t r ht => (by cases ht)⟩
  | some t =>
    obtain ⟨r, hr⟩ := hlive t rfl
    refine ⟨test r, by rw [neighbour, hr]; rfl, fun hb t' r' ht hr' => ?_⟩
    obtain rfl := Option.some_inj.mp ht
    rw [hr] at hr'
    rw [← Option.some_inj.mp hr']
    exact hb

/-- `adjust_resource` fails and changes nothing, or sets a range that keeps the invariant. -/
theorem adjustResource_spec (hs : Sound h) (hchild : Child h parent res) (hsize : 1 ≤ size)
    (hwrap : start + size ≤ 2 ^ 32) :
    adjustResource h res start size = some (h, false) ∨
    (adjustResource h res start size = some (setRange h res start (rangeEnd start size), true) ∧
      Sound (setRange h res start (rangeEnd start size))) := by
  obtain ⟨r, hr⟩ := hs.live_child hchild
  obtain ⟨p, hp⟩ := live_of_child hchild
  have hparent := hs.parent parent res hchild
  rw [parentOf_eq hr] at hparent
  simp only [adjustResource, hr, hparent, hp, bind_eq_bind, bind_some]
  by_cases hout : start < p.start ∨ rangeEnd start size > p.stop
  · rw [if_pos hout]
    exact .inl rfl
  · rw [if_neg hout]
    have hkids : ∀ c ∈ r.children, Child h res c := fun c hc => by rwa [Child, kids_eq hr]
    obtain ⟨inside, hinside, hin⟩ := allInside_spec start (rangeEnd start size)
      fun c hc => hs.live_child (hkids c hc)
    rw [hinside, bind_some]
    cases inside with
    | false => exact .inl rfl
    | true =>
      have hmem : res ∈ p.children := by rwa [Child, kids_eq hp] at hchild
      obtain ⟨pre, post, hsplit⟩ := append_of_mem hmem
      have hkidsEq : kids h parent = pre ++ res :: post := (kids_eq hp).trans hsplit
      have hnodup := hs.nodup parent
      have hsorted := hs.sorted parent
      rw [hkidsEq] at hnodup hsorted
      rw [nodup_append] at hnodup
      rw [pairwise_append, pairwise_cons] at hsorted
      have hnot : res ∉ pre := fun hmem' => hnodup.2.2 res hmem' res mem_cons_self rfl
      have hside {c : ℕ} (hc : c ∈ pre ++ res :: post) : Child h parent c := by rwa [Child, hkidsEq]
      simp only [Bool.not_true, Bool.false_eq_true, if_false, if_pos hmem]
      rw [hsplit, takeWhile_ne hnot, dropWhile_ne hnot, tail_cons]
      have hnext (t : ℕ) (ht : post.head? = some t) : Child h parent t := by
        have := List.mem_of_mem_head? (Option.mem_def.mpr ht)
        exact hside (by simp [this])
      have hprev (t : ℕ) (ht : pre.getLast? = some t) : Child h parent t := by
        have := List.mem_of_getLast? ht
        exact hside (by simp [this])
      obtain ⟨behind, hbehind, hpost⟩ :=
        neighbour_spec (fun s => decide (s.start > rangeEnd start size))
          fun t ht => hs.live_child (hnext t ht)
      obtain ⟨before, hbefore, hpre⟩ :=
        neighbour_spec (fun t => decide (start > t.stop)) fun t ht => hs.live_child (hprev t ht)
      rw [hbehind, bind_some, hbefore, bind_some]
      by_cases hboth : (behind && before) = true
      · rw [if_pos hboth]
        rw [Bool.and_eq_true] at hboth
        refine .inr ⟨rfl, hs.setRange hkidsEq (le_rangeEnd hsize hwrap) ?_ ?_ ?_ ?_⟩
        · rw [lo_eq hp, hi_eq hp]
          omega
        · intro c hc
          rw [Child, kids_eq hr] at hc
          exact hin rfl c hc
        · refine lt_of_getLast (fun c hc => (hs.inside parent c (hside (by simp [hc]))).2.1)
            hsorted.1 fun t ht => ?_
          obtain ⟨rt, hrt⟩ := hs.live_child (hprev t ht)
          rw [hi_eq hrt]
          exact of_decide_eq_true (hpre hboth.2 t rt ht hrt)
        · refine lt_of_head (fun c hc => (hs.inside parent c (hside (by simp [hc]))).2.1)
            hsorted.2.1.2 fun t ht => ?_
          obtain ⟨rt, hrt⟩ := hs.live_child (hnext t ht)
          rw [lo_eq hrt]
          exact of_decide_eq_true (hpost hboth.1 t rt ht hrt)
      · rw [if_neg hboth]
        exact .inl rfl

end Adjust

end AndroidKernel.IoResource
