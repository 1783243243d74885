import AndroidKernel.IoResource.Basic
import AndroidKernel.Lib.Forest
import Mathlib.Data.List.Pairwise

/-!
# The invariant of the tree of resources

The ranges, the parents, the children and the flags of the resources are functions of their numbers.
A call changes some of them at few places. `Sound` says that the children of a resource are inside
of it, sorted and disjoint, that the links up and down agree, and that there are no cycles.
-/

namespace AndroidKernel.IoResource

open Relation (ReflTransGen)
open Function List

variable {h h' : Heap} {root new parent old res id x c : ℕ} {run rest pre post children : List ℕ}

section Views

variable (h : Heap) (id : ℕ)

/-- The start of a resource. -/
def lo : ℕ := ((h id).map Resource.start).getD 0

/-- The end of a resource. -/
def hi : ℕ := ((h id).map Resource.stop).getD 0

/-- The children of a resource. -/
def kids : List ℕ := ((h id).map Resource.children).getD []

/-- The parent of a resource. -/
def parentOf : Option ℕ := (h id).bind Resource.parent

/-- The resource is marked busy. -/
def Busy : Prop := ∃ r, h id = some r ∧ r.flags &&& ioresourceBusy ≠ 0

/-- The resource is in memory. -/
def Live : Prop := ∃ r, h id = some r

/-- The resource is not part of a tree. -/
def Unlinked : Prop := Live h id ∧ parentOf h id = none ∧ kids h id = []

/-- `c` is a child of `p`. -/
def Child (p c : ℕ) : Prop := c ∈ kids h p

/-- `b` is `a`, or below it. -/
def Below : ℕ → ℕ → Prop := ReflTransGen (Child h)

/-- The ranges of two resources have a number in common. -/
def Meets (a b : ℕ) : Prop := lo h a ≤ hi h b ∧ lo h b ≤ hi h a

/-- The range of `b` is one inside of that of `a`. -/
def Inside (a b : ℕ) : Prop := lo h a ≤ lo h b ∧ lo h b ≤ hi h b ∧ hi h b ≤ hi h a

instance (p c : ℕ) : Decidable (Child h p c) := inferInstanceAs (Decidable (c ∈ kids h p))

instance (a b : ℕ) : Decidable (Meets h a b) :=
  inferInstanceAs (Decidable (lo h a ≤ hi h b ∧ lo h b ≤ hi h a))

end Views

section Changes

variable {f : Resource → Resource}

theorem modify_same {α : Type} (view : Option Resource → α)
    (hview : ∀ r, view (some (f r)) = view (some r)) : view (modify h id f x) = view (h x) := by
  unfold modify
  by_cases hx : x = id
  · subst hx
    rw [update_self]
    cases h x with
    | none => rfl
    | some r => exact hview r
  · rw [update_of_ne hx]

theorem modify_set {α : Type} (view : Option Resource → α) {a : α} (hlive : Live h id)
    (hview : ∀ r, view (some (f r)) = a) :
    (fun x => view (modify h id f x)) = update (fun x => view (h x)) id a := by
  obtain ⟨r, hr⟩ := hlive
  funext x
  unfold modify
  by_cases hx : x = id
  · subst hx
    rw [update_self, update_self, hr]
    exact hview r
  · rw [update_of_ne hx, update_of_ne hx]

theorem modify_live : Live (modify h id f) x ↔ Live h x :=
  iff_of_eq (modify_same (fun o => ∃ r, o = some r) (by simp))

theorem lo_modify (hf : ∀ r, (f r).start = r.start) : lo (modify h id f) = lo h :=
  funext fun _ => modify_same (fun o => (o.map Resource.start).getD 0) hf

theorem hi_modify (hf : ∀ r, (f r).stop = r.stop) : hi (modify h id f) = hi h :=
  funext fun _ => modify_same (fun o => (o.map Resource.stop).getD 0) hf

theorem busy_modify (hf : ∀ r, (f r).flags = r.flags) : Busy (modify h id f) = Busy h :=
  funext fun _ => modify_same (fun o => ∃ r, o = some r ∧ r.flags &&& ioresourceBusy ≠ 0)
    (by simp [hf])

theorem kids_modify (hf : ∀ r, (f r).children = r.children) : kids (modify h id f) = kids h :=
  funext fun _ => modify_same (fun o => (o.map Resource.children).getD []) hf

theorem parentOf_modify (hf : ∀ r, (f r).parent = r.parent) :
    parentOf (modify h id f) = parentOf h :=
  funext fun _ => modify_same (fun o => o.bind Resource.parent) hf

theorem kids_modify_children (hlive : Live h id) (hf : ∀ r, (f r).children = children) :
    kids (modify h id f) = update (kids h) id children :=
  modify_set (fun o => (o.map Resource.children).getD []) hlive hf

theorem parentOf_modify_parent {p : Option ℕ} (hlive : Live h id) (hf : ∀ r, (f r).parent = p) :
    parentOf (modify h id f) = update (parentOf h) id p :=
  modify_set (fun o => o.bind Resource.parent) hlive hf

end Changes

/-- The invariant of the trees. -/
structure Sound (h : Heap) : Prop where
  parent : ∀ p c, Child h p c → parentOf h c = some p
  child : ∀ p c, parentOf h c = some p → Child h p c
  inside : ∀ p c, Child h p c → Inside h p c
  sorted : ∀ p, (kids h p).Pairwise fun a b => hi h a < lo h b
  ranked : Forest.Ranked (Child h)

section Facts

variable {p : ℕ} {r : Resource}

theorem live_of_parentOf (h' : parentOf h id = some p) : Live h id := by
  unfold parentOf at h'
  cases hid : h id with
  | none => rw [hid] at h'; cases h'
  | some r => exact ⟨r, hid⟩

theorem live_of_child (hc : Child h p c) : Live h p := by
  unfold Child kids at hc
  cases hp : h p with
  | none => rw [hp] at hc; cases hc
  | some r => exact ⟨r, hp⟩

section

variable (hr : h id = some r)
include hr

theorem lo_eq : lo h id = r.start := by rw [lo, hr]; rfl
theorem hi_eq : hi h id = r.stop := by rw [hi, hr]; rfl
theorem kids_eq : kids h id = r.children := by rw [kids, hr]; rfl

theorem parentOf_eq : parentOf h id = r.parent := by rw [parentOf, hr]; rfl

theorem busy_iff : Busy h id ↔ r.flags &&& ioresourceBusy ≠ 0 := by simp [Busy, hr]

end

section

variable (hs : Sound h)
include hs

theorem Sound.live_child (hc : Child h p c) : Live h c := live_of_parentOf (hs.parent p c hc)

theorem Sound.parent_unique {q : ℕ} (hp : Child h p c) (hq : Child h q c) : p = q :=
  Option.some_inj.mp ((hs.parent p c hp).symm.trans (hs.parent q c hq))

theorem Sound.nodup (p : ℕ) : (kids h p).Nodup := by
  refine ((List.pairwise_iff_forall_sublist.mpr ?_ : (kids h p).Pairwise (· ≠ ·)))
  intro a b hab heq
  have hlt := List.pairwise_iff_forall_sublist.mp (hs.sorted p) hab
  have hin := hs.inside p b (hab.subset (by simp))
  subst heq
  exact absurd hlt (Nat.not_lt.mpr hin.2.1)

theorem Sound.not_child (hid : parentOf h id = none) (p : ℕ) : ¬ Child h p id := by
  intro hc
  rw [hs.parent p id hc] at hid
  cases hid

theorem Sound.comparable {o a b : ℕ} (ha : Below h o a) (hb : Below h o b) (hmeets : Meets h a b) :
    Below h a b ∨ Below h b a := by
  refine Forest.comparable (Meets h) (fun _ _ hm => ⟨hm.2, hm.1⟩) ?_ ?_ ha hb hmeets
  · intro a b c hab hm
    have hin := hs.inside a b hab
    exact ⟨hin.1.trans hm.1, hm.2.trans hin.2.2⟩
  · intro p a b hpa hpb hm
    by_contra hne
    have : Std.Symm fun a b => hi h a < lo h b ∨ hi h b < lo h a := ⟨fun _ _ hlt => hlt.symm⟩
    have hapart := ((hs.sorted p).imp fun hlt => Or.inl hlt :
      (kids h p).Pairwise fun a b => hi h a < lo h b ∨ hi h b < lo h a).forall hpa hpb hne
    have := hm.1
    have := hm.2
    omega

end

end Facts

section Linking

/-- Where the children of `root` are split for a new child. -/
structure Spot (h : Heap) (root new : ℕ) (pre post : List ℕ) : Prop where
  split : kids h root = pre ++ post
  before : ∀ y ∈ pre, hi h y < lo h new
  behind : ∀ y ∈ post, hi h new < lo h y
  inside : Inside h root new

theorem place_spec (new : ℕ) {s e : ℕ} {l : List ℕ} (hlive : ∀ c ∈ l, Live h c)
    (hrange : ∀ c ∈ l, lo h c ≤ hi h c) (hsorted : l.Pairwise fun a b => hi h a < lo h b) :
    (∃ pre post, l = pre ++ post ∧ place h s e new l = some (.ok (pre ++ new :: post)) ∧
      (∀ y ∈ pre, hi h y < s) ∧ ∀ y ∈ post, e < lo h y) ∨
    ∃ pre c post, l = pre ++ c :: post ∧ place h s e new l = some (.error c) ∧
      (∀ y ∈ pre, hi h y < s) ∧ lo h c ≤ e ∧ s ≤ hi h c := by
  induction l with
  | nil => exact .inl ⟨[], [], rfl, rfl, fun _ hy => (by cases hy), fun _ hy => (by cases hy)⟩
  | cons tmp rest ih =>
    obtain ⟨t, ht⟩ := hlive tmp mem_cons_self
    obtain ⟨hfirst, hrest⟩ := List.pairwise_cons.mp hsorted
    have htmp := hrange tmp mem_cons_self
    simp only [place, ht, Option.bind_eq_bind, Option.bind_some]
    rw [lo_eq ht, hi_eq ht] at htmp
    by_cases hgt : t.start > e
    · refine .inl ⟨[], tmp :: rest, rfl, by rw [if_pos hgt]; rfl, fun _ hy => (by cases hy), ?_⟩
      intro y hy
      rcases List.mem_cons.mp hy with rfl | hy
      · rw [lo_eq ht]; exact hgt
      · have := hfirst y hy
        rw [hi_eq ht] at this
        omega
    · rw [if_neg hgt]
      by_cases hlt : t.stop < s
      · rw [if_pos hlt]
        have hpre {pre : List ℕ} (hp : ∀ y ∈ pre, hi h y < s) : ∀ y ∈ tmp :: pre, hi h y < s := by
          intro y hy
          rcases List.mem_cons.mp hy with rfl | hy
          · rw [hi_eq ht]; exact hlt
          · exact hp y hy
        rcases ih (fun c hc => hlive c (mem_cons_of_mem _ hc))
          (fun c hc => hrange c (mem_cons_of_mem _ hc)) hrest with
          ⟨pre, post, rfl, hplace, hp, hq⟩ | ⟨pre, c, post, rfl, hplace, hp, hc⟩
        · exact .inl ⟨tmp :: pre, post, rfl, by rw [hplace]; rfl, hpre hp, hq⟩
        · exact .inr ⟨tmp :: pre, c, post, rfl, by rw [hplace]; rfl, hpre hp, hc⟩
      · rw [if_neg hlt]
        refine .inr ⟨[], tmp, rest, rfl, rfl, fun _ hy => (by cases hy), ?_, ?_⟩
        · rw [lo_eq ht]; omega
        · rw [hi_eq ht]; omega

/-- What `__request_resource` does: it refuses a range that is not inside of `root`, it finds a
child in the way, or it links the new resource. -/
theorem requestResource_spec (hs : Sound h) (hroot : Live h root) (hnew : Live h new) :
    (requestResource h root new = some (h, some root) ∧ ¬ Inside h root new) ∨
    (∃ pre c post, requestResource h root new = some (h, some c) ∧ kids h root = pre ++ c :: post ∧
      (∀ y ∈ pre, hi h y < lo h new) ∧ Meets h c new ∧ Inside h root new) ∨
    ∃ pre post, requestResource h root new = some (link h root new (pre ++ new :: post), none) ∧
      Spot h root new pre post := by
  obtain ⟨r, hr⟩ := hroot
  obtain ⟨n, hn⟩ := hnew
  simp only [requestResource, hr, hn, Option.bind_eq_bind, Option.bind_some]
  have hinside : Inside h root new ↔ ¬ (n.stop < n.start ∨ n.start < r.start ∨
      n.stop > r.stop) := by
    rw [Inside, lo_eq hr, lo_eq hn, hi_eq hr, hi_eq hn]
    omega
  by_cases hout : n.stop < n.start ∨ n.start < r.start ∨ n.stop > r.stop
  · rw [if_pos hout]
    exact .inl ⟨rfl, fun hin => hinside.mp hin hout⟩
  · rw [if_neg hout]
    have hin := hinside.mpr hout
    have hkids := kids_eq hr
    have hchild : ∀ c ∈ r.children, Child h root c := fun c hc => by rwa [Child, hkids]
    rcases place_spec new (s := n.start) (e := n.stop)
      (fun c hc => hs.live_child (hchild c hc)) (fun c hc => (hs.inside root c (hchild c hc)).2.1)
      (hkids ▸ hs.sorted root) with
      ⟨pre, post, hsplit, hplace, hpre, hpost⟩ | ⟨pre, c, post, hsplit, hplace, hpre, hlo, hhi⟩
    · rw [hplace]
      refine .inr (.inr ⟨pre, post, rfl, hkids.trans hsplit, ?_, ?_, hin⟩)
      · rwa [lo_eq hn]
      · rwa [hi_eq hn]
    · rw [hplace]
      refine .inr (.inl ⟨pre, c, post, rfl, hkids.trans hsplit, ?_, ⟨?_, ?_⟩, hin⟩)
      · rwa [lo_eq hn]
      · rwa [hi_eq hn]
      · rwa [lo_eq hn]

theorem lo_link : lo (link h root new children) = lo h := by
  rw [link, lo_modify, lo_modify] <;> exact fun _ => rfl

theorem hi_link : hi (link h root new children) = hi h := by
  rw [link, hi_modify, hi_modify] <;> exact fun _ => rfl

theorem busy_link : Busy (link h root new children) = Busy h := by
  rw [link, busy_modify, busy_modify] <;> exact fun _ => rfl

theorem kids_link (hroot : Live h root) :
    kids (link h root new children) = update (kids h) root children := by
  rw [link, kids_modify, kids_modify_children hroot] <;> exact fun _ => rfl

theorem parentOf_link (root : ℕ) (children : List ℕ) (hnew : Live h new) :
    parentOf (link h root new children) = update (parentOf h) new (some root) := by
  rw [link, parentOf_modify_parent (modify_live.mpr hnew), parentOf_modify] <;> exact fun _ => rfl

theorem child_link (hroot : Live h root) (hspot : Spot h root new pre post) (p c : ℕ) :
    Child (link h root new (pre ++ new :: post)) p c ↔ Child h p c ∨ p = root ∧ c = new := by
  rw [Child, kids_link hroot, Child]
  by_cases hp : p = root
  · subst hp
    rw [update_self, hspot.split]
    simp only [mem_append, mem_cons, true_and]
    tauto
  · rw [update_of_ne hp]
    simp [hp]

theorem Sound.link (hs : Sound h) (hroot : Live h root) (hnew : Unlinked h new) (hne : root ≠ new)
    (hspot : Spot h root new pre post) : Sound (link h root new (pre ++ new :: post)) := by
  have hnot := hs.not_child hnew.2.1
  have hchild := child_link hroot hspot
  have hparent := parentOf_link root (pre ++ new :: post) hnew.1
  constructor
  · intro p c hc
    rw [hparent]
    rcases (hchild p c).mp hc with hc | ⟨rfl, rfl⟩
    · have hcn : c ≠ new := fun heq => hnot p (heq ▸ hc)
      rw [update_of_ne hcn]
      exact hs.parent p c hc
    · rw [update_self]
  · intro p c hc
    rw [hchild]
    rw [hparent] at hc
    by_cases hcn : c = new
    · subst hcn
      rw [update_self] at hc
      exact .inr ⟨(Option.some_inj.mp hc).symm, rfl⟩
    · rw [update_of_ne hcn] at hc
      exact .inl (hs.child p c hc)
  · intro p c hc
    rw [Inside, lo_link, hi_link]
    rcases (hchild p c).mp hc with hc | ⟨rfl, rfl⟩
    · exact hs.inside p c hc
    · exact hspot.inside
  · intro p
    rw [kids_link hroot, lo_link, hi_link]
    by_cases hp : p = root
    · subst hp
      have hsorted := hs.sorted p
      rw [hspot.split, pairwise_append] at hsorted
      rw [update_self, pairwise_append]
      refine ⟨hsorted.1, List.pairwise_cons.mpr ⟨hspot.behind, hsorted.2.1⟩, ?_⟩
      intro a ha b hb
      rcases List.mem_cons.mp hb with rfl | hb
      · exact hspot.before a ha
      · exact hsorted.2.2 a ha b hb
    · rw [update_of_ne hp]
      exact hs.sorted p
  · exact hs.ranked.link (fun p c => (hchild p c).mp) (fun c hc => by
      rw [Child, hnew.2.2] at hc
      cases hc) hne

end Linking

section Unlinking

theorem lo_unlink : lo (unlink h parent old) = lo h := by
  rw [unlink, lo_modify, lo_modify] <;> exact fun _ => rfl

theorem hi_unlink : hi (unlink h parent old) = hi h := by
  rw [unlink, hi_modify, hi_modify] <;> exact fun _ => rfl

theorem busy_unlink : Busy (unlink h parent old) = Busy h := by
  rw [unlink, busy_modify, busy_modify] <;> exact fun _ => rfl

theorem kids_unlink (hparent : Live h parent) : kids (unlink h parent old) =
    update (kids h) parent ((kids h parent).erase old) := by
  obtain ⟨r, hr⟩ := hparent
  rw [unlink, kids_modify (by exact fun _ => rfl)]
  funext x
  unfold kids modify
  by_cases hx : x = parent
  · subst hx
    rw [update_self, update_self, hr]
    rfl
  · rw [update_of_ne hx, update_of_ne hx]

theorem parentOf_unlink (parent : ℕ) (hold : Live h old) :
    parentOf (unlink h parent old) = update (parentOf h) old none := by
  rw [unlink, parentOf_modify_parent (modify_live.mpr hold), parentOf_modify] <;> exact fun _ => rfl

theorem child_unlink (hs : Sound h) (hc : Child h parent old) (p c : ℕ) :
    Child (unlink h parent old) p c ↔ Child h p c ∧ c ≠ old := by
  rw [Child, kids_unlink (live_of_child hc), Child]
  by_cases hp : p = parent
  · subst hp
    rw [update_self, (hs.nodup p).mem_erase_iff]
    exact and_comm
  · rw [update_of_ne hp]
    refine (and_iff_left_of_imp fun hpc => ?_).symm
    rintro rfl
    exact hp (hs.parent_unique hpc hc)

theorem Sound.unlink (hs : Sound h) (hc : Child h parent old) : Sound (unlink h parent old) := by
  have hchild := child_unlink hs hc
  have hparent := parentOf_unlink parent (hs.live_child hc)
  constructor
  · intro p c hpc
    obtain ⟨hpc, hne⟩ := (hchild p c).mp hpc
    rw [hparent, update_of_ne hne]
    exact hs.parent p c hpc
  · intro p c hpc
    rw [hparent] at hpc
    by_cases hco : c = old
    · rw [hco, update_self] at hpc
      cases hpc
    · rw [update_of_ne hco] at hpc
      exact (hchild p c).mpr ⟨hs.child p c hpc, hco⟩
  · intro p c hpc
    rw [Inside, lo_unlink, hi_unlink]
    exact hs.inside p c ((hchild p c).mp hpc).1
  · intro p
    rw [kids_unlink (live_of_child hc), lo_unlink, hi_unlink]
    by_cases hp : p = parent
    · subst hp
      rw [update_self]
      exact (hs.sorted p).sublist erase_sublist
    · rw [update_of_ne hp]
      exact hs.sorted p
  · exact hs.ranked.mono fun p c hpc => ((hchild p c).mp hpc).1

end Unlinking

section Setting

variable {v : Option Resource}

/-- The links do not change when a resource that has none is set up anew, or freed. -/
theorem kids_update (hkids : kids h id = []) (hv : ∀ r, v = some r → r.children = []) :
    kids (update h id v) = kids h := by
  funext x
  by_cases hx : x = id
  · subst hx
    rw [hkids, kids, update_self]
    cases v with
    | none => rfl
    | some r => exact hv r rfl
  · rw [kids, update_of_ne hx, kids]

theorem parentOf_update (hparent : parentOf h id = none) (hv : ∀ r, v = some r → r.parent = none) :
    parentOf (update h id v) = parentOf h := by
  funext x
  by_cases hx : x = id
  · subst hx
    rw [hparent, parentOf, update_self]
    cases v with
    | none => rfl
    | some r => exact hv r rfl
  · rw [parentOf, update_of_ne hx, parentOf]

theorem Sound.replace (hs : Sound h) (hparent : parentOf h id = none) (hkids : kids h id = [])
    (hv : ∀ r, v = some r → r.parent = none ∧ r.children = []) : Sound (update h id v) := by
  have hk := kids_update hkids fun r hr => (hv r hr).2
  have hp := parentOf_update hparent fun r hr => (hv r hr).1
  have hchild : Child (update h id v) = Child h := by
    funext p c
    rw [Child, hk, Child]
  have hne {p c : ℕ} (hc : Child h p c) : c ≠ id := by
    rintro rfl
    exact hs.not_child hparent p hc
  have hlo {x : ℕ} (hx : x ≠ id) : lo (update h id v) x = lo h x := by rw [lo, update_of_ne hx, lo]
  have hhi {x : ℕ} (hx : x ≠ id) : hi (update h id v) x = hi h x := by rw [hi, update_of_ne hx, hi]
  constructor
  · rw [hchild, hp]
    exact hs.parent
  · rw [hchild, hp]
    exact hs.child
  · intro p c hc
    rw [hchild] at hc
    have hpne : p ≠ id := by
      rintro rfl
      rw [Child, hkids] at hc
      cases hc
    rw [Inside, hlo hpne, hlo (hne hc), hhi (hne hc), hhi hpne]
    exact hs.inside p c hc
  · intro p
    rw [hk]
    refine (hs.sorted p).imp_of_mem fun {a b} ha hb hlt => ?_
    rw [hhi (hne ha), hlo (hne hb)]
    exact hlt
  · rw [hchild]
    exact hs.ranked

end Setting

end AndroidKernel.IoResource
