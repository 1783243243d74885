import AndroidKernel.Locks.Intervals

/-!
# The walk over the locks of the owner

What holds at each turn of the loop of `__posix_lock_file`, and when it stops: the locks passed lie
below the request, one lock may reach into it from below, and the request painted over what is still
in the list is the original request painted over the original locks.
-/

namespace AndroidKernel.Locks

open List Option

variable {ω : Type} {A S B P Q : List (FileLock ω)} {L : Option (FileLock ω)}
  {R request fl : FileLock ω} {place left : Option ℕ} {added added' : Bool}

/-- The locks `P` that were passed, the lock `L` that reaches into the request from below, and the
locks `Q` still to come, against the original request `R` and locks `S`. -/
structure Parts (R : FileLock ω) (S P : List (FileLock ω)) (L : Option (FileLock ω))
    (Q : List (FileLock ω)) (request : FileLock ω) : Prop where
  tidy : Tidy (P ++ L.toList ++ Q)
  own : ∀ l ∈ P ++ L.toList ++ Q, l.isPosix = true ∧ l.owner = R.owner
  isPosix : request.isPosix = true
  owner : request.owner = R.owner
  type : request.type = R.type
  nonneg : 0 ≤ request.start
  le : request.start ≤ request.stop
  le_max : request.stop ≤ offsetMax
  below : ∀ p ∈ P, Before p request
  reaching : ∀ l ∈ L, l.type ≠ R.type ∧ l.start < request.start ∧ request.start ≤ l.stop ∧
    l.stop ≤ request.stop
  painted : ∀ x t, Painted request (P ++ L.toList ++ Q) x t ↔ Painted R S x t

/-- Where the walk is at the head of its loop. -/
structure Mid (A : List (FileLock ω)) (R : FileLock ω) (S P : List (FileLock ω))
    (L : Option (FileLock ω)) (Q : List (FileLock ω)) (request : FileLock ω)
    (place left : Option ℕ) (added : Bool) : Prop extends Parts R S P L Q request where
  left_eq : left = L.map fun _ => A.length + P.length
  place_eq : ∀ i ∈ place, i = (A ++ (P ++ L.toList)).length
  placed : place ≠ none → added = true ∧ R.type ≠ .unlck
  why_added : added = true → place ≠ none ∨ R.type = .unlck
  touched : L ≠ none ∨ added = true → ∀ q ∈ Q, request.start ≤ q.start
  fresh : added = false → P ++ L.toList ++ Q = S ∧ request = R
  spared : added = false → R.type = .unlck → L = none

/-- What the walk leaves when it stops. -/
structure Exit (A : List (FileLock ω)) (R : FileLock ω) (S B P : List (FileLock ω))
    (L : Option (FileLock ω)) (Q : List (FileLock ω)) (w : Walk ω) : Prop
    extends Parts R S P L Q w.request where
  passed_eq : w.passed = A ++ (P ++ L.toList)
  rest_eq : w.rest = Q ++ B
  place_eq : ∀ i ∈ w.place, i = w.passed.length
  placed : w.place ≠ none → w.added = true ∧ R.type ≠ .unlck
  why_added : w.added = true → w.place ≠ none ∨ R.type = .unlck
  fresh : w.added = false → P ++ L.toList ++ Q = S ∧ w.request = R
  spared : w.added = false → R.type = .unlck → L = none ∧ w.right = false
  not_right : w.right = false → (∀ q ∈ Q, Before w.request q) ∧
    w.left = L.map fun _ => A.length + P.length
  right : w.right = true → ∃ r Q', Q = r :: Q' ∧ r.type ≠ R.type ∧ r.start ≤ w.request.stop ∧
    w.request.stop < r.stop ∧
    ((r.start < w.request.start ∧ L = none ∧ w.left = some w.passed.length ∧ P ++ Q = S ∧
        w.place = none) ∨
      (w.request.start ≤ r.start ∧ w.left = L.map fun _ => A.length + P.length))

namespace Mid

/-- The walk stops before the locks of `Q`, which all lie above the request. -/
theorem exit (h : Mid A R S P L Q request place left added) (hQ : ∀ q ∈ Q, Before request q) :
    Exit A R S B P L Q
      ⟨A ++ (P ++ L.toList), Q ++ B, request, place, left, false, added⟩ where
  toParts := h.toParts
  passed_eq := rfl
  rest_eq := rfl
  place_eq := h.place_eq
  placed := h.placed
  why_added := h.why_added
  fresh := h.fresh
  spared ha hu := ⟨h.spared ha hu, rfl⟩
  not_right _ := ⟨hQ, h.left_eq⟩
  right hr := by cases hr

section

variable (h : Mid A R S P L (fl :: Q) request place left added)
include h

theorem head_proper : Proper fl := h.tidy.proper fl (by simp)

theorem head_before : ∀ q ∈ Q, Before fl q :=
  (pairwise_cons.mp (pairwise_append.mp h.tidy.ordered).2.1).1

theorem before_head : ∀ p ∈ P ++ L.toList, Before p fl :=
  fun p hp => h.tidy.before p hp fl (by simp)

theorem untouched (hlow : fl.start < request.start) : L = none ∧ added = false := by
  have hnot : ¬(L ≠ none ∨ added = true) := fun ht => by
    have := h.touched ht fl (by simp)
    omega
  simpa using hnot

theorem skip (hfl : Before fl request) :
    L = none ∧ Mid A R S (P ++ [fl]) none Q request place left added := by
  have hle := h.head_proper.le
  obtain ⟨rfl, rfl⟩ := h.untouched (by have := hfl.1; omega)
  have hplace : place = none := by
    by_contra hne
    simpa using (h.placed hne).1
  subst hplace
  refine ⟨rfl, ⟨⟨?_, ?_, h.isPosix, h.owner, h.type, h.nonneg, h.le, h.le_max, ?_, by simp, ?_⟩,
    h.left_eq, by simp, by simp, by simp, by simp, ?_, by simp⟩⟩
  · simpa using h.tidy
  · simpa using h.own
  · intro p hp
    rcases mem_append.mp hp with hp | hp
    · exact h.below p hp
    · rwa [mem_singleton.mp hp]
  · simpa using h.painted
  · simpa using h.fresh

/-- The request takes in, or covers, the lock at the head: what is common to the four ways. -/
theorem absorb {c' : FileLock ω} {place' : Option ℕ} (hposix : c'.isPosix = true)
    (howner : c'.owner = R.owner) (htype : c'.type = R.type)
    (hstart : c'.start = min fl.start request.start) (hstop : c'.stop = max fl.stop request.stop)
    (hsame : c'.start < request.start → fl.type = R.type)
    (hpainted : ∀ x t, Painted c' (P ++ L.toList ++ Q) x t ↔
      Painted request (P ++ L.toList ++ fl :: Q) x t)
    (hplace : ∀ i ∈ place', i = (A ++ (P ++ L.toList)).length)
    (hplaced : place' ≠ none → R.type ≠ .unlck) (hwhy : place' ≠ none ∨ R.type = .unlck) :
    Mid A R S P L Q c' place' left true := by
  have hfl := h.head_proper
  have hsub : (P ++ L.toList ++ Q).Sublist (P ++ L.toList ++ fl :: Q) :=
    (sublist_cons_self fl Q).append_left _
  have hle := h.le
  have hnonneg := h.nonneg
  have hmax := h.le_max
  have h₁ := hfl.nonneg
  have h₂ := hfl.le
  have h₃ := hfl.le_max
  refine ⟨⟨h.tidy.sublist hsub, fun l hl => h.own l (hsub.subset hl), hposix, howner, htype,
    by omega, by omega, by omega, ?_, ?_, fun x t => (hpainted x t).trans (h.painted x t)⟩,
    h.left_eq, hplace, fun hne => ⟨rfl, hplaced hne⟩, fun _ => hwhy, ?_, by simp, by simp⟩
  · intro p hp
    have hreq := h.below p hp
    have hhead := h.before_head p (by simp [hp])
    refine ⟨by have := hreq.1; have := hhead.1; omega, fun heq => ?_⟩
    have hreq' := hreq.2 (by rw [heq, htype, h.type])
    by_cases hlow : c'.start < request.start
    · have := hhead.2 (by rw [heq, htype, hsame hlow])
      omega
    · omega
  · intro l hl
    obtain ⟨hne, hlow, hreach, hhigh⟩ := h.reaching l hl
    have hhead := (h.before_head l (by simp [mem_def.mp hl])).1
    have hl' := (h.tidy.proper l (by simp [mem_def.mp hl])).le
    exact ⟨hne, by omega, by omega, by omega⟩
  · intro _ q hq
    have := (h.head_before q hq).1
    omega

/-- A lock inside the request goes, or becomes the request. -/
theorem cover {c' : FileLock ω} {place' : Option ℕ} (hlow : request.start ≤ fl.start)
    (hhigh : fl.stop ≤ request.stop) (hposix : c'.isPosix = true) (howner : c'.owner = R.owner)
    (htype : c'.type = request.type) (hstart : c'.start = request.start)
    (hstop : c'.stop = request.stop) (hplace : ∀ i ∈ place', i = (A ++ (P ++ L.toList)).length)
    (hplaced : place' ≠ none → R.type ≠ .unlck) (hwhy : place' ≠ none ∨ R.type = .unlck) :
    Mid A R S P L Q c' place' left true := by
  refine h.absorb hposix howner (htype.trans h.type) (by omega) (by omega) (by omega)
    (fun x t => ?_) hplace hplaced hwhy
  rw [← painted_covered hlow hhigh]
  simp only [Painted, htype, hstart, hstop]

/-- A lock that reaches into the request from below is passed as `left`. -/
theorem reach (hne : fl.type ≠ R.type) (hlow : fl.start < request.start)
    (hreach : request.start ≤ fl.stop) (hhigh : fl.stop ≤ request.stop)
    (hadded : added' = true ↔ R.type = .unlck) :
    L = none ∧ Mid A R S P (some fl) Q request place (some (A ++ P).length) added' := by
  obtain ⟨rfl, rfl⟩ := h.untouched hlow
  have hplace : place = none := by
    by_contra hplace
    simpa using (h.placed hplace).1
  subst hplace
  refine ⟨rfl, ⟨⟨?_, ?_, h.isPosix, h.owner, h.type, h.nonneg, h.le, h.le_max, h.below, ?_, ?_⟩,
    by simp, by simp, by simp, fun ha => Or.inr (hadded.mp ha), ?_, ?_, ?_⟩⟩
  · simpa using h.tidy
  · simpa using h.own
  · rintro l ⟨⟩
    exact ⟨hne, hlow, hreach, hhigh⟩
  · simpa using h.painted
  · intro _ q hq
    have := (h.head_before q hq).1
    omega
  · intro _
    simpa using h.fresh rfl
  · intro ha hu
    simp [hadded.mpr hu] at ha

theorem exit_right (hne : fl.type ≠ R.type) (hlow : fl.start ≤ request.stop)
    (hhigh : request.stop < fl.stop)
    (hadded : added' = (added || decide (R.type = .unlck))) :
    Exit A R S B P L (fl :: Q)
      ⟨A ++ (P ++ L.toList), fl :: Q ++ B, request, place,
        if fl.start < request.start then some (A ++ (P ++ L.toList)).length else left, true,
        added'⟩ where
  toParts := h.toParts
  passed_eq := rfl
  rest_eq := rfl
  place_eq := h.place_eq
  placed hplace := by
    obtain ⟨ha, hu⟩ := h.placed hplace
    exact ⟨by simp [hadded, ha], hu⟩
  why_added ha := by
    simp only [hadded, Bool.or_eq_true, decide_eq_true_eq] at ha
    exact ha.elim h.why_added Or.inr
  fresh ha := by
    simp only [hadded, Bool.or_eq_false_iff] at ha
    exact h.fresh ha.1
  spared ha hu := by simp [hadded, hu] at ha
  not_right hr := by cases hr
  right _ := by
    refine ⟨fl, Q, rfl, hne, hlow, hhigh, ?_⟩
    by_cases hstart : fl.start < request.start
    · obtain ⟨rfl, rfl⟩ := h.untouched hstart
      refine Or.inl ⟨hstart, rfl, by simp [hstart], by simpa using (h.fresh rfl).1, ?_⟩
      by_contra hplace
      simpa using (h.placed hplace).1
    · exact Or.inr ⟨by simpa using hstart, by simpa [hstart] using h.left_eq⟩

/-- The walk stops before a lock above the request. -/
theorem exit_before (hfl : Before request fl) :
    Exit A R S B P L (fl :: Q)
      ⟨A ++ (P ++ L.toList), fl :: Q ++ B, request, place, left, false, added⟩ := by
  refine h.exit fun q hq => ?_
  rcases mem_cons.mp hq with rfl | hq
  · exact hfl
  · exact hfl.trans_of_le (h.head_before q hq) h.head_proper.le

end

end Mid

variable [DecidableEq ω]

/-- The walk stops behind the locks of the owner. -/
theorem Mid.walk_nil (h : Mid A R S P L [] request place left added)
    (hB : ∀ b ∈ B.head?, b.owner ≠ R.owner) :
    Exit A R S B P L [] (walk (A ++ (P ++ L.toList)) request place left added B) := by
  have hstop : walk (A ++ (P ++ L.toList)) request place left added B =
      ⟨A ++ (P ++ L.toList), B, request, place, left, false, added⟩ := by
    cases B with
    | nil => rfl
    | cons b B =>
      have hne : request.owner ≠ b.owner := h.owner ▸ (hB b rfl).symm
      simp [walk, hne]
  rw [hstop]
  exact h.exit (by simp)

/-- The walk stops where the locks passed lie below the request and those to come above it. -/
theorem walk_exit (h : Mid A R S P L Q request place left added)
    (hB : ∀ b ∈ B.head?, b.owner ≠ R.owner) :
    ∃ P' L' Q', Exit A R S B P' L' Q'
      (walk (A ++ (P ++ L.toList)) request place left added (Q ++ B)) := by
  induction Q generalizing P L request place left added with
  | nil => exact ⟨P, L, [], h.walk_nil hB⟩
  | cons fl Q ih =>
    have howner : ¬request.owner ≠ fl.owner := by
      rw [h.owner, (h.own fl (by simp)).2]
      simp
    have hposix := (h.own fl (by simp)).1
    have hfl := h.head_proper
    have hle := h.le
    have hflle := hfl.le
    rw [cons_append, walk, if_neg howner]
    by_cases htype : request.type = fl.type
    · rw [if_pos htype]
      have hR : fl.type = R.type := by rw [← htype, h.type]
      have hlocked : R.type ≠ .unlck := hR ▸ hfl.locked
      by_cases hlow : fl.stop < request.start - 1
      · rw [if_pos hlow]
        obtain ⟨rfl, hskip⟩ := h.skip ⟨by omega, fun _ => by omega⟩
        simpa using ih hskip
      rw [if_neg hlow]
      by_cases hhigh : fl.start - 1 > request.stop
      · rw [if_pos hhigh]
        exact ⟨P, L, fl :: Q, h.exit_before ⟨by omega, fun _ => by omega⟩⟩
      rw [if_neg hhigh]
      -- the request and the lock become one, kept at the place of the request when it has one
      have hmerge {c' : FileLock ω} (htype' : c'.type = request.type)
          (hstart : c'.start = min fl.start request.start)
          (hstop : c'.stop = max fl.stop request.stop) (x : ℤ) (t : LockType) :=
        painted_merge (x := x) (t := t) h.tidy htype.symm hle hlow hhigh htype' hstart hstop
      cases added with
      | true =>
        simp only [if_true]
        have hplace : place ≠ none := (h.why_added rfl).resolve_right hlocked
        exact ih (h.absorb h.isPosix h.owner h.type rfl rfl (fun _ => hR)
          (hmerge rfl rfl rfl) h.place_eq (fun _ => hlocked) (Or.inl hplace))
      | false =>
        simp only [Bool.false_eq_true, if_false]
        exact ih (h.absorb hposix (h.own fl (by simp)).2 hR rfl rfl (fun _ => hR)
          (hmerge htype.symm rfl rfl) (by simp) (fun _ => hlocked) (Or.inl (by simp)))
    · rw [if_neg htype]
      have hR : fl.type ≠ R.type := fun heq => htype (by rw [heq, h.type])
      by_cases hlow : fl.stop < request.start
      · rw [if_pos hlow]
        obtain ⟨rfl, hskip⟩ := h.skip ⟨hlow, fun heq => absurd heq.symm htype⟩
        simpa using ih hskip
      rw [if_neg hlow]
      by_cases hhigh : fl.start > request.stop
      · rw [if_pos hhigh]
        exact ⟨P, L, fl :: Q, h.exit_before ⟨by omega, fun heq => absurd heq htype⟩⟩
      rw [if_neg hhigh]
      dsimp only
      by_cases hright : fl.stop > request.stop
      · rw [if_pos hright]
        exact ⟨P, L, fl :: Q, h.exit_right hR (by omega) hright (by rw [h.type])⟩
      rw [if_neg hright]
      by_cases hstart : fl.start ≥ request.start
      · have hleft : ¬fl.start < request.start := by omega
        simp only [hstart, hleft, if_true, if_false]
        by_cases hadded : (added || decide (request.type = .unlck)) = true
        · rw [if_pos hadded, hadded]
          refine ih (h.cover hstart (by omega) h.isPosix h.owner rfl rfl rfl h.place_eq
            (fun hne => (h.placed hne).2) ?_)
          simp only [Bool.or_eq_true, decide_eq_true_eq, h.type] at hadded
          exact hadded.elim h.why_added Or.inr
        · rw [if_neg hadded]
          have hlocked : R.type ≠ .unlck := fun heq => hadded (by simp [h.type, heq])
          exact ih (h.cover hstart (by omega) hposix (h.own fl (by simp)).2 rfl rfl rfl (by simp)
            (fun _ => hlocked) (Or.inl (by simp)))
      · have hleft : fl.start < request.start := by omega
        simp only [hstart, hleft, if_true, if_false]
        have hadded : (added || decide (request.type = .unlck)) = true ↔ R.type = .unlck := by
          rw [(h.untouched hleft).2, h.type]
          simp
        obtain ⟨rfl, hreach⟩ := h.reach hR hleft (by omega) (by omega) hadded
        simpa using ih hreach

end AndroidKernel.Locks
