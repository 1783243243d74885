import AndroidKernel.Locks.Walk

/-!
# What the owner's locks become

The second half of `__posix_lock_file` puts in what the walk left out: the request, when no lock of
the list took its part, and the ends of the locks that reach into it. A call that fails has changed
nothing yet.
-/

namespace AndroidKernel.Locks

open List Walk Option

variable {ω : Type} {A S B P Q U V : List (FileLock ω)} {L : Option (FileLock ω)} {R r : FileLock ω}
  {w : Walk ω}

/-- The locks `S'` of an owner after the request `R` was granted on the locks `S`. -/
structure Granted (R : FileLock ω) (S S' : List (FileLock ω)) : Prop where
  tidy : Tidy S'
  own : ∀ l ∈ S', l.isPosix = true ∧ l.owner = R.owner
  covers : ∀ x t, t ≠ .unlck → (Covers S' x t ↔ Painted R S x t)

theorem modify_length_append {α : Type} (f : α → α) (xs : List α) (y : α) (ys : List α) :
    (xs ++ y :: ys).modify xs.length f = xs ++ f y :: ys := by
  induction xs with
  | nil => rfl
  | cons x xs ih => simpa using ih

/-- The locks passed, with the new end of the one that reaches into the request. -/
def cutBelow (P : List (FileLock ω)) (L : Option (FileLock ω)) (request : FileLock ω) :
    List (FileLock ω) :=
  P ++ L.toList.map fun l => { l with stop := request.start - 1 }

namespace Exit

section

variable (h : Exit A R S B P L Q w)
include h

theorem granted (hU : Tidy U) (hV : Tidy V)
    (hown : ∀ l ∈ U ++ V, l.isPosix = true ∧ l.owner = R.owner)
    (hbelow : ∀ u ∈ U, Before u w.request) (habove : ∀ v ∈ V, Before w.request v)
    (hpainted : ∀ x t, Painted w.request (U ++ V) x t ↔ Painted R S x t) :
    Granted R S (U ++ (if R.type = .unlck then [] else [w.request]) ++ V) := by
  by_cases htype : R.type = .unlck
  · simp only [htype, if_true, append_nil]
    exact ⟨hU.join hbelow habove hV h.le, hown, fun x t ht =>
      (covers_join hbelow habove (h.type.trans htype) ht).trans (hpainted x t)⟩
  · simp only [htype, if_false, append_assoc, singleton_append]
    have hproper : Proper w.request := ⟨h.nonneg, h.le, h.le_max, by rwa [h.type]⟩
    refine ⟨hU.insert hbelow habove hV hproper, fun l hl => ?_, fun x t _ =>
      (covers_insert hbelow habove).trans (hpainted x t)⟩
    simp only [mem_append, mem_cons] at hl
    rcases hl with hl | rfl | hl
    · exact hown l (by simp [hl])
    · exact ⟨h.isPosix, h.owner⟩
    · exact hown l (by simp [hl])

/-- The request stands behind the locks passed, by its place or as a new lock. -/
theorem front_append_new {passed : List (FileLock ω)} (hlength : passed.length = w.passed.length)
    (hlocked : w.added = false → R.type ≠ .unlck) :
    ({ w with passed := passed } : Walk ω).front ++ (if w.added then [] else [w.request]) =
      passed ++ if R.type = .unlck then [] else [w.request] := by
  cases hplace : w.place with
  | none =>
    cases hadded : w.added with
    | true => simp [front, (h.why_added hadded).resolve_left (by simp [hplace])]
    | false => simp [front, hlocked hadded]
  | some i =>
    obtain ⟨hadded, htype⟩ := h.placed (by simp [hplace])
    have hi : i = passed.length := by rw [hlength, h.place_eq i hplace]
    simp [front, hadded, htype, hi]

theorem tidy_cutBelow : Tidy (cutBelow P L w.request) := by
  have hPL : Tidy (P ++ L.toList) := h.tidy.sublist (sublist_append_left _ _)
  cases hL : L with
  | none => simpa [cutBelow, hL] using hPL
  | some l =>
    obtain ⟨-, hlow, hreach, hhigh⟩ := h.reaching l hL
    have hl := hPL.proper l (by simp [hL])
    have hmax := h.le_max
    have hle := h.le
    refine (hPL.sublist (sublist_append_left _ _)).append (Tidy.singleton ?_) ?_
    · exact ⟨hl.nonneg, by dsimp only; omega, by dsimp only; omega, hl.locked⟩
    · intro p hp v hv
      obtain rfl := List.mem_singleton.mp hv
      exact hPL.before p hp l (by simp [hL])

theorem cutBelow_before : ∀ u ∈ cutBelow P L w.request, Before u w.request := by
  intro u hu
  rcases List.mem_append.mp hu with hu | hu
  · exact h.below u hu
  · obtain ⟨l, hl, rfl⟩ := List.mem_map.mp hu
    obtain ⟨hne, -⟩ := h.reaching l (by simpa using hl)
    exact ⟨by dsimp only; omega, fun heq => absurd (heq.trans h.type) hne⟩

theorem own_cutBelow : ∀ u ∈ cutBelow P L w.request, u.isPosix = true ∧ u.owner = R.owner := by
  intro u hu
  rcases List.mem_append.mp hu with hu | hu
  · exact h.own u (by simp [hu])
  · obtain ⟨l, hl, rfl⟩ := List.mem_map.mp hu
    exact h.own l (by simp [mem_toList.mp hl])

theorem painted_cutBelow (x : ℤ) (t : LockType) :
    Painted w.request (cutBelow P L w.request ++ V) x t ↔
      Painted w.request (P ++ L.toList ++ V) x t := by
  cases hL : L with
  | none => simp [cutBelow]
  | some l =>
    obtain ⟨-, -, hreach, hhigh⟩ := h.reaching l hL
    simpa [cutBelow] using painted_trim_left (U := P) (V := V) (x := x) (t := t) hreach hhigh

/-- `left` gets its new end. -/
theorem passed_trimLeft (hleft : w.left = L.map fun _ => A.length + P.length) :
    w.trimLeft = { w with passed := A ++ cutBelow P L w.request } := by
  cases hL : L with
  | none =>
    simp only [hL, map_none] at hleft
    have hpassed := h.passed_eq
    have hcut : A ++ cutBelow P none w.request = w.passed := by simp [cutBelow, hpassed, hL]
    rw [hcut, trimLeft]
    split
    · rfl
    · simp_all
  | some l =>
    simp only [hL, map_some] at hleft
    have hpassed := h.passed_eq
    simp only [hL, toList_some, ← append_assoc] at hpassed
    have hcut : w.passed.modify (A.length + P.length)
        (fun fl => { fl with stop := w.request.start - 1 }) =
          A ++ cutBelow P (some l) w.request := by
      rw [hpassed, ← length_append, modify_length_append]
      simp [cutBelow]
    rw [← hcut, trimLeft]
    split
    · simp_all
    · simp_all

theorem locks_eq (hplace : w.place = none) (hS : P ++ L.toList ++ Q = S) :
    w.locks = A ++ S ++ B := by
  simp [locks, front, hplace, h.passed_eq, h.rest_eq, ← hS]

theorem place_none (hadded : w.added = false) : w.place = none := by
  by_contra hplace
  simp [(h.placed hplace).1] at hadded

/-- When the lock found is not around the request, `left` and `right` are cut where they meet it. -/
theorem granted_cut (hleft : w.left = L.map fun _ => A.length + P.length) (hV : Tidy V)
    (hown : ∀ v ∈ V, v.isPosix = true ∧ v.owner = R.owner) (habove : ∀ v ∈ V, Before w.request v)
    (hpainted : ∀ x t, Painted w.request (P ++ L.toList ++ V) x t ↔ Painted R S x t)
    (hlocked : w.added = false → R.type ≠ .unlck) :
    ∃ S', w.trimLeft.front ++ (if w.added then [] else [w.request]) ++ (V ++ B) = A ++ S' ++ B ∧
      Granted R S S' := by
  refine ⟨_, ?_, h.granted h.tidy_cutBelow hV ?_ h.cutBelow_before habove
    fun x t => (h.painted_cutBelow x t).trans (hpainted x t)⟩
  · rw [h.passed_trimLeft hleft, h.front_append_new (by simp [h.passed_eq, cutBelow]) hlocked]
    simp
  · intro l hl
    exact (List.mem_append.mp hl).elim (h.own_cutBelow l) (hown l)

end

theorem upper (h : Exit A R S B P L (r :: Q) w) (htype : r.type ≠ R.type)
    (hhigh : w.request.stop < r.stop) : Tidy ({ r with start := w.request.stop + 1 } :: Q) ∧
      ∀ v ∈ { r with start := w.request.stop + 1 } :: Q, Before w.request v := by
  have hle := h.le
  have hnonneg := h.nonneg
  have hr := h.tidy.proper r (by simp)
  have hafter := (List.pairwise_cons.mp (List.pairwise_append.mp h.tidy.ordered).2.1).1
  have hQ : Tidy Q := h.tidy.sublist ((sublist_cons_self r Q).trans (sublist_append_right _ _))
  have hupper : Proper { r with start := w.request.stop + 1 } :=
    ⟨by dsimp only; omega, by dsimp only; omega, hr.le_max, hr.locked⟩
  refine ⟨(Tidy.singleton hupper).append hQ fun u hu q hq => ?_, fun v hv => ?_⟩
  · obtain rfl := List.mem_singleton.mp hu
    exact hafter q hq
  · rcases List.mem_cons.mp hv with rfl | hv
    · exact ⟨by dsimp only; omega, fun heq => absurd (heq.symm.trans h.type) htype⟩
    · have := (hafter v hv).1
      exact ⟨by omega, fun _ => by omega⟩

theorem granted_split (h : Exit A R S B P none (r :: Q) w)
    (htype : r.type ≠ R.type) (hlow : r.start < w.request.start) (hhigh : w.request.stop < r.stop)
    (hplace : w.place = none)
    (hlocked : w.added = false → R.type ≠ .unlck) :
    ∃ S', w.front ++ [{ r with stop := w.request.start - 1 }] ++
        (if w.added then [] else [w.request]) ++
          ({ r with start := w.request.stop + 1 } :: Q ++ B) = A ++ S' ++ B ∧ Granted R S S' := by
  have hle := h.le
  have hmax := h.le_max
  have htidy : Tidy (P ++ r :: Q) := by simpa using h.tidy
  have hr := htidy.proper r (by simp)
  obtain ⟨hV, hafter⟩ := h.upper htype hhigh
  have hown : ∀ l ∈ P ++ r :: Q, l.isPosix = true ∧ l.owner = R.owner := by simpa using h.own
  have hlower : Proper { r with stop := w.request.start - 1 } :=
    ⟨hr.nonneg, by dsimp only; omega, by dsimp only; omega, hr.locked⟩
  have hU : Tidy (P ++ [{ r with stop := w.request.start - 1 }]) := by
    refine (htidy.sublist (sublist_append_left _ _)).append (Tidy.singleton hlower) ?_
    intro p hp v hv
    obtain rfl := List.mem_singleton.mp hv
    exact htidy.before p hp r (by simp)
  refine ⟨_, ?_, h.granted hU hV ?_ ?_ hafter ?_⟩
  · have hnew := h.front_append_new rfl hlocked
    simp only [front, hplace, h.passed_eq, toList_none, append_nil, append_cancel_left_eq] at hnew ⊢
    rw [hnew]
    simp
  · intro l hl
    simp only [mem_append, mem_cons, not_mem_nil, or_false] at hl
    rcases hl with (hl | rfl) | rfl | hl
    · exact hown l (by simp [hl])
    · exact hown r (by simp)
    · exact hown r (by simp)
    · exact hown l (by simp [hl])
  · intro u hu
    rcases List.mem_append.mp hu with hu | hu
    · exact h.below u hu
    · obtain rfl := List.mem_singleton.mp hu
      exact ⟨by dsimp only; omega, fun heq => absurd (heq.trans h.type) htype⟩
  · intro x t
    rw [← h.painted x t]
    simpa using painted_split (U := P) (V := Q) (x := x) (t := t) hlow hle hhigh

/-- The locks above the request, `right` with its new start. -/
theorem granted_right (h : Exit A R S B P L (r :: Q) w)
    (hleft : w.left = L.map fun _ => A.length + P.length) (htype : r.type ≠ R.type)
    (hlow : w.request.start ≤ r.start) (hmeet : r.start ≤ w.request.stop)
    (hhigh : w.request.stop < r.stop) (hlocked : w.added = false → R.type ≠ .unlck) :
    ∃ S', w.trimLeft.front ++ (if w.added then [] else [w.request]) ++
        ({ r with start := w.request.stop + 1 } :: Q ++ B) = A ++ S' ++ B ∧ Granted R S S' := by
  obtain ⟨hV, hafter⟩ := h.upper htype hhigh
  refine h.granted_cut hleft hV (fun v hv => ?_) hafter
    (fun x t => (painted_trim_right hlow hmeet).trans (h.painted x t)) hlocked
  rcases List.mem_cons.mp hv with rfl | hv
  · exact h.own r (by simp)
  · exact h.own v (by simp [hv])

section

variable (h : Exit A R S B P L Q w)
include h

/-- `left` is `right` just when the lock found is around the request. -/
theorem split_cases : (w.split = true ∧ w.right = true ∧ ∃ r Q', Q = r :: Q' ∧ r.type ≠ R.type ∧
        w.request.stop < r.stop ∧ r.start < w.request.start ∧ L = none ∧ P ++ Q = S ∧
        w.place = none) ∨
      (w.split = false ∧ w.left = (L.map fun _ => A.length + P.length) ∧
        ((w.right = false ∧ ∀ q ∈ Q, Before w.request q) ∨
          (w.right = true ∧ ∃ r Q', Q = r :: Q' ∧ r.type ≠ R.type ∧ w.request.start ≤ r.start ∧
            r.start ≤ w.request.stop ∧ w.request.stop < r.stop))) := by
  cases hright : w.right with
  | false =>
    obtain ⟨hQ, hleft⟩ := h.not_right hright
    exact Or.inr ⟨by simp [split, hright], hleft, Or.inl ⟨rfl, hQ⟩⟩
  | true =>
    obtain ⟨r, Q', hQ, htype, hmeet, hhigh, hside | ⟨hlow, hleft⟩⟩ := h.right hright
    · obtain ⟨hlow, hL, hleft, hS, hplace⟩ := hside
      exact Or.inl ⟨by simp [split, hright, hleft], rfl, r, Q', hQ, htype, hhigh, hlow, hL, hS,
        hplace⟩
    · refine Or.inr ⟨?_, hleft, Or.inr ⟨rfl, r, Q', hQ, htype, hlow, hmeet, hhigh⟩⟩
      have hne : w.left ≠ some w.passed.length := by
        rw [hleft, h.passed_eq]
        cases L <;> simp
      simp [split, hne]

theorem granted_nothing (hadded : w.added = false) (htype : R.type = .unlck) :
    w.locks = A ++ S ++ B ∧ Granted R S S := by
  obtain ⟨rfl, hright⟩ := h.spared hadded htype
  obtain ⟨hS, hR⟩ := h.fresh hadded
  obtain ⟨hQ, -⟩ := h.not_right hright
  simp only [toList_none, append_nil] at hS
  have htidy : Tidy (P ++ Q) := by simpa using h.tidy
  have hgrant := h.granted (htidy.sublist (sublist_append_left _ _))
    (htidy.sublist (sublist_append_right _ _)) (by simpa using h.own) h.below hQ
    (by simpa using h.painted)
  simp only [htype, if_true, append_nil, hS] at hgrant
  exact ⟨h.locks_eq (h.place_none hadded) (by simpa using hS), hgrant⟩

/-- A call that fails leaves the list as it was; one that succeeds grants the request. -/
theorem finish_spec (flExists newFl newFl2 : Bool) : ((w.finish flExists newFl newFl2).1 ≠ 0 →
      (w.finish flExists newFl newFl2).2 = A ++ S ++ B) ∧
    ((w.finish flExists newFl newFl2).1 = 0 →
      ∃ S', (w.finish flExists newFl newFl2).2 = A ++ S' ++ B ∧ Granted R S S') := by
  have henolck : enolck ≠ 0 := by decide
  unfold finish
  by_cases hnone : w.split ∧ !newFl2
  · obtain ⟨-, -, r, Q', rfl, -, -, -, rfl, hS, hplace⟩ | ⟨hsplit, -⟩ := h.split_cases
    · rw [if_pos hnone]
      exact ⟨fun _ => h.locks_eq hplace (by simpa using hS), fun h0 => absurd h0 henolck⟩
    · simp [hsplit] at hnone
  rw [if_neg hnone]
  by_cases hnothing : !w.added ∧ w.request.type = .unlck
  · rw [if_pos hnothing]
    obtain ⟨hlocks, hgrant⟩ := h.granted_nothing (by simpa using hnothing.1)
      (h.type.symm.trans hnothing.2)
    exact ⟨fun _ => hlocks, fun _ => ⟨S, hlocks, hgrant⟩⟩
  rw [if_neg hnothing]
  by_cases hnew : !w.added ∧ !newFl
  · rw [if_pos hnew]
    have hadded : w.added = false := by simpa using hnew.1
    exact ⟨fun _ => h.locks_eq (h.place_none hadded) (h.fresh hadded).1,
      fun h0 => absurd h0 henolck⟩
  rw [if_neg hnew]
  refine ⟨fun h0 => absurd rfl h0, fun _ => ?_⟩
  have hlocked : w.added = false → R.type ≠ .unlck :=
    fun hadded htype => hnothing ⟨by simp [hadded], h.type.trans htype⟩
  obtain ⟨hsplit, hright, r, Q', rfl, htype, hhigh, hlow, rfl, -, hplace⟩ |
    ⟨hsplit, hleft, ⟨hright, hQ⟩ | ⟨hright, r, Q', rfl, htype, hlow, hmeet, hhigh⟩⟩ := h.split_cases
  · simpa [hsplit, hright, h.rest_eq] using h.granted_split htype hlow hhigh hplace hlocked
  · have hV : Tidy Q := h.tidy.sublist (sublist_append_right _ _)
    simpa [hsplit, hright, h.rest_eq] using h.granted_cut hleft hV
      (fun v hv => h.own v (by simp [hv])) hQ h.painted hlocked
  · simpa [hsplit, hright, h.rest_eq] using
      h.granted_right hleft htype hlow hmeet hhigh hlocked

end

end Exit

end AndroidKernel.Locks
