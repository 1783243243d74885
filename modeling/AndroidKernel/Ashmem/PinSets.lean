import AndroidKernel.Ashmem.Basic
import Mathlib.Data.List.Forall2
import Mathlib.Order.Interval.Set.Defs

/-!
# The unpinned list is a set of pages

The unpinned list of an area is strictly descending. Read as the set of pages in its ranges,
unpinning adds an interval to it, pinning takes one away and shrinking leaves it as it is.
-/

namespace AndroidKernel.Ashmem

open List Range State

variable {l' before behind : List Range}

/-- The list runs downwards through ranges that are not empty and do not meet. -/
structure Descending (l : List Range) : Prop where
  nonempty : ∀ r ∈ l, r.pgstart ≤ r.pgend
  pairwise : l.Pairwise fun r q => q.pgend < r.pgstart

/-- The page is in a range of the list, purged as `f` asks. -/
def Covers (f : Bool → Prop) (l : List Range) (page : ℕ) : Prop :=
  ∃ r ∈ l, f r.purged ∧ r.pgstart ≤ page ∧ page ≤ r.pgend

variable {f : Bool → Prop} {l : List Range} {r : Range} {page pgstart pgend : ℕ}

@[simp] theorem covers_nil : ¬ Covers f [] page := by simp [Covers]

theorem covers_cons : Covers f (r :: l) page ↔
    (f r.purged ∧ r.pgstart ≤ page ∧ page ≤ r.pgend) ∨ Covers f l page := by
  simp [Covers]

theorem covers_append : Covers f (l ++ l') page ↔ Covers f l page ∨ Covers f l' page := by
  simp [Covers, or_and_right, exists_or]

theorem Descending.nil : Descending [] := ⟨by simp, .nil⟩

theorem descending_cons : Descending (r :: l) ↔
    r.pgstart ≤ r.pgend ∧ (∀ q ∈ l, q.pgend < r.pgstart) ∧ Descending l := by
  constructor
  · rintro ⟨hnonempty, hpairwise⟩
    rw [pairwise_cons] at hpairwise
    exact ⟨hnonempty r (by simp), hpairwise.1, fun q hq => hnonempty q (by simp [hq]), hpairwise.2⟩
  · rintro ⟨hr, hlt, hl⟩
    refine ⟨?_, List.pairwise_cons.mpr ⟨hlt, hl.pairwise⟩⟩
    intro q hq
    rcases List.mem_cons.mp hq with rfl | hq
    · exact hr
    · exact hl.nonempty q hq

theorem Covers.lt_of_forall {n : ℕ} (h : Covers f l page) (hl : ∀ r ∈ l, r.pgend < n) :
    page < n := by
  obtain ⟨r, hr, -, -, hle⟩ := h
  exact Nat.lt_of_le_of_lt hle (hl r hr)

theorem rangeIn_iff (hr : r.pgstart ≤ r.pgend) (hle : pgstart ≤ pgend) :
    r.rangeIn pgstart pgend = true ↔ r.pgstart ≤ pgend ∧ pgstart ≤ r.pgend := by
  simp only [rangeIn, pageIn, subsumes, Bool.or_eq_true, Bool.and_eq_true, decide_eq_true_eq]
  omega

/-- What `ashmem_pin` does when `range_alloc` succeeds. -/
structure Pinned (pgstart pgend : ℕ) (l : List Range) (ret : Bool) (l' : List Range) : Prop where
  descending : Descending l'
  bound : ∀ r ∈ l', ∃ q ∈ l, r.pgend ≤ q.pgend
  covers : ∀ f page, Covers f l' page ↔ Covers f l page ∧ ¬ (pgstart ≤ page ∧ page ≤ pgend)
  purged : ∀ page, pgstart ≤ page → page ≤ pgend → Covers (· = true) l page → ret = true

theorem Pinned.cons {ret : Bool} (left : List Range) (h : Pinned pgstart pgend l ret l')
    (hr : ∀ q ∈ l, q.pgend < r.pgstart) (hleft : Descending left)
    (hbound : ∀ q ∈ left, r.pgstart ≤ q.pgstart ∧ q.pgend ≤ r.pgend)
    (hcovers : ∀ f page, Covers f left page ↔
      (f r.purged ∧ r.pgstart ≤ page ∧ page ≤ r.pgend) ∧ ¬ (pgstart ≤ page ∧ page ≤ pgend)) :
    Pinned pgstart pgend (r :: l) (r.purged || ret) (left ++ l') := by
  refine ⟨⟨?_, ?_⟩, ?_, ?_, ?_⟩
  · intro q hq
    rcases List.mem_append.mp hq with hq | hq
    · exact hleft.nonempty q hq
    · exact h.descending.nonempty q hq
  · refine List.pairwise_append.mpr ⟨hleft.pairwise, h.descending.pairwise, ?_⟩
    intro q hq q' hq'
    obtain ⟨q'', hq'', hle⟩ := h.bound q' hq'
    have := hr q'' hq''
    have := (hbound q hq).1
    omega
  · intro q hq
    rcases List.mem_append.mp hq with hq | hq
    · exact ⟨r, by simp, (hbound q hq).2⟩
    · obtain ⟨q', hq', hle⟩ := h.bound q hq
      exact ⟨q', by simp [hq'], hle⟩
  · intro f page
    rw [covers_append, covers_cons, hcovers, h.covers]
    tauto
  · intro page hstart hend hcover
    rcases covers_cons.mp hcover with ⟨hpurged, -⟩ | hcover
    · simp [hpurged]
    · simp [h.purged page hstart hend hcover]

theorem Pinned.skip {ret : Bool} (h : Pinned pgstart pgend l ret l') (hl : Descending (r :: l))
    (hnot : r.pgend < pgstart ∨ pgend < r.pgstart) :
    Pinned pgstart pgend (r :: l) ret (r :: l') := by
  obtain ⟨hr, hlt, -⟩ := descending_cons.mp hl
  refine ⟨descending_cons.mpr ⟨hr, ?_, h.descending⟩, ?_, ?_, ?_⟩
  · intro q hq
    obtain ⟨q', hq', hle⟩ := h.bound q hq
    exact Nat.lt_of_le_of_lt hle (hlt q' hq')
  · intro q hq
    rcases List.mem_cons.mp hq with rfl | hq
    · exact ⟨q, by simp, le_rfl⟩
    · obtain ⟨q', hq', hle⟩ := h.bound q hq
      exact ⟨q', by simp [hq'], hle⟩
  · intro f page
    rw [covers_cons, covers_cons, h.covers]
    constructor
    · rintro (⟨hf, hin⟩ | ⟨hcover, hout⟩)
      · exact ⟨.inl ⟨hf, hin⟩, by omega⟩
      · exact ⟨.inr hcover, hout⟩
    · rintro ⟨hin | hcover, hout⟩
      · exact .inl hin
      · exact .inr ⟨hcover, hout⟩
  · intro page hstart hend hcover
    rcases covers_cons.mp hcover with ⟨-, hin⟩ | hcover
    · omega
    · exact h.purged page hstart hend hcover

theorem Pinned.stop (hl : Descending (r :: l)) (hbefore : r.pgend < pgstart) :
    Pinned pgstart pgend (r :: l) false (r :: l) := by
  have hbelow : ∀ q ∈ r :: l, q.pgend < pgstart := by
    obtain ⟨hr, hlt, -⟩ := descending_cons.mp hl
    intro q hq
    rcases List.mem_cons.mp hq with rfl | hq
    · exact hbefore
    · have := hlt q hq
      omega
  refine ⟨hl, fun q hq => ⟨q, hq, le_rfl⟩, fun f page => ?_, ?_⟩
  · constructor
    · intro hcover
      have := hcover.lt_of_forall hbelow
      exact ⟨hcover, by omega⟩
    · exact And.left
  · intro page hstart _ hcover
    have := hcover.lt_of_forall hbelow
    omega

theorem ashmemPin_pinned (hle : pgstart ≤ pgend) (hl : Descending l) (asma : ℕ) (lru : Lru) :
    Pinned pgstart pgend l (ashmemPin asma true pgstart pgend l lru).1
      (ashmemPin asma true pgstart pgend l lru).2.1 := by
  induction l generalizing lru with
  | nil => exact ⟨hl, by simp [ashmemPin], by simp [ashmemPin], by simp⟩
  | cons r l ih =>
    obtain ⟨hr, hlt, hl'⟩ := descending_cons.mp hl
    unfold ashmemPin
    split_ifs with hbefore hin hsub hstart hend halloc
    · exact .stop hl (by simpa [beforePage] using hbefore)
    · simp only [subsumes, Bool.and_eq_true, decide_eq_true_eq] at hsub
      refine (ih hl' (lru.rangeDel asma r)).cons [] hlt .nil (by simp) ?_
      intro f page
      simp only [covers_nil, false_iff]
      omega
    · rw [rangeIn_iff hr hle] at hin
      simp only [subsumes, Bool.and_eq_true, decide_eq_true_eq, not_and] at hsub
      have := hsub hstart
      refine (ih hl' _).cons [{ r with pgstart := pgend + 1 }] hlt ?_ ?_ ?_
      · exact descending_cons.mpr ⟨by simp; omega, by simp, .nil⟩
      · simp
        omega
      · intro f page
        simp only [covers_cons, covers_nil, or_false]
        constructor
        · rintro ⟨hf, hlo, hhi⟩
          exact ⟨⟨hf, by omega, hhi⟩, by omega⟩
        · rintro ⟨⟨hf, hlo, hhi⟩, hout⟩
          exact ⟨hf, by omega, hhi⟩
    · rw [rangeIn_iff hr hle] at hin
      refine (ih hl' _).cons [{ r with pgend := pgstart - 1 }] hlt ?_ ?_ ?_
      · exact descending_cons.mpr ⟨by simp; omega, by simp, .nil⟩
      · simp
        omega
      · intro f page
        simp only [covers_cons, covers_nil, or_false]
        constructor
        · rintro ⟨hf, hlo, hhi⟩
          exact ⟨⟨hf, hlo, by omega⟩, by omega⟩
        · rintro ⟨⟨hf, hlo, hhi⟩, hout⟩
          exact ⟨hf, hlo, by omega⟩
    · -- a hole: both sides stay, and everything behind lies below the pages
      have hrest : Pinned pgstart pgend l false l := by
        cases l with
        | nil => exact ⟨hl', by simp, by simp, by simp⟩
        | cons q l =>
          have := hlt q (by simp)
          exact .stop hl' (by omega)
      have hcons := hrest.cons [⟨lru.next, pgend + 1, r.pgend, r.purged⟩,
        { r with pgend := pgstart - 1 }] hlt ?_ ?_ ?_
      · simpa using hcons
      · refine descending_cons.mpr ⟨by simp; omega, ?_,
          descending_cons.mpr ⟨by simp; omega, ?_, .nil⟩⟩
        · simp
          omega
        · simp
      · simp
        omega
      · intro f page
        simp only [covers_cons, covers_nil, or_false]
        constructor
        · rintro (⟨hf, hlo, hhi⟩ | ⟨hf, hlo, hhi⟩)
          · exact ⟨⟨hf, by omega, hhi⟩, by omega⟩
          · exact ⟨⟨hf, hlo, by omega⟩, by omega⟩
        · rintro ⟨⟨hf, hlo, hhi⟩, hout⟩
          by_cases hpage : page ≤ pgend
          · exact .inr ⟨hf, hlo, by omega⟩
          · exact .inl ⟨hf, by omega, hhi⟩
    · exact absurd rfl halloc
    · refine (ih hl' lru).skip hl ?_
      rw [rangeIn_iff hr hle] at hin
      omega

/-- What the end of a pass of `ashmem_unpin` says about the list. -/
def Scan.Splits (pgstart pgend : ℕ) (l : List Range) : Scan → Prop
  | covered => ∃ r ∈ l, r.pgstart ≤ pgstart ∧ pgend ≤ r.pgend
  | merge before r behind => l = before ++ r :: behind ∧ r.pgstart ≤ pgend ∧ pgstart ≤ r.pgend
  | insert before behind => l = before ++ behind ∧ (∀ r ∈ before, pgend < r.pgstart) ∧
      ∀ r ∈ behind, r.pgend < pgstart

theorem scan_splits (hle : pgstart ≤ pgend) (hl : Descending l) :
    (scan pgstart pgend l).Splits pgstart pgend l := by
  induction l with
  | nil => simp [scan, Scan.Splits]
  | cons r l ih =>
    obtain ⟨hr, hlt, hl'⟩ := descending_cons.mp hl
    unfold scan
    split_ifs with hbefore hsub hin
    · simp only [beforePage, decide_eq_true_eq] at hbefore
      refine ⟨rfl, by simp, ?_⟩
      intro q hq
      rcases List.mem_cons.mp hq with rfl | hq
      · exact hbefore
      · have := hlt q hq
        omega
    · simp only [subsumedBy, Bool.and_eq_true, decide_eq_true_eq] at hsub
      exact ⟨r, by simp, hsub⟩
    · rw [rangeIn_iff hr hle] at hin
      exact ⟨rfl, hin⟩
    · rw [rangeIn_iff hr hle] at hin
      simp only [beforePage, decide_eq_true_eq] at hbefore
      specialize ih hl'
      cases hscan : scan pgstart pgend l with
      | covered =>
        rw [hscan] at ih
        obtain ⟨q, hq, hcov⟩ := ih
        exact ⟨q, by simp [hq], hcov⟩
      | merge before q behind =>
        rw [hscan] at ih
        exact ⟨by simp [ih.1], ih.2⟩
      | insert before behind =>
        rw [hscan] at ih
        refine ⟨by simp [ih.1], ?_, ih.2.2⟩
        intro q hq
        rcases List.mem_cons.mp hq with rfl | hq
        · omega
        · exact ih.2.1 q hq

theorem Descending.not_covers_middle (hl : Descending (before ++ r :: behind))
    (hlo : r.pgstart ≤ page) (hhi : page ≤ r.pgend) : ¬ Covers f (before ++ behind) page := by
  obtain ⟨-, hmid, hcross⟩ := List.pairwise_append.mp hl.pairwise
  rw [pairwise_cons] at hmid
  rintro ⟨q, hq, -, hqlo, hqhi⟩
  rcases List.mem_append.mp hq with hq | hq
  · have := hcross q hq r (by simp)
    omega
  · have := hmid.1 q hq
    omega

theorem Descending.remove (hl : Descending (before ++ r :: behind)) :
    Descending (before ++ behind) := by
  have hsub : (before ++ behind).Sublist (before ++ r :: behind) :=
    (List.Sublist.refl before).append (sublist_cons_self r behind)
  exact ⟨fun q hq => hl.nonempty q (hsub.subset hq), hl.pairwise.sublist hsub⟩

theorem Descending.insert (hl : Descending (before ++ behind)) (hr : r.pgstart ≤ r.pgend)
    (hbefore : ∀ q ∈ before, r.pgend < q.pgstart) (hbehind : ∀ q ∈ behind, q.pgend < r.pgstart) :
    Descending (before ++ r :: behind) := by
  obtain ⟨hfirst, hsecond, hcross⟩ := List.pairwise_append.mp hl.pairwise
  constructor
  · intro q hq
    rw [mem_append, mem_cons] at hq
    rcases hq with hq | rfl | hq
    · exact hl.nonempty q (by simp [hq])
    · exact hr
    · exact hl.nonempty q (by simp [hq])
  · refine List.pairwise_append.mpr ⟨hfirst, List.pairwise_cons.mpr ⟨hbehind, hsecond⟩, ?_⟩
    intro q hq q' hq'
    rcases List.mem_cons.mp hq' with rfl | hq'
    · exact hbefore q hq
    · exact hcross q hq q' hq'

/-- What `ashmem_unpin` does when `range_alloc` succeeds; `purged` says that a range merged
before was purged. -/
structure Unpinned (pgstart pgend : ℕ) (purged : Bool) (l : List Range) (ret : Bool)
    (l' : List Range) : Prop where
  success : ret = true
  descending : Descending l'
  covers : ∀ page, Covers (fun _ => True) l' page ↔
    Covers (fun _ => True) l page ∨ pgstart ≤ page ∧ page ≤ pgend
  purged : ∀ page, Covers (· = true) l page ∨ purged = true ∧ pgstart ≤ page ∧ page ≤ pgend →
    Covers (· = true) l' page

/-- The induction is on the restarts: each one takes a range out of the list. What was merged
keeps the widened interval from being covered by a single range. -/
theorem ashmemUnpin_unpinned {restarts : ℕ} {purged : Bool} (hle : pgstart ≤ pgend)
    (hl : Descending l) (hlen : l.length ≤ restarts)
    (hout : purged = true → ∃ page, pgstart ≤ page ∧ page ≤ pgend ∧ ¬ Covers (fun _ => True) l page)
    (asma : ℕ) (lru : Lru) :
    Unpinned pgstart pgend purged l
      (ashmemUnpin asma true restarts pgstart pgend purged l lru).1
      (ashmemUnpin asma true restarts pgstart pgend purged l lru).2.1 := by
  induction restarts generalizing pgstart pgend purged l lru with
  | zero =>
    obtain rfl : l = [] := List.length_eq_zero_iff.mp (Nat.le_zero.mp hlen)
    have heq : ashmemUnpin asma true 0 pgstart pgend purged [] lru =
        (true, [⟨lru.next, pgstart, pgend, purged⟩],
          lru.rangeAlloc asma ⟨lru.next, pgstart, pgend, purged⟩) := by
      unfold ashmemUnpin
      rfl
    rw [heq]
    refine ⟨rfl, descending_cons.mpr ⟨hle, by simp, .nil⟩, ?_, ?_⟩ <;> simp [covers_cons]
  | succ restarts ih =>
    have hsplit := scan_splits hle hl
    unfold ashmemUnpin
    cases hscan : scan pgstart pgend l with
    | covered =>
      rw [hscan] at hsplit
      obtain ⟨r, hr, hlo, hhi⟩ := hsplit
      have hcover : ∀ page, pgstart ≤ page → page ≤ pgend → Covers (fun _ => True) l page :=
        fun page h₁ h₂ => ⟨r, hr, trivial, by omega, by omega⟩
      refine ⟨rfl, hl, fun page => ⟨.inl, ?_⟩, fun page => ?_⟩
      · rintro (hcov | ⟨h₁, h₂⟩)
        · exact hcov
        · exact hcover page h₁ h₂
      · rintro (hcov | ⟨hpurged, -⟩)
        · exact hcov
        · obtain ⟨page', h₁, h₂, hnot⟩ := hout hpurged
          exact absurd (hcover page' h₁ h₂) hnot
    | merge before r behind =>
      rw [hscan] at hsplit
      obtain ⟨rfl, hlo, hhi⟩ := hsplit
      have hr := hl.nonempty r (by simp)
      have hle' : min r.pgstart pgstart ≤ max r.pgend pgend := by omega
      have hout' : (purged || r.purged) = true → ∃ page, min r.pgstart pgstart ≤ page ∧
          page ≤ max r.pgend pgend ∧ ¬ Covers (fun _ => True) (before ++ behind) page :=
        fun _ => ⟨r.pgstart, by omega, by omega, hl.not_covers_middle le_rfl hr⟩
      have hnext := ih hle' hl.remove
        (by simp only [length_append, length_cons] at hlen ⊢; omega) hout'
        (lru.rangeDel asma r)
      refine ⟨hnext.success, hnext.descending, fun page => ?_, fun page hpage => ?_⟩
      · refine (hnext.covers page).trans ?_
        rw [covers_append, covers_append, covers_cons]
        constructor
        · rintro ((h | h) | h)
          · exact .inl (.inl h)
          · exact .inl (.inr (.inr h))
          · by_cases hin : pgstart ≤ page ∧ page ≤ pgend
            · exact .inr hin
            · exact .inl (.inr (.inl ⟨trivial, by omega, by omega⟩))
        · rintro ((h | ⟨-, h⟩ | h) | h)
          · exact .inl (.inl h)
          · exact .inr (by omega)
          · exact .inl (.inr h)
          · exact .inr (by omega)
      · apply hnext.purged page
        rw [covers_append, covers_cons] at hpage
        rw [covers_append]
        rcases hpage with (h | ⟨hp, h⟩ | h) | ⟨hp, h⟩
        · exact .inl (.inl h)
        · exact .inr ⟨by simp [hp], by omega⟩
        · exact .inl (.inr h)
        · exact .inr ⟨by simp [hp], by omega⟩
    | insert before behind =>
      rw [hscan] at hsplit
      obtain ⟨rfl, hbefore, hbehind⟩ := hsplit
      refine ⟨rfl, hl.insert hle hbefore hbehind, fun page => ?_, fun page hpage => ?_⟩
      · simp only [if_true, covers_append, covers_cons]
        tauto
      · simp only [if_true, covers_append, covers_cons] at hpage ⊢
        tauto

/-- The walk of `ashmem_get_pin_status` finds a range that meets the pages. -/
theorem ashmemGetPinStatus_iff (hle : pgstart ≤ pgend) (hl : Descending l) :
    ashmemGetPinStatus pgstart pgend l = true ↔
      ∃ page, Covers (fun _ => True) l page ∧ pgstart ≤ page ∧ page ≤ pgend := by
  induction l with
  | nil => simp [ashmemGetPinStatus]
  | cons r l ih =>
    obtain ⟨hr, hlt, hl'⟩ := descending_cons.mp hl
    unfold ashmemGetPinStatus
    split_ifs with hbefore hin
    · simp only [beforePage, decide_eq_true_eq] at hbefore
      have hbelow : ∀ q ∈ r :: l, q.pgend < pgstart := by
        intro q hq
        rcases List.mem_cons.mp hq with rfl | hq
        · exact hbefore
        · have := hlt q hq
          omega
      simp only [false_iff, not_exists, not_and]
      intro page hcover hstart
      have := hcover.lt_of_forall hbelow
      omega
    · rw [rangeIn_iff hr hle] at hin
      simp only [true_iff]
      exact ⟨max r.pgstart pgstart, covers_cons.mpr (.inl ⟨trivial, by omega, by omega⟩), by omega,
        by omega⟩
    · rw [rangeIn_iff hr hle] at hin
      rw [ih hl']
      constructor
      · rintro ⟨page, hcover, hpage⟩
        exact ⟨page, covers_cons.mpr (.inr hcover), hpage⟩
      · rintro ⟨page, hcover, hpage⟩
        rcases covers_cons.mp hcover with ⟨-, h⟩ | hcover
        · omega
        · exact ⟨page, hcover, hpage⟩

/-- The same range, purged perhaps. -/
structure Aged (r r' : Range) : Prop where
  id : r'.id = r.id
  pgstart : r'.pgstart = r.pgstart
  pgend : r'.pgend = r.pgend
  purged : r.purged = true → r'.purged = true

theorem Aged.refl (r : Range) : Aged r r := ⟨rfl, rfl, rfl, fun h => h⟩

theorem Aged.trans {q r' : Range} (h : Aged r q) (h' : Aged q r') : Aged r r' :=
  ⟨h'.id.trans h.id, h'.pgstart.trans h.pgstart, h'.pgend.trans h.pgend,
    fun hp => h'.purged (h.purged hp)⟩

section

variable (h : List.Forall₂ Aged l l')
include h

theorem covers_of_aged (hf : ∀ b b', (b = true → b' = true) → f b → f b')
    (hcover : Covers f l page) : Covers f l' page := by
  induction h with
  | nil => exact hcover
  | @cons r r' l l' hr _ ih =>
    rcases covers_cons.mp hcover with ⟨hfr, hlo, hhi⟩ | hrest
    · exact covers_cons.mpr (.inl ⟨hf _ _ hr.purged hfr, hr.pgstart ▸ hlo, hr.pgend ▸ hhi⟩)
    · exact covers_cons.mpr (.inr (ih hrest))

theorem covers_true_aged : Covers (fun _ => True) l' page ↔ Covers (fun _ => True) l page := by
  induction h with
  | nil => rfl
  | @cons r r' l l' hr _ ih => rw [covers_cons, covers_cons, ih, hr.pgstart, hr.pgend]

theorem Descending.aged (hl : Descending l) : Descending l' := by
  induction h with
  | nil => exact hl
  | @cons r r' l l' hr hrest ih =>
    obtain ⟨hne, hlt, hl⟩ := descending_cons.mp hl
    refine descending_cons.mpr ⟨by rw [hr.pgstart, hr.pgend]; exact hne, ?_, ih hl⟩
    intro q' hq'
    obtain ⟨q, hq, haged⟩ : ∃ q ∈ l, Aged q q' := by
      obtain ⟨i, hi, rfl⟩ := getElem_of_mem hq'
      have hlen := hrest.length_eq
      exact ⟨l[i], getElem_mem _, (List.forall₂_iff_get.mp hrest).2 i (by omega) hi⟩
    rw [haged.pgend, hr.pgstart]
    exact hlt q hq

end

namespace State

variable {s : State}

theorem aged_purge (entry : ℕ × ℕ) (r : Range) (asma : ℕ) :
    List.Forall₂ Aged (s.unpinned asma) ((s.purge entry r).unpinned asma) := by
  simp only [purge, Function.update_apply]
  split_ifs with hasma
  · subst hasma
    rw [forall₂_map_right_iff]
    refine List.forall₂_same.mpr fun q _ => ?_
    split_ifs
    · exact ⟨rfl, rfl, rfl, fun _ => rfl⟩
    · exact .refl q
  · exact List.forall₂_same.mpr fun q _ => .refl q

theorem aged_shrinkLoop (l : List (ℕ × ℕ)) (nrToScan : ℤ) (asma : ℕ) :
    List.Forall₂ Aged (s.unpinned asma) ((shrinkLoop l nrToScan s).2.unpinned asma) := by
  have htrans : ∀ {a b c : List Range}, List.Forall₂ Aged a b → List.Forall₂ Aged b c →
      List.Forall₂ Aged a c := by
    intro a b c hab hbc
    induction hab generalizing c with
    | nil => exact hbc
    | cons hr _ ih =>
      cases hbc with
      | cons hr' hrest' => exact .cons (hr.trans hr') (ih hrest')
  induction l generalizing s nrToScan with
  | nil => exact List.forall₂_same.mpr fun q _ => .refl q
  | cons entry l ih =>
    unfold shrinkLoop
    split
    · exact ih nrToScan
    next r _ =>
      dsimp only
      split_ifs
      · exact aged_purge entry r asma
      · exact htrans (aged_purge entry r asma) (ih _)

theorem aged_shrink (nrToScan : ℤ) (fs : Bool) (asma : ℕ) :
    List.Forall₂ Aged (s.unpinned asma) ((s.shrink nrToScan fs).2.unpinned asma) := by
  unfold shrink
  split_ifs
  · exact List.forall₂_same.mpr fun q _ => .refl q
  · exact aged_shrinkLoop _ _ _

/-- The unpinned pages of an area. -/
def unpinnedPages (s : State) (asma : ℕ) : Set ℕ :=
  { page | Covers (fun _ => True) (s.unpinned asma) page }

/-- Every area's list is in order. -/
def Ordered (s : State) : Prop := ∀ asma, Descending (s.unpinned asma)

theorem pin_unpinned (s : State) (asma lo hi : ℕ) (alloc : Bool) :
    (s.pin asma alloc lo hi).2.unpinned asma =
      (ashmemPin asma alloc lo hi (s.unpinned asma) s.lru).2.1 := by
  simp [pin]

theorem unpin_unpinned (s : State) (asma lo hi : ℕ) (alloc : Bool) :
    (s.unpin asma alloc lo hi).2.unpinned asma =
      (ashmemUnpin asma alloc (s.unpinned asma).length lo hi false (s.unpinned asma)
        s.lru).2.1 := by
  simp [unpin]

theorem Ordered.pinned (h : s.Ordered) (asma : ℕ) {lo hi : ℕ} (hle : lo ≤ hi) :
    Pinned lo hi (s.unpinned asma) (s.pin asma true lo hi).1
      ((s.pin asma true lo hi).2.unpinned asma) := by
  rw [pin_unpinned]
  exact ashmemPin_pinned hle (h asma) asma s.lru

theorem Ordered.unpinned (h : s.Ordered) (asma : ℕ) {lo hi : ℕ} (hle : lo ≤ hi) :
    Unpinned lo hi false (s.unpinned asma) (s.unpin asma true lo hi).1
      ((s.unpin asma true lo hi).2.unpinned asma) := by
  rw [unpin_unpinned]
  exact ashmemUnpin_unpinned hle (h asma) le_rfl (by simp) asma s.lru

end State

/-- The pages are an interval that is not empty, and `range_alloc` succeeds. -/
def Op.Fits : Op → Prop
  | .pin _ alloc pgstart pgend | .unpin _ alloc pgstart pgend => pgstart ≤ pgend ∧ alloc = true
  | .shrink _ _ => True

namespace State

variable {s : State}

theorem Ordered.step (op : Op) (h : s.Ordered) (hop : op.Fits) : (s.step op).Ordered := by
  intro asma
  cases op with
  | pin asma' alloc lo hi =>
    obtain ⟨hle, rfl⟩ := hop
    by_cases hasma : asma = asma'
    · subst hasma
      exact (h.pinned asma hle).descending
    · simpa [State.step, pin, hasma] using h asma
  | unpin asma' alloc lo hi =>
    obtain ⟨hle, rfl⟩ := hop
    by_cases hasma : asma = asma'
    · subst hasma
      exact (h.unpinned asma hle).descending
    · simpa [State.step, unpin, hasma] using h asma
  | shrink nrToScan fs => exact (h asma).aged (aged_shrink nrToScan fs asma)

theorem Ordered.run {ops : List Op} (h : s.Ordered) (hops : ∀ op ∈ ops, op.Fits) :
    (ops.foldl State.step s).Ordered := by
  induction ops generalizing s with
  | nil => exact h
  | cons op ops ih =>
    exact ih (h.step op (hops op (by simp))) fun op' hop' => hops op' (by simp [hop'])

end State

/-- In every state that pinning, unpinning and shrinking can reach, the unpinned list of an area
is strictly descending, and each operation does to the set of its pages what it is for. -/
theorem unpinned_list_is_set {ops : List Op} (hops : ∀ op ∈ ops, op.Fits) (asma : ℕ) :
    let s := ops.foldl step init
    Descending (s.unpinned asma) ∧ (∀ lo hi, lo ≤ hi → (s.unpin asma true lo hi).1 = true ∧
        (s.unpin asma true lo hi).2.unpinnedPages asma = s.unpinnedPages asma ∪ Set.Icc lo hi ∧
        (s.pin asma true lo hi).2.unpinnedPages asma = s.unpinnedPages asma \ Set.Icc lo hi ∧
        (ashmemGetPinStatus lo hi (s.unpinned asma) = true ↔
          (s.unpinnedPages asma ∩ Set.Icc lo hi).Nonempty)) ∧
      ∀ nrToScan fs, (s.shrink nrToScan fs).2.unpinnedPages asma = s.unpinnedPages asma := by
  intro s
  have hordered : s.Ordered := State.Ordered.run (fun _ => .nil) hops
  refine ⟨hordered asma, fun lo hi hle => ⟨?_, ?_, ?_, ?_⟩, fun nrToScan fs => ?_⟩
  · exact (hordered.unpinned asma hle).success
  · ext page
    exact (hordered.unpinned asma hle).covers page
  · ext page
    exact (hordered.pinned asma hle).covers (fun _ => True) page
  · exact ashmemGetPinStatus_iff hle (hordered asma)
  · ext page
    exact covers_true_aged (aged_shrink nrToScan fs asma)

/-- The same after pages 1 to 3 are unpinned and page 2 is pinned again. -/
theorem unpinned_list_is_set_hole :
    let s := [Op.unpin 0 true 1 3, Op.pin 0 true 2 2].foldl step init
    (s.unpin 0 true 0 5).2.unpinnedPages 0 = s.unpinnedPages 0 ∪ Set.Icc 0 5 :=
  have hops : ∀ op ∈ [Op.unpin 0 true 1 3, Op.pin 0 true 2 2], op.Fits := by simp [Op.Fits]
  ((unpinned_list_is_set hops 0).2.1 0 5 (by decide)).2.1

end AndroidKernel.Ashmem
