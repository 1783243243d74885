import AndroidKernel.Ashmem.PinSets

/-!
# Requests to pin and unpin

The checks of `ashmem_pin_unpin`, in the 32-bit arithmetic of the code, and what they say about
the ranges on the unpinned lists.
-/

namespace AndroidKernel.Ashmem

open Function List State

/-- `PAGE_ALIGN`, with pages of 4096 bytes -/
def pageAlign (size : BitVec 32) : ℕ := (size.toNat + 4095) % 2 ^ 32 / 4096 * 4096

/-- The checks of `ashmem_pin_unpin`, and the pages that it hands on. -/
def pageRange (size offset len : BitVec 32) : Option (ℕ × ℕ) :=
  let offset := offset.toNat
  let len := if len.toNat = 0 then (pageAlign size + 2 ^ 32 - offset) % 2 ^ 32 else len.toNat
  if offset % 4096 ≠ 0 ∨ len % 4096 ≠ 0 then none
  else if 2 ^ 32 - 1 - offset < len then none
  else if pageAlign size < (offset + len) % 2 ^ 32 then none
  else some (offset / 4096, (offset / 4096 + len / 4096 + 2 ^ 32 - 1) % 2 ^ 32)

variable (size : ℕ → BitVec 32) (s : State) {asma : ℕ} {purged : Bool} {lru : Lru}
  {result : Bool × List Range × Lru}

/-- `ashmem_release` -/
def State.release (asma : ℕ) : State where
  unpinned := update s.unpinned asma []
  lru := (s.unpinned asma).foldl (fun lru r => lru.rangeDel asma r) s.lru

/-- What can be asked of the driver: a pin or an unpin comes from user space, with its offset and
its length. -/
inductive Request where
  | pin (asma : ℕ) (alloc : Bool) (offset len : BitVec 32)
  | unpin (asma : ℕ) (alloc : Bool) (offset len : BitVec 32)
  | shrink (nrToScan : ℤ) (fs : Bool)
  | release (asma : ℕ)

/-- The areas after a request. An area's size is fixed from its first `mmap` on, and before that
`ashmem_pin_unpin` refuses every request. -/
def State.request : Request → State
  | .pin asma alloc offset len =>
    match pageRange (size asma) offset len with
    | none => s
    | some (pgstart, pgend) => s.step (.pin asma alloc pgstart pgend)
  | .unpin asma alloc offset len =>
    match pageRange (size asma) offset len with
    | none => s
    | some (pgstart, pgend) => s.step (.unpin asma alloc pgstart pgend)
  | .shrink nrToScan fs => s.step (.shrink nrToScan fs)
  | .release asma => s.release asma

/-- The areas after a run of requests. -/
def State.requests (rs : List Request) : State := rs.foldl (request size) init

/-- The whole rest of an area asked for at its end. -/
def AtEnd (size offset len : BitVec 32) : Prop := len = 0 ∧ offset.toNat = pageAlign size

/-- At the end of an area the rest is empty, and so is the range put on its list. -/
theorem empty_range_at_end : pageRange 4096 4096 0 = some (1, 0) ∧
      (requests (fun _ => 4096) [.unpin 0 true 4096 0]).unpinned 0 = [⟨0, 1, 0, false⟩] := by
  decide +kernel

/-- What the checks let through: pages inside the area, or the empty rest at its end. -/
def InArea (pages pgstart pgend : ℕ) : Prop :=
  (pgstart ≤ pgend ∧ pgend < pages) ∨
    (pgstart = pages ∧ pgend < 2 ^ 32 ∧ (pgend + 1) % 2 ^ 32 = pages)

theorem pageRange_inArea {size offset len : BitVec 32} {pgstart pgend : ℕ}
    (h : pageRange size offset len = some (pgstart, pgend)) :
    InArea (pageAlign size / 4096) pgstart pgend ∧
      (pgstart ≤ pgend ∧ pgend < pageAlign size / 4096 ↔ ¬ AtEnd size offset len) := by
  have hoffset := offset.isLt
  have hlen := len.isLt
  have hzero : len = 0 ↔ len.toNat = 0 := by simp [BitVec.toNat_eq]
  have halign : pageAlign size % 4096 = 0 ∧ pageAlign size < 2 ^ 32 := by
    unfold pageAlign
    omega
  unfold pageRange at h
  unfold InArea AtEnd
  rw [hzero]
  generalize pageAlign size = total at *
  generalize offset.toNat = offset at *
  generalize len.toNat = len at *
  dsimp only at h
  split_ifs at h with hbits hwrap hbound hbits hwrap hbound
  all_goals
    obtain ⟨rfl, rfl⟩ := Prod.mk.inj (Option.some.inj h)
    omega

/-- What holds of the ranges handed to `pin` and `unpin` holds of the ranges on the list, if it
survives merging and cutting. -/
structure Kept (P : ℕ → ℕ → Prop) : Prop where
  merge {a b p q : ℕ} : P a b → P p q → P (min a p) (max b q)
  front {r : Range} {p q : ℕ} : P r.pgstart r.pgend → P p q → r.rangeIn p q = true →
    q < r.pgend → P (q + 1) r.pgend
  back {r : Range} {p q : ℕ} : P r.pgstart r.pgend → P p q → r.rangeIn p q = true →
    r.pgstart < p → P r.pgstart (p - 1)

section Kept

variable {P : ℕ → ℕ → Prop} {l : List Range} {pgstart pgend : ℕ}

theorem Kept.ashmemPin (h : Kept P) (hp : P pgstart pgend)
    (hl : ∀ r ∈ l, P r.pgstart r.pgend) (asma : ℕ) (alloc : Bool) (lru : Lru) :
    ∀ r ∈ (ashmemPin asma alloc pgstart pgend l lru).2.1, P r.pgstart r.pgend := by
  induction l generalizing lru with
  | nil => exact hl
  | cons r l ih =>
    obtain ⟨hr, hl'⟩ := List.forall_mem_cons.mp hl
    unfold Ashmem.ashmemPin
    split_ifs with hbefore hin hsub hstart hend halloc
    · exact hl
    · exact ih hl' _
    · simp only [Range.subsumes, Bool.and_eq_true, decide_eq_true_eq, not_and] at hsub
      have hfront := h.front hr hp hin (by have := hsub hstart; omega)
      exact List.forall_mem_cons.mpr ⟨hfront, ih hl' _⟩
    · have hback := h.back hr hp hin (by omega)
      exact List.forall_mem_cons.mpr ⟨hback, ih hl' _⟩
    · have hfront := h.front hr hp hin (by omega)
      have hback := h.back hr hp hin (by omega)
      exact List.forall_mem_cons.mpr ⟨hfront, List.forall_mem_cons.mpr ⟨hback, hl'⟩⟩
    · have hback := h.back hr hp hin (by omega)
      exact List.forall_mem_cons.mpr ⟨hback, hl'⟩
    · exact List.forall_mem_cons.mpr ⟨hr, ih hl' _⟩

theorem scan_eq_append (l : List Range) (pgstart pgend : ℕ) :
    match scan pgstart pgend l with
    | .covered => True
    | .merge before r behind => l = before ++ r :: behind
    | .insert before behind => l = before ++ behind := by
  induction l with
  | nil => rfl
  | cons r l ih =>
    unfold scan
    split_ifs
    · rfl
    · trivial
    · rfl
    · cases hscan : scan pgstart pgend l with
      | covered => trivial
      | merge before q behind | insert before behind =>
        rw [hscan] at ih
        exact congrArg (r :: ·) ih

/-- The ways in which `ashmem_unpin` goes over a list, with what it returns and leaves. -/
inductive UnpinRun (asma : ℕ) (alloc : Bool) :
    ℕ → ℕ → Bool → List Range → Lru → Bool × List Range × Lru → Prop
  | covered (pgstart pgend : ℕ) (purged : Bool) (l : List Range) (lru : Lru) :
      UnpinRun asma alloc pgstart pgend purged l lru (true, l, lru)
  | merge {pgstart pgend : ℕ} {purged : Bool} {before behind : List Range} {r : Range} {lru : Lru}
      {result : Bool × List Range × Lru}
      (h : UnpinRun asma alloc (min r.pgstart pgstart) (max r.pgend pgend) (purged || r.purged)
        (before ++ behind) (lru.rangeDel asma r) result) :
      UnpinRun asma alloc pgstart pgend purged (before ++ r :: behind) lru result
  | insert (pgstart pgend : ℕ) (purged : Bool) (before behind : List Range) (lru : Lru)
      (h : alloc = true) :
      UnpinRun asma alloc pgstart pgend purged (before ++ behind) lru
        (true, before ++ ⟨lru.next, pgstart, pgend, purged⟩ :: behind,
          lru.rangeAlloc asma ⟨lru.next, pgstart, pgend, purged⟩)
  | fail (pgstart pgend : ℕ) (purged : Bool) (l : List Range) (lru : Lru) :
      UnpinRun asma alloc pgstart pgend purged l lru (false, l, lru)

theorem ashmemUnpin_run (asma : ℕ) (alloc : Bool) {restarts : ℕ} (pgstart pgend : ℕ)
    (purged : Bool) (l : List Range) (lru : Lru) :
    UnpinRun asma alloc pgstart pgend purged l lru
      (ashmemUnpin asma alloc restarts pgstart pgend purged l lru) := by
  induction restarts generalizing pgstart pgend purged l lru with
  | zero =>
    have hsplit := scan_eq_append l pgstart pgend
    unfold ashmemUnpin
    cases hscan : scan pgstart pgend l with
    | covered => exact .covered ..
    | merge before r behind => exact .fail ..
    | insert before behind =>
      rw [hscan] at hsplit
      subst hsplit
      dsimp only
      split_ifs with halloc
      · exact .insert _ _ _ _ _ _ halloc
      · exact .fail ..
  | succ restarts ih =>
    have hsplit := scan_eq_append l pgstart pgend
    unfold ashmemUnpin
    cases hscan : scan pgstart pgend l with
    | covered => exact .covered ..
    | merge before r behind =>
      rw [hscan] at hsplit
      subst hsplit
      exact .merge (ih ..)
    | insert before behind =>
      rw [hscan] at hsplit
      subst hsplit
      dsimp only
      split_ifs with halloc
      · exact .insert _ _ _ _ _ _ halloc
      · exact .fail ..

theorem Kept.unpinRun (h : Kept P) {alloc : Bool}
    (hrun : UnpinRun asma alloc pgstart pgend purged l lru result) (hp : P pgstart pgend)
    (hl : ∀ r ∈ l, P r.pgstart r.pgend) : ∀ r ∈ result.2.1, P r.pgstart r.pgend := by
  induction hrun with
  | covered => exact hl
  | fail => exact hl
  | merge _ ih =>
    rw [forall_mem_append, forall_mem_cons] at hl
    exact ih (h.merge hl.2.1 hp) (List.forall_mem_append.mpr ⟨hl.1, hl.2.2⟩)
  | insert =>
    rw [forall_mem_append] at hl
    exact List.forall_mem_append.mpr ⟨hl.1, List.forall_mem_cons.mpr ⟨hp, hl.2⟩⟩

theorem forall_mem_aged {l' : List Range} (h : List.Forall₂ Aged l l')
    (hl : ∀ r ∈ l, P r.pgstart r.pgend) : ∀ r ∈ l', P r.pgstart r.pgend := by
  induction h with
  | nil => exact hl
  | cons haged _ ih =>
    obtain ⟨hr, hl⟩ := List.forall_mem_cons.mp hl
    refine List.forall_mem_cons.mpr ⟨?_, ih hl⟩
    rwa [haged.pgstart, haged.pgend]

end Kept

/-- Every range on a list is one that `P` allows for its area. -/
def State.Ranges (P : ℕ → ℕ → ℕ → Prop) (s : State) : Prop :=
  ∀ asma, ∀ r ∈ s.unpinned asma, P asma r.pgstart r.pgend

/-- The pages that a request hands to `pin` or `unpin` are among those that `P` allows. -/
def Request.Allowed (P : ℕ → ℕ → ℕ → Prop) : Request → Prop
  | .pin asma _ offset len | .unpin asma _ offset len =>
    ∀ pgstart pgend, pageRange (size asma) offset len = some (pgstart, pgend) → P asma pgstart pgend
  | .shrink _ _ | .release _ => True

section Ranges

variable {P : ℕ → ℕ → ℕ → Prop} {s : State} {size : ℕ → BitVec 32}

theorem State.Ranges.update (h : s.Ranges P) {l : List Range}
    (hl : ∀ r ∈ l, P asma r.pgstart r.pgend) :
    Ranges P ⟨update s.unpinned asma l, lru⟩ := by
  intro a
  rcases eq_or_ne a asma with rfl | hne
  · simpa using hl
  · simpa [hne] using h a

theorem State.Ranges.request (h : s.Ranges P) (hP : ∀ asma, Kept (P asma)) (r : Request)
    (hr : r.Allowed size P) : (s.request size r).Ranges P := by
  cases r with
  | pin asma alloc offset len =>
    dsimp only [State.request]
    split
    case h_1 => exact h
    case h_2 pgstart pgend hrange =>
      exact h.update ((hP asma).ashmemPin (hr pgstart pgend hrange) (h asma) asma alloc s.lru)
  | unpin asma alloc offset len =>
    dsimp only [State.request]
    split
    case h_1 => exact h
    case h_2 pgstart pgend hrange =>
      exact h.update ((hP asma).unpinRun (ashmemUnpin_run ..) (hr pgstart pgend hrange) (h asma))
  | shrink nrToScan fs => exact fun asma => forall_mem_aged (aged_shrink nrToScan fs asma) (h asma)
  | release asma => exact h.update (by simp)

theorem State.Ranges.requests (hP : ∀ asma, Kept (P asma)) {rs : List Request}
    (hrs : ∀ r ∈ rs, r.Allowed size P) : (requests size rs).Ranges P := by
  have hrun (s : State) (h : s.Ranges P) : (rs.foldl (State.request size) s).Ranges P := by
    induction rs generalizing s with
    | nil => exact h
    | cons r rs ih =>
      obtain ⟨hr, hrs⟩ := List.forall_mem_cons.mp hrs
      exact ih hrs _ (h.request hP r hr)
  exact hrun init fun asma r hr => absurd hr not_mem_nil

end Ranges

/-- The request does not ask for the rest of an area at its end. -/
def Request.NotAtEnd : Request → Prop
  | .pin asma _ offset len | .unpin asma _ offset len => ¬ AtEnd (size asma) offset len
  | .shrink _ _ | .release _ => True

theorem kept_inside (pages : ℕ) : Kept fun pgstart pgend => pgstart ≤ pgend ∧ pgend < pages where
  merge h h' := by omega
  front h _ _ hlt := by omega
  back h h' _ hlt := by omega

/-- The pages of an accepted request are in order and inside the area exactly if it is not for the
rest of the area at its end; and in a run of such requests, with any failures of `range_alloc`, so
is every range that is put on an unpinned list. -/
theorem ranges_inside_area (size : ℕ → BitVec 32) (rs : List Request)
    (hrs : ∀ r ∈ rs, r.NotAtEnd size) :
    (∀ area offset len pgstart pgend, pageRange area offset len = some (pgstart, pgend) →
      (pgstart ≤ pgend ∧ pgend < pageAlign area / 4096 ↔ ¬ AtEnd area offset len)) ∧
      ∀ asma, ∀ r ∈ (requests size rs).unpinned asma,
        r.pgstart ≤ r.pgend ∧ r.pgend < pageAlign (size asma) / 4096 := by
  refine ⟨fun area offset len pgstart pgend h => (pageRange_inArea h).2, ?_⟩
  refine Ranges.requests (fun asma => kept_inside (pageAlign (size asma) / 4096)) ?_
  intro r hr
  have hend := hrs r hr
  cases r with
  | pin asma alloc offset len | unpin asma alloc offset len =>
    exact fun _ _ h => (pageRange_inArea h).2.mpr hend
  | shrink nrToScan fs => trivial
  | release asma => trivial

theorem ranges_inside_area_onePage :
    ⟨0, 0, 0, false⟩ ∈ (requests (fun _ => 4096) [.unpin 0 true 0 0]).unpinned 0 ∧
      0 ≤ 0 ∧ 0 < pageAlign 4096 / 4096 := by
  have hmem : ⟨0, 0, 0, false⟩ ∈ (requests (fun _ => 4096) [.unpin 0 true 0 0]).unpinned 0 := by
    decide +kernel
  exact ⟨hmem, (ranges_inside_area (fun _ => 4096) [.unpin 0 true 0 0]
    (by simp [Request.NotAtEnd, AtEnd, pageAlign])).2 0 _ hmem⟩

/-- A merged range is off the list when `range_alloc` fails. -/
theorem failed_unpin_drops_range :
    let s := init.step (.unpin 0 true 0 0)
    s.unpinned 0 = [⟨0, 0, 0, false⟩] ∧ s.lru.count = 1 ∧ (s.unpin 0 false 0 1).1 = false ∧
      (s.unpin 0 false 0 1).2.unpinned 0 = [] ∧ (s.unpin 0 false 0 1).2.lru.count = 0 := by
  decide +kernel

/-- The first pass of `ashmem_unpin` meets no range to merge with. -/
def NoMerge (pgstart pgend : ℕ) (l : List Range) : Prop :=
  ∀ before r behind, scan pgstart pgend l ≠ .merge before r behind

theorem UnpinRun.length_le {alloc : Bool} {pgstart pgend : ℕ} {l : List Range}
    (h : UnpinRun asma alloc pgstart pgend purged l lru result) (hfail : result.1 = false) :
    result.2.1.length ≤ l.length := by
  induction h with
  | covered => cases hfail
  | insert => cases hfail
  | fail => exact le_rfl
  | merge _ ih =>
    have := ih hfail
    simp only [length_append, length_cons] at this ⊢
    omega

/-- A failed unpin leaves everything as it was if and only if it had no range to merge with. -/
theorem failed_unpin_unchanged_iff (s : State) (asma : ℕ) (alloc : Bool) (pgstart pgend : ℕ)
    (hfail : (s.unpin asma alloc pgstart pgend).1 = false) :
    (s.unpin asma alloc pgstart pgend).2 = s ↔ NoMerge pgstart pgend (s.unpinned asma) := by
  have hsplit := scan_eq_append (s.unpinned asma) pgstart pgend
  unfold unpin ashmemUnpin at hfail ⊢
  unfold NoMerge
  cases hscan : scan pgstart pgend (s.unpinned asma) with
  | covered =>
    rw [hscan] at hfail
    cases hfail
  | merge before r behind =>
    rw [hscan] at hfail hsplit
    have hlen : (s.unpinned asma).length = (before ++ behind).length + 1 := by
      rw [hsplit]
      simp only [length_append, length_cons]
      omega
    rw [hlen] at hfail ⊢
    -- the list that is left lacks the range that was merged
    have hle := (ashmemUnpin_run asma alloc _ _ _ _ _).length_le hfail
    refine iff_of_false (fun heq => ?_) fun h => h before r behind rfl
    have hlist := congrArg (fun s => (s.unpinned asma).length) heq
    simp only [update_self] at hlist
    have := hlist.symm.trans_le hle
    omega
  | insert before behind =>
    rw [hscan] at hfail hsplit
    dsimp only at hfail hsplit ⊢
    cases alloc with
    | true => cases hfail
    | false =>
      refine iff_of_true ?_ (by simp)
      rw [if_neg (by decide), ← hsplit, update_eq_self]

/-- A new range away from the others. -/
theorem failed_unpin_unchanged_iff_apart :
    ((init.step (.unpin 0 true 0 0)).unpin 0 false 2 3).2 = init.step (.unpin 0 true 0 0) ↔
      NoMerge 2 3 ((init.step (.unpin 0 true 0 0)).unpinned 0) :=
  failed_unpin_unchanged_iff _ 0 false 2 3 (by decide +kernel)

end AndroidKernel.Ashmem
