import AndroidKernel.Locks.Finish

/-!
# Runs of lock requests on an inode

The lock list of an inode is in order over every run of lock requests, and each request changes the
map of its owner on its own interval or nothing at all. Locks of `flock` and leases stand before all
POSIX locks; they may change between requests.
-/

namespace AndroidKernel.Locks

open List

variable {ω : Type} [DecidableEq ω] {flock A S S' B : List (FileLock ω)} {request : Request ω}
  {answers : Answers} {o : ω} {x : ℤ}

/-- The POSIX locks of an owner. -/
def locksOf (o : ω) (flock : List (FileLock ω)) : List (FileLock ω) :=
  flock.filter fun fl => fl.isPosix && fl.owner = o

/-- What an owner has at an offset. -/
def lockedAs (flock : List (FileLock ω)) (o : ω) (x : ℤ) : LockType :=
  match (locksOf o flock).find? fun fl => fl.start ≤ x ∧ x ≤ fl.stop with
  | some fl => fl.type
  | none => .unlck

/-- What holds of the lock list of an inode. -/
structure Arranged (flock : List (FileLock ω)) : Prop where
  posix_last : flock.Pairwise fun l m => l.isPosix = true → m.isPosix = true
  contiguous : ∀ l m n, [l, m, n].Sublist flock → l.isPosix = true → l.owner = n.owner →
    m.owner = l.owner
  tidy : ∀ o, Tidy (locksOf o flock)
  no_conflict : ∀ o o' x, o ≠ o' → lockedAs flock o x = .wrlck → lockedAs flock o' x = .unlck

/-- The lock lists an inode can have. -/
inductive Reachable : List (FileLock ω) → Prop
  | empty : Reachable []
  | lock {flock : List (FileLock ω)} (request : Request ω) (answers : Answers)
      (h : Reachable flock) : Reachable (posixLockFile request answers flock).2
  /-- `flock_lock_file` and `generic_setlease` change the locks before the POSIX locks. -/
  | other {front front' posix : List (FileLock ω)} (hfront : ∀ fl ∈ front, fl.isPosix = false)
      (hfront' : ∀ fl ∈ front', fl.isPosix = false) (hposix : ∀ fl ∈ posix, fl.isPosix = true)
      (h : Reachable (front ++ posix)) : Reachable (front' ++ posix)

theorem locksOf_append : locksOf o (A ++ B) = locksOf o A ++ locksOf o B := filter_append ..

theorem locksOf_eq_nil (h : ∀ fl ∈ A, fl.isPosix = true → fl.owner ≠ o) : locksOf o A = [] := by
  simpa [locksOf] using h

theorem locksOf_eq_self (h : ∀ fl ∈ S, fl.isPosix = true ∧ fl.owner = o) : locksOf o S = S := by
  simpa [locksOf] using h

theorem covers_locksOf_iff {t : LockType} (h : Tidy (locksOf o flock)) (ht : t ≠ .unlck) :
    Covers (locksOf o flock) x t ↔ lockedAs flock o x = t := by
  unfold lockedAs
  cases hfind : (locksOf o flock).find? (fun fl => fl.start ≤ x ∧ x ≤ fl.stop) with
  | none =>
    refine ⟨?_, fun heq => absurd heq.symm ht⟩
    rintro ⟨l, hl, -, hx⟩
    exact absurd hx (by simpa using List.find?_eq_none.mp hfind l hl)
  | some l =>
    have hl : Covers (locksOf o flock) x l.type :=
      ⟨l, mem_of_find?_eq_some hfind, rfl, by simpa using List.find?_some hfind⟩
    exact ⟨fun hcov => h.covers_unique hl hcov, fun heq => heq ▸ hl⟩

theorem LockType.eq_of_iff {t t' : LockType} (h : ∀ u, u ≠ .unlck → (t = u ↔ t' = u)) : t = t' := by
  have hr := h .rdlck (by decide)
  have hw := h .wrlck (by decide)
  cases t <;> cases t' <;> simp_all

/-- The list around the locks of an owner. -/
structure Around (o : ω) (flock A S B : List (FileLock ω)) : Prop where
  eq : flock = A ++ S ++ B
  before : flock.takeWhile (skipped o) = A
  after : flock.dropWhile (skipped o) = S ++ B
  own : ∀ fl ∈ S, fl.isPosix = true ∧ fl.owner = o
  not_own : ∀ fl ∈ A, fl.isPosix = true → fl.owner ≠ o
  behind : ∀ fl ∈ B, fl.isPosix = true ∧ fl.owner ≠ o
  last : S = [] → B = []

theorem Around.locksOf_eq (h : Around o flock A S B) : locksOf o flock = S := by
  rw [h.eq, locksOf_append, locksOf_append, locksOf_eq_nil h.not_own, locksOf_eq_self h.own,
    locksOf_eq_nil fun fl hfl _ => (h.behind fl hfl).2]
  simp

theorem Arranged.around (h : Arranged flock) (o : ω) : ∃ A S B, Around o flock A S B := by
  have hsplit : flock.takeWhile (skipped o) ++ flock.dropWhile (skipped o) = flock :=
    takeWhile_append_dropWhile
  have hA : ∀ fl ∈ flock.takeWhile (skipped o), fl.isPosix = true → fl.owner ≠ o := by
    intro fl hfl hposix
    have := List.all_eq_true.mp (all_takeWhile (l := flock) (p := skipped o)) fl hfl
    simp only [skipped, hposix, Bool.not_true, Bool.false_or, decide_eq_true_eq] at this
    exact this.symm
  cases hD : flock.dropWhile (skipped o) with
  | nil =>
    refine ⟨flock.takeWhile (skipped o), [], [], ?_, rfl, by simpa using hD, by simp, hA, by simp,
      fun _ => rfl⟩
    simpa [hD] using hsplit.symm
  | cons d D =>
    have hd : d.isPosix = true ∧ d.owner = o := by
      have hhead := List.head?_dropWhile_not (skipped o) flock
      simp only [hD, List.head?_cons, skipped, Bool.or_eq_false_iff, Bool.not_eq_false',
        decide_eq_false_iff_not, not_not] at hhead
      exact ⟨hhead.1, hhead.2.symm⟩
    have hsub : (d :: D).Sublist flock := hD ▸ dropWhile_sublist _
    have hposix : ∀ fl ∈ D, fl.isPosix = true := fun fl hfl =>
      (List.pairwise_cons.mp (h.posix_last.sublist hsub)).1 fl hfl hd.1
    set p : FileLock ω → Bool := fun fl => fl.owner = o with hp
    have hDsplit : D.takeWhile p ++ D.dropWhile p = D := takeWhile_append_dropWhile
    refine ⟨flock.takeWhile (skipped o), d :: D.takeWhile p, D.dropWhile p, ?_, rfl, ?_, ?_, hA,
      ?_, by simp⟩
    · rw [append_assoc, cons_append, hDsplit, ← hD, hsplit]
    · rw [cons_append, hDsplit, hD]
    · intro fl hfl
      rcases List.mem_cons.mp hfl with rfl | hfl
      · exact hd
      · have := List.all_eq_true.mp (all_takeWhile (l := D) (p := p)) fl hfl
        exact ⟨hposix fl ((takeWhile_sublist p).subset hfl), by simpa [hp] using this⟩
    · intro fl hfl
      refine ⟨hposix fl ((dropWhile_sublist p).subset hfl), fun howner => ?_⟩
      -- the first lock behind has another owner, and so cannot stand between two of this one
      cases hB : D.dropWhile p with
      | nil => simp [hB] at hfl
      | cons b B =>
        have hb : b.owner ≠ o := by
          have hhead := List.head?_dropWhile_not p D
          rw [hB] at hhead
          simpa [hp] using hhead
        rw [hB] at hfl
        rcases List.mem_cons.mp hfl with rfl | hfl
        · exact hb howner
        · have htriple : [d, b, fl].Sublist flock := by
            refine List.Sublist.trans ?_ hsub
            refine List.Sublist.cons_cons d (List.Sublist.trans ?_ (dropWhile_sublist p))
            rw [hB]
            exact List.Sublist.cons_cons b (List.singleton_sublist.mpr hfl)
          exact hb ((h.contiguous d b fl htriple hd.1 (hd.2.trans howner.symm)).trans hd.2)

section

variable (h : Around o flock A S B) (hS' : ∀ fl ∈ S', fl.isPosix = true ∧ fl.owner = o)
include h hS'

theorem Around.locksOf_other {o' : ω} (hne : o' ≠ o) :
    locksOf o' (A ++ S' ++ B) = locksOf o' flock := by
  have hnil {T : List (FileLock ω)} (hT : ∀ fl ∈ T, fl.isPosix = true ∧ fl.owner = o) :
      locksOf o' T = [] := locksOf_eq_nil fun fl hfl _ heq => hne (heq.symm.trans (hT fl hfl).2)
  simp only [h.eq, locksOf_append, hnil hS', hnil h.own]

theorem Around.locksOf_own : locksOf o (A ++ S' ++ B) = S' := by
  rw [locksOf_append, locksOf_append, locksOf_eq_nil h.not_own, locksOf_eq_self hS',
    locksOf_eq_nil fun fl hfl _ => (h.behind fl hfl).2]
  simp

end

/-- A lock list with other locks of one owner in the same place is still contiguous. -/
theorem Around.contiguous (h : Around o flock A S B) (hflock : Arranged flock)
    (hS' : ∀ fl ∈ S', fl.isPosix = true ∧ fl.owner = o) {l m n : FileLock ω}
    (hsub : [l, m, n].Sublist (A ++ S' ++ B)) (hl : l.isPosix = true) (hln : l.owner = n.owner) :
    m.owner = l.owner := by
  obtain ⟨T, l₃, hT, hsubT, hl₃⟩ := List.sublist_append_iff.mp hsub
  obtain ⟨l₁, l₂, rfl, hl₁, hl₂⟩ := List.sublist_append_iff.mp hsubT
  have hAB : (A ++ B).Sublist flock := by
    rw [h.eq]
    exact (sublist_append_left A S).append_right B
  cases l₂ with
  | nil =>
    -- all three stand around the locks of `o`
    refine hflock.contiguous l m n ?_ hl hln
    rw [hT, append_nil]
    exact (hl₁.append hl₃).trans hAB
  | cons a l₂ =>
    have ha : a.owner = o := (hS' a (hl₂.subset (by simp))).2
    cases l₁ with
    | nil =>
      obtain ⟨rfl, hmn⟩ : l = a ∧ [m, n] = l₂ ++ l₃ := by simpa using hT
      have hn : n ∉ l₃ := fun hn => (h.behind n (hl₃.subset hn)).2 (hln.symm.trans ha)
      have hm : m ∈ l₂ := by
        rcases l₂ with _ | ⟨b, l₂⟩
        · simp only [nil_append] at hmn
          simp [← hmn] at hn
        · simp only [cons_append, List.cons.injEq] at hmn
          simp [hmn.1]
      rw [ha, (hS' m (hl₂.subset (by simp [hm]))).2]
    | cons b l₁ =>
      obtain ⟨rfl, hmn⟩ : l = b ∧ [m, n] = l₁ ++ a :: l₂ ++ l₃ := by simpa using hT
      have hlA := h.not_own l (hl₁.subset (by simp)) hl
      have hn : n ∉ a :: l₂ := fun hn => hlA (hln.trans (hS' n (hl₂.subset hn)).2)
      obtain ⟨rfl, rfl, rfl, rfl⟩ : l₁ = [] ∧ m = a ∧ l₂ = [] ∧ l₃ = [n] := by
        rcases l₁ with _ | ⟨c, l₁⟩
        · rcases l₂ with _ | ⟨d, l₂⟩
          · simp only [nil_append, cons_append, List.cons.injEq] at hmn
            exact ⟨rfl, hmn.1, rfl, hmn.2.symm⟩
          · simp only [nil_append, cons_append, List.cons.injEq] at hmn
            simp [hmn.2.1] at hn
        · simp only [cons_append, append_assoc, List.cons.injEq] at hmn
          rcases l₁ with _ | ⟨e, l₁⟩
          · simp only [nil_append, List.cons.injEq] at hmn
            simp [hmn.2.1] at hn
          · simp at hmn
      -- a lock of `o` that stood between the two would have had their owner
      cases hS : S with
      | nil => simp [h.last hS] at hl₃
      | cons s S₀ =>
        have hs := (h.own s (by simp [hS])).2
        have hold : [l, s, n].Sublist flock := by
          rw [h.eq, hS, append_assoc, cons_append]
          exact hl₁.append (List.Sublist.cons_cons s (hl₃.trans (sublist_append_right _ _)))
        exact absurd ((hflock.contiguous l s n hold hl hln).symm.trans hs) hlA

theorem Around.lockedAs_eq (h : Around request.owner flock A S B) (hS : Tidy S)
    (hgrant : Granted request.lock S S') (o : ω) (x : ℤ) :
    lockedAs (A ++ S' ++ B) o x =
      if o = request.owner ∧ request.start ≤ x ∧ x ≤ request.stop then request.type
      else lockedAs flock o x := by
  by_cases ho : o = request.owner
  · subst ho
    have hown := h.locksOf_own hgrant.own
    have hold := h.locksOf_eq
    refine LockType.eq_of_iff fun t ht => ?_
    rw [← covers_locksOf_iff (by rw [hown]; exact hgrant.tidy) ht, hown, hgrant.covers x t ht]
    by_cases hin : request.start ≤ x ∧ x ≤ request.stop
    · rw [painted_of_mem (c := request.lock) hin, if_pos ⟨rfl, hin⟩]
      exact eq_comm
    · rw [painted_of_not_mem (c := request.lock) hin, if_neg (fun h => hin h.2), ← hold,
        covers_locksOf_iff (by rwa [hold]) ht]
  · simp only [ho, false_and, if_false]
    unfold lockedAs
    rw [h.locksOf_other hgrant.own ho]

theorem posixLocksConflict_iff {c fl : FileLock ω} : posixLocksConflict c fl = true ↔
    fl.isPosix = true ∧ c.owner ≠ fl.owner ∧ (fl.start ≤ c.stop ∧ c.start ≤ fl.stop) ∧
      (fl.type = .wrlck ∨ c.type = .wrlck) := by
  simp only [posixLocksConflict, locksOverlap, locksConflict]
  split_ifs with h₁ h₂ <;> grind

/-- A request that met no conflict does not clash with a lock of another owner. -/
theorem no_clash (htidy : ∀ o, Tidy (locksOf o flock)) (hfree : ¬(request.type ≠ .unlck ∧
      flock.any fun fl => fl.isPosix && posixLocksConflict request.lock fl))
    (ho : o ≠ request.owner) (hx : request.start ≤ x ∧ x ≤ request.stop)
    (hlocked : lockedAs flock o x ≠ .unlck) (htype : request.type ≠ .unlck) :
    lockedAs flock o x = .rdlck ∧ request.type = .rdlck := by
  obtain ⟨l, hl, hltype, hlx⟩ := (covers_locksOf_iff (htidy o) hlocked).mpr rfl
  obtain ⟨hmem, hposix, howner⟩ : l ∈ flock ∧ l.isPosix = true ∧ l.owner = o := by
    simpa [locksOf] using hl
  have hnot : ¬posixLocksConflict request.lock l = true := fun hconf =>
    hfree ⟨htype, List.any_eq_true.mpr ⟨l, hmem, by simp [hposix, hconf]⟩⟩
  have hne : request.lock.owner ≠ l.owner := fun heq => ho (howner.symm.trans heq.symm)
  have hoverlap : l.start ≤ request.lock.stop ∧ request.lock.start ≤ l.stop :=
    ⟨hlx.1.trans hx.2, hx.1.trans hlx.2⟩
  have hread : ¬(l.type = .wrlck ∨ request.type = .wrlck) := fun hwr =>
    hnot (posixLocksConflict_iff.mpr ⟨hposix, hne, hoverlap, hwr⟩)
  rw [hltype] at hread
  cases hlt : lockedAs flock o x <;> cases hrt : request.type <;> simp_all

theorem Around.arranged (h : Around request.owner flock A S B) (hflock : Arranged flock)
    (hgrant : Granted request.lock S S')
    (hfree : ¬(request.type ≠ .unlck ∧
      flock.any fun fl => fl.isPosix && posixLocksConflict request.lock fl)) :
    Arranged (A ++ S' ++ B) where
  posix_last := by
    have hAB := hflock.posix_last
    rw [h.eq, append_assoc] at hAB
    rw [append_assoc, pairwise_append, pairwise_append]
    obtain ⟨hA, hSB, -⟩ := List.pairwise_append.mp hAB
    refine ⟨hA, ⟨?_, (List.pairwise_append.mp hSB).2.1, fun _ _ b hb _ => (h.behind b hb).1⟩, ?_⟩
    · exact pairwise_of_forall_mem_list fun _ _ m hm _ => (hgrant.own m hm).1
    · intro _ _ m hm _
      exact (List.mem_append.mp hm).elim (fun hm => (hgrant.own m hm).1) fun hm => (h.behind m hm).1
  contiguous l m n hsub hl hln := h.contiguous hflock hgrant.own hsub hl hln
  tidy o := by
    by_cases ho : o = request.owner
    · rw [ho, h.locksOf_own hgrant.own]
      exact hgrant.tidy
    · rw [h.locksOf_other hgrant.own ho]
      exact hflock.tidy o
  no_conflict o o' x hne hwr := by
    have hS : Tidy S := h.locksOf_eq ▸ hflock.tidy request.owner
    have hmap := h.lockedAs_eq hS hgrant
    rw [hmap] at hwr ⊢
    by_contra hlocked
    by_cases hx : request.start ≤ x ∧ x ≤ request.stop
    · by_cases ho : o = request.owner
      · have ho' : o' ≠ request.owner := fun heq => hne (ho.trans heq.symm)
        simp only [ho, hx, and_self, if_true] at hwr
        simp only [ho', false_and, if_false] at hlocked
        have := no_clash hflock.tidy hfree ho' hx hlocked (by rw [hwr]; decide)
        simp [this.2] at hwr
      · simp only [ho, false_and, if_false] at hwr
        by_cases ho' : o' = request.owner
        · simp only [ho', hx, and_self, if_true] at hlocked
          have := no_clash hflock.tidy hfree ho hx (by rw [hwr]; decide) hlocked
          simp [this.1] at hwr
        · simp only [ho', false_and, if_false] at hlocked
          exact hlocked (hflock.no_conflict o o' x hne hwr)
    · simp only [hx, and_false, if_false] at hwr hlocked
      exact hlocked (hflock.no_conflict o o' x hne hwr)

theorem Around.mid (h : Around request.owner flock A S B) (hS : Tidy S) :
    Mid A request.lock S [] none S request.lock none none false where
  tidy := by simpa using hS
  own l hl := h.own l (by simpa using hl)
  isPosix := rfl
  owner := rfl
  type := rfl
  nonneg := request.start_nonneg
  le := request.start_le
  le_max := request.stop_le
  below := by simp
  reaching := by simp
  painted := by simp
  left_eq := rfl
  place_eq := by simp
  placed := by simp
  why_added := by simp
  touched := by simp
  fresh := by simp
  spared := by simp

/-- What a call does to the map of the list: all of the request, or nothing. -/
def Served (request : Request ω) (flock : List (FileLock ω)) (res : ℤ × List (FileLock ω)) : Prop :=
  (res.1 = 0 → ∀ o x, lockedAs res.2 o x =
    if o = request.owner ∧ request.start ≤ x ∧ x ≤ request.stop then request.type
    else lockedAs flock o x) ∧
  (res.1 ≠ 0 → ∀ o x, lockedAs res.2 o x = lockedAs flock o x)

/-- A call keeps the list in order; without `FL_ACCESS` it grants the request or changes nothing. -/
theorem posixLockFile_spec (h : Arranged flock) (request : Request ω) (answers : Answers) :
    Arranged (posixLockFile request answers flock).2 ∧
      (request.flAccess = false → Served request flock (posixLockFile request answers flock)) := by
  unfold posixLockFile
  by_cases hconf : request.type ≠ .unlck ∧
      flock.any fun fl => fl.isPosix && posixLocksConflict request.lock fl
  · simp only [hconf, ne_eq, not_false_eq_true, and_self, if_true]
    refine ⟨h, fun _ => ⟨fun h0 => ?_, fun _ _ _ => rfl⟩⟩
    dsimp only at h0
    split_ifs at h0 <;> exact absurd h0 (by decide)
  rw [if_neg hconf]
  by_cases haccess : request.flAccess = true
  · rw [if_pos haccess]
    exact ⟨h, fun hno => by simp [haccess] at hno⟩
  rw [if_neg haccess]
  dsimp only
  obtain ⟨A, S, B, hA⟩ := h.around request.owner
  have hS : Tidy S := hA.locksOf_eq ▸ h.tidy request.owner
  rw [hA.before, hA.after]
  obtain ⟨P, L, Q, hexit⟩ := walk_exit (B := B) (hA.mid hS) fun b hb =>
    (hA.behind b (mem_of_mem_head? hb)).2
  simp only [Option.toList_none, append_nil] at hexit
  generalize (!request.flAccess && _) = alloc
  obtain ⟨hfail, hok⟩ := hexit.finish_spec request.flExists (alloc && answers.newFl)
    (alloc && answers.newFl2)
  generalize (walk A request.lock none none false (S ++ B)).finish request.flExists
    (alloc && answers.newFl) (alloc && answers.newFl2) = res at hfail hok
  by_cases h0 : res.1 = 0
  · obtain ⟨S', hres, hgrant⟩ := hok h0
    rw [Served, hres]
    exact ⟨hA.arranged h hgrant hconf, fun _ => ⟨fun _ => hA.lockedAs_eq hS hgrant,
      fun hne => absurd h0 hne⟩⟩
  · have hres := hfail h0
    rw [← hA.eq] at hres
    rw [Served, hres]
    exact ⟨h, fun _ => ⟨fun heq => absurd heq h0, fun _ _ _ => rfl⟩⟩

theorem posixLockFile_codes (request : Request ω) (answers : Answers) (flock : List (FileLock ω)) :
    (posixLockFile request answers flock).1 ∈
      [0, eagain, edeadlk, enolck, enoent, fileLockDeferred] := by
  simp only [posixLockFile, Walk.finish]
  split_ifs <;> simp

theorem Arranged.other {front front' posix : List (FileLock ω)}
    (hfront : ∀ fl ∈ front, fl.isPosix = false) (hfront' : ∀ fl ∈ front', fl.isPosix = false)
    (hposix : ∀ fl ∈ posix, fl.isPosix = true) (h : Arranged (front ++ posix)) :
    Arranged (front' ++ posix) := by
  have hnil {F : List (FileLock ω)} (hF : ∀ fl ∈ F, fl.isPosix = false) (o : ω) :
      locksOf o (F ++ posix) = locksOf o posix := by
    rw [locksOf_append, locksOf_eq_nil fun fl hfl hp => by simp [hF fl hfl] at hp]
    rfl
  have hmap : lockedAs (front' ++ posix) = lockedAs (front ++ posix) := by
    funext o x
    simp only [lockedAs, hnil hfront, hnil hfront']
  refine ⟨?_, fun l m n hsub hl hln => ?_, fun o => ?_, ?_⟩
  · refine List.pairwise_append.mpr ⟨?_, (List.pairwise_append.mp h.posix_last).2.1,
      fun _ _ m hm _ => hposix m hm⟩
    exact pairwise_of_forall_mem_list fun l hl _ _ hp => by simp [hfront' l hl] at hp
  · -- the first of the three is a POSIX lock, and so are those behind it
    obtain ⟨l₁, l₂, heq, hl₁, hl₂⟩ := List.sublist_append_iff.mp hsub
    cases l₁ with
    | nil =>
      rw [heq, nil_append] at hsub
      exact h.contiguous l m n (heq ▸ hl₂.trans (sublist_append_right _ _)) hl hln
    | cons a l₁ =>
      obtain ⟨rfl, -⟩ : l = a ∧ [m, n] = l₁ ++ l₂ := by simpa using heq
      simp [hfront' l (hl₁.subset (by simp))] at hl
  · rw [hnil hfront', ← hnil hfront]
    exact h.tidy o
  · rw [hmap]
    exact h.no_conflict

theorem Reachable.arranged (h : Reachable flock) : Arranged flock := by
  induction h with
  | empty =>
    exact ⟨List.Pairwise.nil, by simp, fun _ => Tidy.nil, fun _ _ _ _ h => by
      simp [lockedAs, locksOf] at h⟩
  | lock request answers _ ih => exact (posixLockFile_spec ih request answers).1
  | other hfront hfront' hposix _ ih => exact ih.other hfront hfront' hposix

/-- On every lock list an inode can have, the locks of each owner stand together, in order and
apart, and no two owners conflict. A request without `FL_ACCESS` keeps this. When it returns 0 it
changes the map of its owner on its own interval to its type, and nothing else; when it returns an
error, of whichever kind, it changes no map. -/
theorem posix_lock_map (h : Reachable flock) (request : Request ω) (answers : Answers)
    (haccess : request.flAccess = false) :
    Arranged flock ∧ Arranged (posixLockFile request answers flock).2 ∧
      (posixLockFile request answers flock).1 ∈
        [0, eagain, edeadlk, enolck, enoent, fileLockDeferred] ∧
      Served request flock (posixLockFile request answers flock) :=
  ⟨h.arranged, (posixLockFile_spec h.arranged request answers).1,
    posixLockFile_codes request answers flock,
    (posixLockFile_spec h.arranged request answers).2 haccess⟩

/-- A write lock on the whole file, for the owner 0. -/
def wholeFile : Request ℕ :=
  ⟨0, .wrlck, 0, offsetMax, false, false, false, by decide, by decide, by decide⟩

/-- A read lock on eleven bytes of it. -/
def elevenBytes : Request ℕ :=
  ⟨0, .rdlck, 10, 20, false, false, false, by decide, by decide, by decide⟩

/-- A read lock inside a write lock of the same owner leaves a write lock on both sides. -/
theorem posix_lock_map_split :
    let flock := (posixLockFile wholeFile ⟨true, true, false⟩ []).2
    let res := posixLockFile elevenBytes ⟨true, true, false⟩ flock
    res = (0, [⟨true, 0, .wrlck, 0, 9⟩, ⟨true, 0, .rdlck, 10, 20⟩,
      ⟨true, 0, .wrlck, 21, offsetMax⟩]) ∧ Arranged res.2 ∧ Served elevenBytes flock res := by
  have h := posix_lock_map (.lock wholeFile ⟨true, true, false⟩ .empty) elevenBytes
    ⟨true, true, false⟩ rfl
  exact ⟨by decide, h.2.1, h.2.2.2⟩

end AndroidKernel.Locks
