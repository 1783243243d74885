import AndroidKernel.Ashmem.Requests
import Mathlib.Algebra.BigOperators.Group.List.Basic
import Mathlib.Data.BitVec
import Mathlib.Tactic.Abel

/-!
# Accounting of the least recently used ranges

A range is on two lists, its area's and `ashmem_lru_list`. Each pass over an area's list keeps the
two in step, with the entries of the other areas as a frame, and changes `lru_count` by the
difference in size.
-/

namespace AndroidKernel.Ashmem

open Range List Lru State Function

/-- The entries of `ashmem_lru_list` that an area's list stands for. -/
def entries (asma : ℕ) (l : List Range) : List (ℕ × ℕ) := (l.filter onLru).map fun r => (asma, r.id)

/-- The sizes of the ranges that are not purged. -/
def total (l : List Range) : BitVec 32 := ((l.filter onLru).map Range.size).sum

section Lists

variable {asma : ℕ} {l l' : List Range} {r r' : Range} {nrToScan : ℤ}

theorem entries_append : entries asma (l ++ l') = entries asma l ++ entries asma l' := by
  simp [entries]

theorem entries_perm (h : l.Perm l') : (entries asma l).Perm (entries asma l') := (h.filter _).map _

theorem total_append : total (l ++ l') = total l + total l' := by simp [total]

theorem total_perm (h : l.Perm l') : total l = total l' := ((h.filter _).map _).sum_eq

theorem entries_cons_of_onLru (h : r.onLru = true) :
    entries asma (r :: l) = (asma, r.id) :: entries asma l := by
  simp [entries, h]

theorem entries_cons_of_not_onLru (h : r.onLru = false) :
    entries asma (r :: l) = entries asma l := by
  simp [entries, h]

theorem total_cons_of_onLru (h : r.onLru = true) : total (r :: l) = r.size + total l := by
  simp [total, h]

theorem total_cons_of_not_onLru (h : r.onLru = false) : total (r :: l) = total l := by
  simp [total, h]

end Lists

/-- The names of the ranges differ and are older than `next`. -/
structure Named (l : List Range) (next : ℕ) : Prop where
  nodup : (l.map Range.id).Nodup
  lt : ∀ r ∈ l, r.id < next

/-- What a pass over an area's list does to the two lists and the count. -/
structure Passed (asma : ℕ) (l : List Range) (lru : Lru) (l' : List Range) (lru' : Lru) :
    Prop where
  next : lru.next ≤ lru'.next
  old : ∀ r ∈ l', r.id ∈ l.map Range.id ∨ lru.next ≤ r.id
  named : Named l lru.next → Named l' lru'.next
  list : ∀ others, lru.list.Perm (others ++ entries asma l) →
    lru'.list.Perm (others ++ entries asma l')
  count : lru'.count + total l = lru.count + total l'

namespace Passed

variable {asma : ℕ} {l l' l'' : List Range} {lru lru' lru'' : Lru} {r r' : Range}

theorem refl (asma : ℕ) (l : List Range) (lru : Lru) : Passed asma l lru l lru :=
  ⟨le_rfl, fun _ hr => .inl (mem_map_of_mem hr), id, fun _ => id, rfl⟩

section

variable (h : Passed asma l lru l' lru')
include h

theorem trans (h' : Passed asma l' lru' l'' lru'') : Passed asma l lru l'' lru'' where
  next := h.next.trans h'.next
  old r hr := by
    rcases h'.old r hr with hold | hnew
    · obtain ⟨q, hq, heq⟩ := mem_map.mp hold
      rw [← heq]
      exact h.old q hq
    · exact .inr (h.next.trans hnew)
  named hnamed := h'.named (h.named hnamed)
  list others hlist := h'.list others (h.list others hlist)
  count := by
    have := congrArg₂ (· + ·) h.count h'.count
    refine add_left_cancel (a := lru'.count + total l') ?_
    calc lru'.count + total l' + (lru''.count + total l)
        = lru'.count + total l + (lru''.count + total l') := by abel
      _ = lru.count + total l' + (lru'.count + total l'') := this
      _ = lru'.count + total l' + (lru.count + total l'') := by abel

theorem perm {m m' : List Range} (hl : m.Perm l) (hl' : l'.Perm m') :
    Passed asma m lru m' lru' where
  next := h.next
  old r hr := by
    rw [(hl.map _).mem_iff]
    exact h.old r (hl'.mem_iff.mpr hr)
  named hnamed := by
    have hmoved := h.named ⟨(hl.map _).nodup_iff.mp hnamed.nodup,
      fun r hr => hnamed.lt r (hl.mem_iff.mpr hr)⟩
    exact ⟨(hl'.map _).nodup_iff.mp hmoved.nodup,
      fun r hr => hmoved.lt r (hl'.mem_iff.mpr hr)⟩
  list others hlist :=
    (h.list others (hlist.trans ((entries_perm hl).append_left others))).trans
      ((entries_perm hl').append_left others)
  count := by rw [total_perm hl, ← total_perm hl', h.count]

theorem cons (r : Range) : Passed asma (r :: l) lru (r :: l') lru' where
  next := h.next
  old := by
    intro q hq
    rcases mem_cons.mp hq with rfl | hq
    · exact .inl mem_cons_self
    · exact (h.old q hq).imp (mem_cons_of_mem _) id
  named hnamed := by
    obtain ⟨hnot, hnodup⟩ := nodup_cons.mp hnamed.nodup
    obtain ⟨hr, hlt⟩ := forall_mem_cons.mp hnamed.lt
    have htail := h.named ⟨hnodup, hlt⟩
    refine ⟨nodup_cons.mpr ⟨fun hmem => ?_, htail.nodup⟩,
      forall_mem_cons.mpr ⟨hr.trans_le h.next, htail.lt⟩⟩
    obtain ⟨q, hq, heq⟩ := mem_map.mp hmem
    rcases h.old q hq with hold | hnew
    · exact hnot (heq ▸ hold)
    · omega
  list others hlist := by
    have hmoved := h.list (others ++ entries asma [r]) (by
      rwa [append_assoc, ← entries_append])
    rwa [append_assoc, ← entries_append] at hmoved
  count := by
    rw [← singleton_append, ← singleton_append (l := l'), total_append, total_append,
      add_left_comm, h.count, add_left_comm]

end

section

variable (asma : ℕ) (l : List Range) (lru : Lru)

theorem rangeDel (r : Range) : Passed asma (r :: l) lru l (lru.rangeDel asma r) := by
  have hold : ∀ q ∈ l, q.id ∈ (r :: l).map Range.id ∨ lru.next ≤ q.id := fun q hq =>
    .inl (mem_cons_of_mem _ (mem_map_of_mem hq))
  have hnamed (h : Named (r :: l) lru.next) : Named l lru.next :=
    ⟨(nodup_cons.mp h.nodup).2, fun q hq => h.lt q (mem_cons_of_mem _ hq)⟩
  unfold Lru.rangeDel
  split_ifs with hr
  · refine ⟨le_rfl, hold, hnamed, fun others hlist => ?_, ?_⟩
    · rw [entries_cons_of_onLru hr] at hlist
      have herase := (hlist.trans perm_middle).erase (asma, r.id)
      rwa [erase_cons_head] at herase
    · rw [total_cons_of_onLru hr]
      simp only [del]
      abel
  · rw [Bool.not_eq_true] at hr
    refine ⟨le_rfl, hold, hnamed, fun others hlist => ?_, ?_⟩
    · rwa [entries_cons_of_not_onLru hr] at hlist
    · rw [total_cons_of_not_onLru hr]

theorem rangeShrink (r r' : Range) (hid : r'.id = r.id) (hpurged : r'.purged = r.purged) :
    Passed asma (r :: l) lru (r' :: l) (lru.rangeShrink r r') := by
  have hids : (r' :: l).map Range.id = (r :: l).map Range.id := by simp [hid]
  have hold : ∀ q ∈ r' :: l, q.id ∈ (r :: l).map Range.id ∨ lru.next ≤ q.id := fun q hq =>
    .inl (hids ▸ mem_map_of_mem hq)
  have hnamed (h : Named (r :: l) lru.next) : Named (r' :: l) lru.next := by
    obtain ⟨hr, hlt⟩ := forall_mem_cons.mp h.lt
    exact ⟨hids ▸ h.nodup, forall_mem_cons.mpr ⟨hid ▸ hr, hlt⟩⟩
  have hlru : r'.onLru = r.onLru := by simp [onLru, hpurged]
  have hentries : entries asma (r' :: l) = entries asma (r :: l) := by
    simp [entries, filter_cons, hlru, hid, apply_ite]
  unfold Lru.rangeShrink
  split_ifs with hr
  · refine ⟨le_rfl, hold, hnamed, fun others hlist => hentries ▸ hlist, ?_⟩
    rw [total_cons_of_onLru hr, total_cons_of_onLru (hlru.trans hr)]
    dsimp only
    abel
  · rw [Bool.not_eq_true] at hr
    refine ⟨le_rfl, hold, hnamed, fun others hlist => hentries ▸ hlist, ?_⟩
    rw [total_cons_of_not_onLru hr, total_cons_of_not_onLru (hlru.trans hr)]

theorem rangeAlloc (hid : r.id = lru.next) :
    Passed asma l lru (r :: l) (lru.rangeAlloc asma r) := by
  have hold : ∀ q ∈ r :: l, q.id ∈ l.map Range.id ∨ lru.next ≤ q.id :=
    forall_mem_cons.mpr ⟨.inr hid.ge, fun q hq => .inl (mem_map_of_mem hq)⟩
  have hnamed (h : Named l lru.next) : Named (r :: l) (lru.next + 1) := by
    refine ⟨nodup_cons.mpr ⟨fun hmem => ?_, h.nodup⟩,
      forall_mem_cons.mpr ⟨by omega, fun q hq => Nat.lt_succ_of_lt (h.lt q hq)⟩⟩
    obtain ⟨q, hq, heq⟩ := mem_map.mp hmem
    have := h.lt q hq
    omega
  unfold Lru.rangeAlloc
  dsimp only
  split_ifs with hr
  · refine ⟨Nat.le_succ _, hold, hnamed, fun others hlist => ?_, ?_⟩
    · rw [entries_cons_of_onLru hr]
      exact (hlist.append_right [(asma, r.id)]).trans
        ((perm_append_singleton _ _).trans perm_middle.symm)
    · rw [total_cons_of_onLru hr]
      simp only [add]
      abel
  · rw [Bool.not_eq_true] at hr
    refine ⟨Nat.le_succ _, hold, hnamed, fun others hlist => ?_, ?_⟩
    · rwa [entries_cons_of_not_onLru hr]
    · rw [total_cons_of_not_onLru hr]

/-- `range->purged = ASHMEM_WAS_PURGED` and `lru_del` -/
theorem purge (hr : r.onLru = true) :
    Passed asma (r :: l) lru ({ r with purged := true } :: l) (lru.del asma r) := by
  have hdel := rangeDel asma l lru r
  rw [Lru.rangeDel, if_pos hr] at hdel
  have hoff : ({ r with purged := true } : Range).onLru = false := rfl
  refine ⟨le_rfl, fun q hq => .inl ?_, fun h => ⟨h.nodup, ?_⟩, fun others hlist => ?_, ?_⟩
  · have hmem : q.id ∈ ({ r with purged := true } :: l).map Range.id := mem_map_of_mem hq
    exact hmem
  · exact forall_mem_cons.mpr (forall_mem_cons.mp h.lt)
  · rw [entries_cons_of_not_onLru hoff]
    exact hdel.list others hlist
  · rw [total_cons_of_not_onLru hoff]
    exact hdel.count

end

theorem ashmemPin (asma : ℕ) (alloc : Bool) (pgstart pgend : ℕ) (l : List Range) (lru : Lru) :
    Passed asma l lru (ashmemPin asma alloc pgstart pgend l lru).2.1
      (ashmemPin asma alloc pgstart pgend l lru).2.2 := by
  induction l generalizing lru with
  | nil => exact .refl asma [] lru
  | cons r l ih =>
    unfold Ashmem.ashmemPin
    split_ifs with hbefore hin hsub hstart hend halloc
    · exact .refl asma (r :: l) lru
    · exact (rangeDel asma l lru r).trans (ih _)
    · exact (rangeShrink asma l lru r { r with pgstart := pgend + 1 } rfl rfl).trans
        ((ih _).cons _)
    · exact (rangeShrink asma l lru r { r with pgend := pgstart - 1 } rfl rfl).trans
        ((ih _).cons _)
    · have halloc : Passed asma (r :: l) lru _ _ := rangeAlloc asma (r :: l) lru
        (r := ⟨lru.next, pgend + 1, r.pgend, r.purged⟩) rfl
      exact halloc.trans ((rangeShrink asma l _ r { r with pgend := pgstart - 1 } rfl rfl).cons _)
    · exact rangeShrink asma l lru r { r with pgend := pgstart - 1 } rfl rfl
    · exact (ih lru).cons r

theorem unpinRun {alloc purged : Bool} {pgstart pgend : ℕ} {result : Bool × List Range × Lru}
    (h : UnpinRun asma alloc pgstart pgend purged l lru result) :
    Passed asma l lru result.2.1 result.2.2 := by
  induction h with
  | covered | fail => exact .refl ..
  | merge _ ih => exact ((rangeDel asma _ _ _).perm perm_middle (.refl _)).trans ih
  | insert => exact (rangeAlloc asma _ _ rfl).perm (.refl _) perm_middle.symm

theorem foldl_rangeDel (asma : ℕ) (l : List Range) (lru : Lru) :
    Passed asma l lru [] (l.foldl (fun lru r => lru.rangeDel asma r) lru) := by
  induction l generalizing lru with
  | nil => exact .refl asma [] lru
  | cons r l ih => exact (rangeDel asma l lru r).trans (ih _)

end Passed

/-- The areas in use, with their ranges on `ashmem_lru_list` and counted. -/
structure State.Accounted (s : State) (areas : List ℕ) : Prop where
  nodup : areas.Nodup
  rest : ∀ asma ∉ areas, s.unpinned asma = []
  named : ∀ asma, Named (s.unpinned asma) s.lru.next
  list : s.lru.list.Perm (areas.flatMap fun asma => entries asma (s.unpinned asma))
  count : s.lru.count = (areas.map fun asma => total (s.unpinned asma)).sum

namespace State.Accounted

variable {s : State} {areas : List ℕ} {asma : ℕ}

theorem init : init.Accounted [] :=
  ⟨.nil, fun _ _ => rfl, fun _ => ⟨.nil, by simp [State.init]⟩, .nil, rfl⟩

theorem first (h : s.Accounted areas) (asma : ℕ) : ∃ others, s.Accounted (asma :: others) := by
  by_cases hmem : asma ∈ areas
  · have hperm := perm_cons_erase hmem
    refine ⟨areas.erase asma, hperm.nodup_iff.mp h.nodup, fun a ha => h.rest a ?_, h.named,
      h.list.trans (hperm.flatMap_right _), h.count.trans (hperm.map _).sum_eq⟩
    rwa [hperm.mem_iff]
  · have hempty := h.rest asma hmem
    refine ⟨areas, nodup_cons.mpr ⟨hmem, h.nodup⟩,
      fun a ha => h.rest a (mt (mem_cons_of_mem _) ha), h.named, ?_, ?_⟩
    · rw [flatMap_cons, hempty]
      exact h.list
    · rw [map_cons, sum_cons, hempty]
      exact h.count.trans (zero_add _).symm

theorem update (h : s.Accounted areas) {l : List Range} {lru : Lru}
    (hpass : Passed asma (s.unpinned asma) s.lru l lru) :
    ∃ areas', Accounted ⟨update s.unpinned asma l, lru⟩ areas' := by
  obtain ⟨others, h⟩ := h.first asma
  have hnot : asma ∉ others := (nodup_cons.mp h.nodup).1
  have hsame : ∀ a ∈ others, Function.update s.unpinned asma l a = s.unpinned a :=
    fun a ha => update_of_ne (ne_of_mem_of_not_mem ha hnot) _ _
  refine ⟨asma :: others, h.nodup, fun a ha => ?_, fun a => ?_, ?_, ?_⟩
  · have hne : a ≠ asma := fun heq => ha (heq ▸ mem_cons_self)
    exact (update_of_ne hne _ _).trans (h.rest a ha)
  · rcases eq_or_ne a asma with rfl | hne
    · simpa using hpass.named (h.named a)
    · simp only [update_of_ne hne]
      exact ⟨(h.named a).nodup, fun r hr => ((h.named a).lt r hr).trans_le hpass.next⟩
  · have hframe : (others.flatMap fun a => entries a (Function.update s.unpinned asma l a)) =
        others.flatMap fun a => entries a (s.unpinned a) :=
      flatMap_congr fun a ha => by rw [hsame a ha]
    simp only [flatMap_cons, update_self, hframe]
    have hlist := h.list
    rw [flatMap_cons] at hlist
    exact (hpass.list _ (hlist.trans perm_append_comm)).trans perm_append_comm
  · have hframe : (others.map fun a => total (Function.update s.unpinned asma l a)) =
        others.map fun a => total (s.unpinned a) :=
      map_congr_left fun a ha => by rw [hsame a ha]
    simp only [map_cons, sum_cons, update_self, hframe]
    have hcount := hpass.count
    rw [h.count, map_cons, sum_cons] at hcount
    refine add_right_cancel (b := total (s.unpinned asma)) (hcount.trans ?_)
    abel

end State.Accounted

namespace State

/-- The ranges on `ashmem_lru_list`, with their areas. -/
def lruRanges (s : State) : List (ℕ × Range) :=
  s.lru.list.filterMap fun entry => (s.range entry).map fun r => (entry.1, r)

namespace Accounted

variable {s : State} {areas : List ℕ} {asma : ℕ} {entry : ℕ × ℕ} {r : Range}

section

variable (h : s.Accounted areas)
include h

theorem eq_of_id {q : Range} (hr : r ∈ s.unpinned asma) (hq : q ∈ s.unpinned asma)
    (hid : q.id = r.id) : q = r :=
  inj_on_of_nodup_map (h.named asma).nodup hq hr hid

theorem range_eq (hr : r ∈ s.unpinned asma) : s.range (asma, r.id) = some r := by
  unfold range
  cases hfind : (s.unpinned asma).find? fun q => q.id == r.id with
  | none => exact absurd (beq_self_eq_true r.id) (find?_eq_none.mp hfind r hr)
  | some q =>
    have hid : q.id = r.id := by simpa using find?_some hfind
    rw [h.eq_of_id hr (mem_of_find?_eq_some hfind) hid]

theorem mem_list :
    entry ∈ s.lru.list ↔ ∃ r ∈ s.unpinned entry.1, r.onLru = true ∧ r.id = entry.2 := by
  rw [h.list.mem_iff, mem_flatMap]
  constructor
  · rintro ⟨asma, -, hmem⟩
    obtain ⟨r, hr, rfl⟩ := mem_map.mp hmem
    obtain ⟨hr, hlru⟩ := mem_filter.mp hr
    exact ⟨r, hr, hlru, rfl⟩
  · rintro ⟨r, hr, hlru, hid⟩
    refine ⟨entry.1, ?_, mem_map.mpr ⟨r, mem_filter.mpr ⟨hr, hlru⟩, ?_⟩⟩
    · by_contra hnot
      rw [h.rest _ hnot] at hr
      cases hr
    · rw [hid]

theorem range_of_mem_list (hentry : entry ∈ s.lru.list) :
    ∃ r ∈ s.unpinned entry.1, r.onLru = true ∧ r.id = entry.2 ∧ s.range entry = some r := by
  obtain ⟨r, hr, hlru, hid⟩ := h.mem_list.mp hentry
  refine ⟨r, hr, hlru, hid, ?_⟩
  have hrange := h.range_eq hr
  rwa [hid] at hrange

theorem lruRanges_map : (s.lruRanges.map fun p => (p.1, p.2.id)) = s.lru.list := by
  unfold lruRanges
  rw [map_filterMap]
  refine (filterMap_congr (g := some) fun entry hentry => ?_).trans filterMap_some
  obtain ⟨r, -, -, hid, hrange⟩ := h.range_of_mem_list hentry
  simp [hrange, hid]

theorem mem_lruRanges : (asma, r) ∈ s.lruRanges ↔ r ∈ s.unpinned asma ∧ r.purged = false := by
  unfold lruRanges
  rw [mem_filterMap]
  constructor
  · rintro ⟨entry, hentry, hmap⟩
    obtain ⟨q, hq, hlru, -, hrange⟩ := h.range_of_mem_list hentry
    rw [hrange] at hmap
    obtain ⟨rfl, rfl⟩ := Prod.mk.inj (Option.some.inj hmap)
    exact ⟨hq, by simpa [onLru] using hlru⟩
  · rintro ⟨hr, hpurged⟩
    refine ⟨(asma, r.id), h.mem_list.mpr ⟨r, hr, by simp [onLru, hpurged], rfl⟩, ?_⟩
    rw [h.range_eq hr]
    rfl

theorem nodup_list : s.lru.list.Nodup := by
  rw [h.list.nodup_iff, nodup_flatMap]
  refine ⟨fun asma _ => ?_, h.nodup.imp fun {a b} hne => ?_⟩
  · have hids : ((s.unpinned asma).filter onLru |>.map Range.id).Nodup :=
      (h.named asma).nodup.sublist (filter_sublist.map _)
    have hentries : entries asma (s.unpinned asma) =
        ((s.unpinned asma).filter onLru |>.map Range.id).map (Prod.mk asma) := by
      simp [entries]
    rw [hentries]
    exact hids.map (Prod.mk_right_injective asma)
  · intro entry ha hb
    obtain ⟨_, -, rfl⟩ := mem_map.mp ha
    obtain ⟨_, -, heq⟩ := mem_map.mp hb
    exact hne (Prod.mk.inj heq).1.symm

/-- The sum by areas is the sum over `ashmem_lru_list`. -/
theorem count_eq : s.lru.count = (s.lruRanges.map fun p => p.2.size).sum := by
  let g : ℕ × ℕ → BitVec 32 := fun entry => (s.range entry).elim 0 Range.size
  have hsum : ∀ (l : List ℕ), ((l.flatMap fun a => entries a (s.unpinned a)).map g).sum =
      (l.map fun a => total (s.unpinned a)).sum := by
    intro l
    induction l with
    | nil => rfl
    | cons a l ih =>
      rw [flatMap_cons, map_append, sum_append, ih, map_cons, sum_cons]
      congr 2
      unfold entries
      rw [map_map]
      refine map_congr_left fun r hr => ?_
      simp [g, h.range_eq (mem_of_mem_filter hr)]
  calc s.lru.count = (s.lru.list.map g).sum := by
        rw [h.count, (h.list.map g).sum_eq, hsum]
    _ = (s.lruRanges.map fun p => p.2.size).sum := by
        rw [← h.lruRanges_map, map_map]
        congr 1
        refine map_congr_left fun p hp => ?_
        simp [g, h.range_eq (h.mem_lruRanges.mp hp).1]

theorem purge (hr : r ∈ s.unpinned entry.1) (hlru : r.onLru = true) (hid : r.id = entry.2) :
    ∃ areas', (s.purge entry r).Accounted areas' := by
  set mark : Range → Range := fun q => if q.id == entry.2 then { q with purged := true } else q
    with hmark
  have hrest : ((s.unpinned entry.1).erase r).map mark = (s.unpinned entry.1).erase r := by
    refine (map_congr_left fun q hq => ?_).trans (map_id _)
    have hnodup : (s.unpinned entry.1).Nodup := (h.named entry.1).nodup.of_map
    have hne : q.id ≠ entry.2 := fun heq =>
      (hnodup.mem_erase_iff.mp hq).1 (h.eq_of_id hr (mem_of_mem_erase hq) (heq.trans hid.symm))
    simp [hmark, hne]
  have hperm := (perm_cons_erase hr).map mark
  rw [map_cons, hrest] at hperm
  have hmarked : mark r = { r with purged := true } := by simp [hmark, hid]
  rw [hmarked] at hperm
  exact h.update ((Passed.purge entry.1 _ _ hlru).perm (perm_cons_erase hr) hperm.symm)

end

theorem range_purge {entry' : ℕ × ℕ} (hne : entry' ≠ entry) :
    (s.purge entry r).range entry' = s.range entry' := by
  unfold State.range State.purge
  rcases eq_or_ne entry'.1 entry.1 with hasma | hasma
  · have hid : entry'.2 ≠ entry.2 := fun hid => hne (Prod.ext hasma hid)
    simp only [hasma, update_self]
    induction s.unpinned entry.1 with
    | nil => rfl
    | cons q l ih =>
      rw [map_cons, find?_cons, find?_cons, ih]
      by_cases hq : q.id = entry.2
      · have hother : (entry.2 == entry'.2) = false := by simpa using hid.symm
        simp [hq, hother]
      · simp [hq]
  · simp only [update_of_ne hasma]

/-- The first range on `ashmem_lru_list` is purged, and the others stay. -/
theorem lruRanges_purge (h : s.Accounted areas) {l : List (ℕ × ℕ)}
    (hlist : s.lru.list = entry :: l) (hrange : s.range entry = some r) (hid : r.id = entry.2) :
    (s.purge entry r).lru.list = l ∧ s.lruRanges = (entry.1, r) :: (s.purge entry r).lruRanges := by
  have hrest : (s.purge entry r).lru.list = l := by simp [State.purge, Lru.del, hlist, hid]
  refine ⟨hrest, ?_⟩
  unfold lruRanges
  rw [hrest, hlist, filterMap_cons, hrange]
  refine congrArg _ (filterMap_congr fun entry' hentry' => ?_)
  have hnodup := h.nodup_list
  rw [hlist] at hnodup
  rw [range_purge (ne_of_mem_of_not_mem hentry' (nodup_cons.mp hnodup).1)]

end Accounted

variable {s : State} {areas : List ℕ}

/-- The pages of a list of ranges. -/
def pages (l : List (ℕ × Range)) : ℕ := (l.map fun p => p.2.size.toNat).sum

/-- What `ashmem_shrink` purges of `ashmem_lru_list`: a prefix with enough pages, or all of it, and
no shorter one has enough. -/
structure Shrunk (nrToScan : ℤ) (l gone rest : List (ℕ × Range)) : Prop where
  split : l = gone ++ rest
  enough : rest = [] ∨ nrToScan ≤ pages gone
  shortest : ∀ l', l' <+: gone → l' ≠ gone → pages l' < nrToScan

theorem Shrunk.cons {p : ℕ × Range} {l gone rest : List (ℕ × Range)}
    (h : Shrunk (nrToScan - p.2.size.toNat) l gone rest) (hnr : 0 < nrToScan) :
    Shrunk nrToScan (p :: l) (p :: gone) rest where
  split := congrArg (p :: ·) h.split
  enough := h.enough.imp id fun hle => by
    simp only [pages, map_cons, sum_cons] at hle ⊢
    omega
  shortest := by
    intro l' hl' hne
    cases l' with
    | nil => exact hnr
    | cons q l' =>
      obtain ⟨rfl, htail⟩ := cons_prefix_cons.mp hl'
      have := h.shortest l' htail fun heq => hne (heq ▸ rfl)
      simp only [pages, map_cons, sum_cons] at this ⊢
      omega

theorem Accounted.shrinkLoop (h : s.Accounted areas) (nrToScan : ℤ) :
    ∃ areas', (shrinkLoop s.lru.list nrToScan s).2.Accounted areas' := by
  induction hlist : s.lru.list generalizing s areas nrToScan with
  | nil => exact ⟨areas, h⟩
  | cons entry l ih =>
    obtain ⟨r, hr, hlru, hid, hrange⟩ := h.range_of_mem_list (hlist ▸ mem_cons_self)
    obtain ⟨areas', hpurge⟩ := h.purge hr hlru hid
    simp only [shrinkLoop, hrange]
    split_ifs
    · exact ⟨areas', hpurge⟩
    · exact ih hpurge _ (h.lruRanges_purge hlist hrange hid).1

theorem Accounted.shrunk (h : s.Accounted areas)
    (hsmall : ∀ p ∈ s.lruRanges, p.2.size.toNat < 2 ^ 31) (hpos : 0 < nrToScan)
    (hlt : nrToScan < 2 ^ 31) :
    Shrunk nrToScan s.lruRanges (State.shrinkLoop s.lru.list nrToScan s).1
      (State.shrinkLoop s.lru.list nrToScan s).2.lruRanges := by
  induction hlist : s.lru.list generalizing s areas nrToScan with
  | nil =>
    have hnone : s.lruRanges = [] := by simp [lruRanges, hlist]
    refine ⟨?_, .inl hnone, fun l' hl' hne => absurd (prefix_nil.mp hl') hne⟩
    simp [State.shrinkLoop]
  | cons entry l ih =>
    obtain ⟨r, hr, hlru, hid, hrange⟩ := h.range_of_mem_list (hlist ▸ mem_cons_self)
    obtain ⟨areas', hpurge⟩ := h.purge hr hlru hid
    obtain ⟨hlist', hranges⟩ := h.lruRanges_purge hlist hrange hid
    rw [hranges] at hsmall ⊢
    obtain ⟨hsize, hsmall'⟩ := forall_mem_cons.mp hsmall
    dsimp only at hsize
    -- the subtraction is exact
    have hbmod : Int.bmod (nrToScan - r.size.toNat) (2 ^ 32) = nrToScan - r.size.toNat :=
      Int.bmod_eq_of_le (by omega) (by omega)
    simp only [State.shrinkLoop, hrange, hbmod]
    split_ifs with hdone
    · refine ⟨rfl, .inr ?_, fun l' hl' hne => ?_⟩
      · simp only [pages, map_cons, map_nil, sum_cons, sum_nil]
        omega
      · cases l' with
        | nil => exact hpos
        | cons q l' =>
          obtain ⟨rfl, htail⟩ := cons_prefix_cons.mp hl'
          obtain rfl : l' = [] := prefix_nil.mp htail
          exact absurd rfl hne
    · have hrest : Shrunk (nrToScan - r.size.toNat) _ _ _ :=
        ih hpurge hsmall' (by omega) (by omega) hlist'
      exact hrest.cons (p := (entry.1, r)) hpos

theorem Accounted.request (h : s.Accounted areas) (size : ℕ → BitVec 32) (r : Request) :
    ∃ areas', (s.request size r).Accounted areas' := by
  cases r with
  | pin asma alloc offset len =>
    dsimp only [State.request]
    split
    case h_1 => exact ⟨areas, h⟩
    case h_2 pgstart pgend _ =>
      exact h.update (Passed.ashmemPin asma alloc pgstart pgend (s.unpinned asma) s.lru)
  | unpin asma alloc offset len =>
    dsimp only [State.request]
    split
    case h_1 => exact ⟨areas, h⟩
    case h_2 pgstart pgend _ => exact h.update (Passed.unpinRun (ashmemUnpin_run ..))
  | shrink nrToScan fs =>
    dsimp only [State.request, State.step, State.shrink]
    split_ifs
    · exact ⟨areas, h⟩
    · exact h.shrinkLoop nrToScan
  | release asma => exact h.update (Passed.foldl_rangeDel asma (s.unpinned asma) s.lru)

theorem accounted_requests (size : ℕ → BitVec 32) (rs : List Request) :
    ∃ areas, (requests size rs).Accounted areas := by
  have hrun (s : State) (h : ∃ areas, s.Accounted areas) :
      ∃ areas, (rs.foldl (request size) s).Accounted areas := by
    induction rs generalizing s with
    | nil => exact h
    | cons r rs ih => exact ih _ (h.elim fun areas h => h.request size r)
  exact hrun init ⟨[], .init⟩

end State

theorem kept_inArea {pages : ℕ} (hpages : pages < 2 ^ 20) : Kept (InArea pages) where
  merge h h' := by
    unfold InArea at *
    omega
  front {r p q} h h' hin hlt := by
    simp only [rangeIn, pageIn, subsumes, Bool.or_eq_true, Bool.and_eq_true,
      decide_eq_true_eq] at hin
    unfold InArea at *
    omega
  back h h' _ hlt := by
    unfold InArea at *
    omega

/-- A range inside its area is as large as its pages say; the empty one has size 0. -/
theorem InArea.size {pages : ℕ} (hpages : pages < 2 ^ 20) {r : Range}
    (h : InArea pages r.pgstart r.pgend) :
    r.size.toNat = (r.pgend + 1 - r.pgstart) % 2 ^ 32 ∧ r.size.toNat < 2 ^ 20 := by
  unfold InArea at h
  unfold Range.size
  have hone : (1 : BitVec 32).toNat = 1 := rfl
  simp only [BitVec.toNat_add, BitVec.toNat_sub, BitVec.toNat_ofNat, hone]
  omega

theorem ranges_inArea (size : ℕ → BitVec 32) (rs : List Request) :
    (requests size rs).Ranges fun asma => InArea (pageAlign (size asma) / 4096) := by
  refine Ranges.requests (fun asma => kept_inArea ?_) fun r _ => ?_
  · unfold pageAlign
    omega
  · cases r with
    | pin asma alloc offset len | unpin asma alloc offset len =>
      exact fun _ _ h => (pageRange_inArea h).1
    | shrink nrToScan fs => trivial
    | release asma => trivial

/-- Requests that unpin all of the largest areas. -/
def unpinAreas (n : ℕ) : List Request := (range n).map fun asma => .unpin asma true 0 0

theorem requests_unpinAreas (n : ℕ) : State.requests (fun _ => 0xfffff000) (unpinAreas n) =
      ⟨fun asma => if asma < n then [⟨asma, 0, 1048574, false⟩] else [],
        (List.range n).map fun asma => (asma, asma), BitVec.ofNat 32 (n * 1048575), n⟩ := by
  induction n with
  | zero => rfl
  | succ n ih =>
    have hstep : State.requests (fun _ => 0xfffff000) (unpinAreas (n + 1)) =
        State.request (fun _ => 0xfffff000) (State.requests (fun _ => 0xfffff000) (unpinAreas n))
          (.unpin n true 0 0) := by
      simp [unpinAreas, State.requests, range_succ]
    have hrange : pageRange 0xfffff000 0 0 = some (0, 1048574) := by decide +kernel
    have hsize : Range.size ⟨n, 0, 1048574, false⟩ = BitVec.ofNat 32 1048575 := by
      simp only [Range.size]
      decide
    rw [hstep, ih]
    simp only [State.request, hrange, State.step, State.unpin, lt_irrefl, if_false, length_nil]
    unfold ashmemUnpin
    simp only [scan, Lru.rangeAlloc, Lru.add, onLru, hsize, if_true, nil_append]
    refine (State.mk.injEq ..).mpr ⟨?_, ?_⟩
    · funext asma
      rcases lt_trichotomy asma n with hlt | rfl | hgt
      · rw [update_of_ne hlt.ne, if_pos hlt, if_pos (by omega)]
      · rw [update_self, if_pos (by omega)]
      · rw [update_of_ne hgt.ne', if_neg (by omega), if_neg (by omega)]
    · simp [range_succ, Nat.succ_mul, BitVec.ofNat_add]

theorem pages_unpinAreas (n : ℕ) :
    State.pages (State.requests (fun _ => 0xfffff000) (unpinAreas n)).lruRanges = n * 1048575 := by
  have hsize (asma : ℕ) : (Range.size ⟨asma, 0, 1048574, false⟩).toNat = 1048575 := by
    simp only [Range.size]
    decide
  rw [requests_unpinAreas]
  have hranges : lruRanges ⟨fun asma => if asma < n then [⟨asma, 0, 1048574, false⟩] else [],
      (List.range n).map fun asma => (asma, asma), BitVec.ofNat 32 (n * 1048575), n⟩ =
      (List.range n).map fun asma => (asma, ⟨asma, 0, 1048574, false⟩) := by
    unfold lruRanges
    rw [filterMap_map]
    refine (filterMap_congr fun asma hasma => ?_).trans (congrFun filterMap_eq_map _)
    simp [State.range, List.mem_range.mp hasma]
  rw [hranges]
  simp [pages, comp_def, hsize]

/-- With 4097 of the largest areas unpinned, `lru_count` has wrapped. -/
theorem lru_count_wraps : (requests (fun _ => 0xfffff000) (unpinAreas 4097)).lru.count = 1044479 ∧
      pages (requests (fun _ => 0xfffff000) (unpinAreas 4097)).lruRanges = 4296011775 := by
  refine ⟨?_, pages_unpinAreas 4097⟩
  rw [requests_unpinAreas]
  decide

/-- In every run of requests, `ashmem_lru_list` has each range that is not purged once and no other,
`lru_count` is the sum of their sizes exactly as long as this is below 2 ^ 32, and `ashmem_shrink`
purges the shortest prefix with enough pages, or everything. -/
theorem lru_accounted (size : ℕ → BitVec 32) (rs : List Request) :
    let s := requests size rs
    s.lru.list.Nodup ∧ (s.lruRanges.map fun p => (p.1, p.2.id)) = s.lru.list ∧
      (∀ asma r, (asma, r) ∈ s.lruRanges ↔ r ∈ s.unpinned asma ∧ r.purged = false) ∧
      s.lru.count = BitVec.ofNat 32 (State.pages s.lruRanges) ∧
      (s.lru.count.toNat = State.pages s.lruRanges ↔ State.pages s.lruRanges < 2 ^ 32) ∧
      (∀ p ∈ s.lruRanges, p.2.size.toNat = (p.2.pgend + 1 - p.2.pgstart) % 2 ^ 32) ∧
      ∀ nrToScan, 0 < nrToScan → nrToScan < 2 ^ 31 → s.shrink nrToScan false = ([], s) ∧
          Shrunk nrToScan s.lruRanges (s.shrink nrToScan true).1
            (s.shrink nrToScan true).2.lruRanges := by
  intro s
  obtain ⟨areas, h⟩ := accounted_requests size rs
  have hsize : ∀ p ∈ s.lruRanges,
      p.2.size.toNat = (p.2.pgend + 1 - p.2.pgstart) % 2 ^ 32 ∧ p.2.size.toNat < 2 ^ 20 := by
    intro p hp
    have hin := ranges_inArea size rs p.1 p.2 (h.mem_lruRanges.mp hp).1
    refine hin.size ?_
    unfold pageAlign
    omega
  have hcount : s.lru.count = BitVec.ofNat 32 (pages s.lruRanges) := by
    rw [h.count_eq]
    unfold pages
    induction s.lruRanges with
    | nil => rfl
    | cons p l ih => simp [ih, BitVec.ofNat_add]
  refine ⟨h.nodup_list, h.lruRanges_map, fun _ _ => h.mem_lruRanges, hcount, ?_,
    fun p hp => (hsize p hp).1, fun nrToScan hpos hlt => ⟨by simp [shrink], ?_⟩⟩
  · rw [hcount, BitVec.toNat_ofNat]
    exact ⟨fun heq => heq ▸ Nat.mod_lt _ (by decide), Nat.mod_eq_of_lt⟩
  · have hshrink : s.shrink nrToScan true = shrinkLoop s.lru.list nrToScan s := by
      simp [shrink, hpos.ne']
    rw [hshrink]
    exact h.shrunk (fun p hp => (hsize p hp).2.trans (by decide)) hpos hlt

end AndroidKernel.Ashmem
