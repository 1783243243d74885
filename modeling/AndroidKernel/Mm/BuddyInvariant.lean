import AndroidKernel.Lib.Dyadic
import AndroidKernel.Mm.Buddy
import Mathlib.Algebra.BigOperators.Ring.Finset

/-!
# The invariant of the buddy allocator

What holds of the free lists, the marks of the pages and the pages that are in use, and that it is
kept by the three changes the allocator is made of: a block leaves the lists, a block enters them,
and a block changes its list.
-/

namespace AndroidKernel.Mm

open Dyadic List Finset Zone

namespace Zone

/-- The page exists and belongs to the zone. -/
def InZone (z : Zone) (p : ℕ) : Prop := z.pfnValid p ∧ z.zoneId p = z.id

/-- The state of the allocator while the pages of `used` are handed out. -/
structure BuddyInv (z : Zone) (used : Finset ℕ) : Prop where
  order_lt {o t p} : p ∈ z.freeList o t → o < maxOrder
  aligned {o t p} : p ∈ z.freeList o t → 2 ^ o ∣ p
  inZone {o t p} : p ∈ z.freeList o t → ∀ q ∈ block o p, z.InZone q
  nodup (o t) : (z.freeList o t).Nodup
  /-- A page is covered by at most one entry of the lists. -/
  only_entry {o t p o' t' p' q} : p ∈ z.freeList o t → p' ∈ z.freeList o' t' →
    q ∈ block o p → q ∈ block o' p' → p = p' ∧ o = o' ∧ t = t'
  head {o t p} : p ∈ z.freeList o t → z.pageBuddy p ∧ z.pagePrivate p = o
  /-- Only the first pages of free blocks are marked. -/
  head_only {p} : z.InZone p → z.pageBuddy p → ∃ t, p ∈ z.freeList (z.pagePrivate p) t
  no_buddies {o t p} : p ∈ z.freeList o t → o < maxOrder - 1 → ∀ t', buddy o p ∉ z.freeList o t'
  nr_free (o) : z.nrFree o = ∑ t, ((z.freeList o t).length : ℤ)
  unused {o t p} : p ∈ z.freeList o t → Disjoint (block o p) used
  used_inZone {q} : q ∈ used → z.InZone q
  /-- The pages of the zone are the existing ones of its span. -/
  span {p} : z.pfnValid p →
    (z.zoneId p = z.id ↔ z.zoneStartPfn ≤ p ∧ p < z.zoneStartPfn + z.spannedPages)

/-- A block leaves the lists. -/
def takeBlock (z : Zone) (p o : ℕ) : Zone := ((z.listDel p).addNrFree o (-1)).rmvPageOrder p

/-- A block enters a list, which becomes `l`. -/
def putBlock (z : Zone) (p o : ℕ) (t : MigrateType) (l : List ℕ) : Zone :=
  ((z.setList o t l).addNrFree o 1).setPageOrder p o

end Zone

theorem sum_length_add {f g : MigrateType → List ℕ} {t : MigrateType} {c : ℤ}
    (ht : ((f t).length : ℤ) = (g t).length + c) (hne : ∀ t' ≠ t, f t' = g t') :
    ∑ t', ((f t').length : ℤ) = ∑ t', ((g t').length : ℤ) + c := by
  have hrest : ∑ t' ∈ univ.erase t, ((f t').length : ℤ) =
      ∑ t' ∈ univ.erase t, ((g t').length : ℤ) :=
    sum_congr rfl fun t' ht' => by rw [hne t' (ne_of_mem_erase ht')]
  rw [← add_sum_erase _ _ (mem_univ t), hrest, ht, add_right_comm,
    add_sum_erase _ (fun t' => ((g t').length : ℤ)) (mem_univ t)]

namespace Zone.BuddyInv

variable {z : Zone} {used : Finset ℕ} {o p : ℕ} {t : MigrateType}

section

variable (h : z.BuddyInv used) {q o' : ℕ} {t' : MigrateType}
include h

theorem not_pageBuddy (hp : p ∈ z.freeList o t) (hq : q ∈ block o p) (hne : q ≠ p) :
    z.pageBuddy q = false := by
  by_contra hbuddy
  obtain ⟨t', hq'⟩ := h.head_only (h.inZone hp q hq) (by simpa using hbuddy)
  exact hne (h.only_entry hp hq' hq (self_mem_block _ _)).1.symm

theorem not_mem_of_used (hp : p ∈ used) (o : ℕ) (t : MigrateType) : p ∉ z.freeList o t :=
  fun hmem => disjoint_left.mp (h.unused hmem) (self_mem_block o p) hp

theorem list_unique (hp : p ∈ z.freeList o t) (hp' : p ∈ z.freeList o' t') : o = o' ∧ t = t' :=
  (h.only_entry hp hp' (self_mem_block _ _) (self_mem_block _ _)).2

theorem mem_takeBlock : q ∈ (z.takeBlock p o).freeList o' t' ↔ q ≠ p ∧ q ∈ z.freeList o' t' :=
  (h.nodup o' t').mem_erase_iff

theorem nr_free_takeBlock (hp : p ∈ z.freeList o t) (o' : ℕ) :
    (z.takeBlock p o).nrFree o' = ∑ t', (((z.takeBlock p o).freeList o' t').length : ℤ) := by
  have hnot {t'} (hne : ¬ (o = o' ∧ t = t')) : p ∉ z.freeList o' t' :=
    fun hp' => hne (h.list_unique hp hp')
  by_cases ho : o' = o
  · subst ho
    have hlen : (((z.takeBlock p o').freeList o' t).length : ℤ) =
        (z.freeList o' t).length + (-1) := by
      have hpos := length_pos_of_mem hp
      change (((z.freeList o' t).erase p).length : ℤ) = _
      rw [length_erase_of_mem hp]
      omega
    rw [sum_length_add hlen fun t' hne => erase_of_not_mem (hnot fun hc => hne hc.2.symm),
      ← h.nr_free]
    simp [takeBlock, addNrFree, rmvPageOrder, listDel]
  · have hlists : ∀ t', (z.takeBlock p o).freeList o' t' = z.freeList o' t' := fun t' =>
      erase_of_not_mem (hnot fun hc => ho hc.1.symm)
    simp only [hlists, ← h.nr_free]
    simp [takeBlock, addNrFree, rmvPageOrder, listDel, ho]

theorem takeBlock (hp : p ∈ z.freeList o t) : (z.takeBlock p o).BuddyInv (used ∪ block o p) where
  order_lt hq := h.order_lt (h.mem_takeBlock.mp hq).2
  aligned hq := h.aligned (h.mem_takeBlock.mp hq).2
  inZone hq := h.inZone (h.mem_takeBlock.mp hq).2
  nodup o' t' := (h.nodup o' t').erase p
  only_entry hq hq' := h.only_entry (h.mem_takeBlock.mp hq).2 (h.mem_takeBlock.mp hq').2
  head hq := by
    obtain ⟨hne, hq⟩ := h.mem_takeBlock.mp hq
    simpa [Zone.takeBlock, rmvPageOrder, addNrFree, listDel, hne] using h.head hq
  head_only {q} hzone hbuddy := by
    have hne : q ≠ p := by
      rintro rfl
      simp [takeBlock, rmvPageOrder] at hbuddy
    have hbuddy' : z.pageBuddy q := by
      simpa [Zone.takeBlock, rmvPageOrder, addNrFree, listDel, hne] using hbuddy
    obtain ⟨t', hq⟩ := h.head_only hzone hbuddy'
    refine ⟨t', h.mem_takeBlock.mpr ⟨hne, ?_⟩⟩
    simpa [Zone.takeBlock, rmvPageOrder, addNrFree, listDel, hne] using hq
  no_buddies hq ho t' hq' := h.no_buddies (h.mem_takeBlock.mp hq).2 ho t' (h.mem_takeBlock.mp hq').2
  nr_free := h.nr_free_takeBlock hp
  unused {o' t' q} hq := by
    obtain ⟨hne, hq⟩ := h.mem_takeBlock.mp hq
    refine disjoint_union_right.mpr ⟨h.unused hq, ?_⟩
    rw [Finset.disjoint_left]
    exact fun r hr hr' => hne (h.only_entry hq hp hr hr').1
  used_inZone hq := by
    rcases mem_union.mp hq with hq | hq
    · exact h.used_inZone hq
    · exact h.inZone hp _ hq
  span := h.span

end

section Put

variable {l : List ℕ}

theorem putBlock_freeList (z : Zone) (p o : ℕ) (t : MigrateType) (l : List ℕ) (o' : ℕ)
    (t' : MigrateType) : (z.putBlock p o t l).freeList o' t' =
      if o' = o ∧ t' = t then l else z.freeList o' t' := by
  by_cases ho : o' = o
  · subst ho
    by_cases ht : t' = t
    · subst ht
      simp [putBlock, setPageOrder, addNrFree, setList]
    · simp [putBlock, setPageOrder, addNrFree, setList, ht]
  · simp [putBlock, setPageOrder, addNrFree, setList, ho]

theorem mem_putBlock (hl : l.Perm (p :: z.freeList o t)) {o' q : ℕ} {t' : MigrateType} :
    q ∈ (z.putBlock p o t l).freeList o' t' ↔ (q = p ∧ o' = o ∧ t' = t) ∨ q ∈ z.freeList o' t' := by
  rw [putBlock_freeList]
  split_ifs with hlist
  · obtain ⟨rfl, rfl⟩ := hlist
    simp [hl.mem_iff]
  · simp [hlist]

theorem nr_free_putBlock (h : z.BuddyInv used) (hl : l.Perm (p :: z.freeList o t)) (o' : ℕ) :
    (z.putBlock p o t l).nrFree o' = ∑ t', (((z.putBlock p o t l).freeList o' t').length : ℤ) := by
  by_cases ho : o' = o
  · subst ho
    have hlen : (((z.putBlock p o' t l).freeList o' t).length : ℤ) =
        (z.freeList o' t).length + 1 := by
      simp [putBlock_freeList, hl.length_eq]
    rw [sum_length_add hlen fun t' hne => by simp [putBlock_freeList, hne], ← h.nr_free]
    simp [putBlock, addNrFree, setPageOrder, setList]
  · simp only [putBlock_freeList, ho, false_and, if_false, ← h.nr_free]
    simp [putBlock, addNrFree, setPageOrder, setList, ho]

theorem putBlock (h : z.BuddyInv used) (ho : o < maxOrder) (haligned : 2 ^ o ∣ p)
    (hused : block o p ⊆ used) (hbuddy : o < maxOrder - 1 → ∀ t', buddy o p ∉ z.freeList o t')
    (hl : l.Perm (p :: z.freeList o t)) :
    (z.putBlock p o t l).BuddyInv (used \ block o p) := by
  have hfree : ∀ o' t', p ∉ z.freeList o' t' := h.not_mem_of_used (hused (self_mem_block o p))
  have hapart {o' t' q r} (hq : q ∈ z.freeList o' t') (hr : r ∈ block o p) (hr' : r ∈ block o' q) :
      False := disjoint_left.mp (h.unused hq) hr' (hused hr)
  constructor
  case order_lt =>
    intro o' t' q hq
    rcases (mem_putBlock hl).mp hq with ⟨-, rfl, -⟩ | hq
    · exact ho
    · exact h.order_lt hq
  case aligned =>
    intro o' t' q hq
    rcases (mem_putBlock hl).mp hq with ⟨rfl, rfl, -⟩ | hq
    · exact haligned
    · exact h.aligned hq
  case inZone =>
    intro o' t' q hq
    rcases (mem_putBlock hl).mp hq with ⟨rfl, rfl, -⟩ | hq
    · exact fun r hr => h.used_inZone (hused hr)
    · exact h.inZone hq
  case nodup =>
    intro o' t'
    rw [putBlock_freeList]
    split_ifs
    · exact hl.nodup_iff.mpr (List.nodup_cons.mpr ⟨hfree o t, h.nodup o t⟩)
    · exact h.nodup o' t'
  case only_entry =>
    intro o₁ t₁ p₁ o₂ t₂ p₂ q h₁ h₂ hq₁ hq₂
    rw [mem_putBlock hl] at h₁ h₂
    rcases h₁ with ⟨rfl, rfl, rfl⟩ | h₁ <;> rcases h₂ with ⟨rfl, rfl, rfl⟩ | h₂
    · exact ⟨rfl, rfl, rfl⟩
    · exact (hapart h₂ hq₁ hq₂).elim
    · exact (hapart h₁ hq₂ hq₁).elim
    · exact h.only_entry h₁ h₂ hq₁ hq₂
  case head =>
    intro o' t' q hq
    rcases (mem_putBlock hl).mp hq with ⟨rfl, rfl, -⟩ | hq
    · simp [putBlock, setPageOrder]
    · have hne : q ≠ p := fun hc => hfree _ _ (hc ▸ hq)
      simpa [Zone.putBlock, setPageOrder, addNrFree, setList, hne] using h.head hq
  case head_only =>
    intro q hzone hmark
    simp only [mem_putBlock hl]
    by_cases hne : q = p
    · subst hne
      exact ⟨t, .inl ⟨rfl, by simp [putBlock, setPageOrder], rfl⟩⟩
    · have hmark' : z.pageBuddy q := by
        simpa [Zone.putBlock, setPageOrder, addNrFree, setList, hne] using hmark
      obtain ⟨t', hq⟩ := h.head_only hzone hmark'
      refine ⟨t', .inr ?_⟩
      simpa [Zone.putBlock, setPageOrder, addNrFree, setList, hne] using hq
  case no_buddies =>
    intro o' t' q hq ho' t'' hq'
    rw [mem_putBlock hl] at hq hq'
    rcases hq with ⟨rfl, rfl, rfl⟩ | hq <;> rcases hq' with ⟨heq, ho'', -⟩ | hq'
    · exact buddy_ne haligned heq
    · exact hbuddy ho' t'' hq'
    · subst ho''
      have hq'' : buddy o' p = q := by rw [← heq, buddy_buddy (h.aligned hq)]
      exact hbuddy ho' t' (hq'' ▸ hq)
    · exact h.no_buddies hq ho' t'' hq'
  case nr_free => exact h.nr_free_putBlock hl
  case unused =>
    intro o' t' q hq
    rcases (mem_putBlock hl).mp hq with ⟨rfl, rfl, -⟩ | hq
    · exact disjoint_sdiff
    · exact (h.unused hq).mono_right sdiff_subset
  case used_inZone => exact fun hq => h.used_inZone (sdiff_subset hq)
  case span => exact h.span

end Put

end Zone.BuddyInv

end AndroidKernel.Mm
