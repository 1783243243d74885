import AndroidKernel.Mm.BuddyTotals

/-!
# No page is lost

Over whole runs the pages on the lists and the pages handed out are the same pages, and free pages
are joined as far as the orders allow.
-/

namespace AndroidKernel.Mm

open Dyadic Zone

namespace Zone

variable {z : Zone} {used : Finset ℕ} {o p q : ℕ} {t : MigrateType}

/-- Free pages that make up an aligned block are in one block on a list. -/
theorem BuddyInv.exists_block (h : z.BuddyInv used) (ho : o < maxOrder) (hp : 2 ^ o ∣ p)
    (hfree : ∀ q ∈ block o p, z.Free q) :
    ∃ c t p', o ≤ c ∧ p' ∈ z.freeList c t ∧ block o p ⊆ block c p' := by
  induction o generalizing p with
  | zero =>
    obtain ⟨c, t, p', hp', hq⟩ := hfree p (self_mem_block 0 p)
    exact ⟨c, t, p', c.zero_le, hp', block_subset_of_mem c.zero_le hp (h.aligned hp')
      (self_mem_block 0 p) hq⟩
  | succ o ih =>
    by_contra hnone
    -- a half inside a larger block would take the other one with it
    have hhalf {r : ℕ} (hr : 2 ^ o ∣ r) (hsub : block o r ⊆ block (o + 1) p) :
        ∃ t, r ∈ z.freeList o t := by
      obtain ⟨c, t, p', hc, hp', hsub'⟩ := ih (by omega) hr fun q hq => hfree q (hsub hq)
      have hself := self_mem_block o r
      obtain rfl : c = o := by
        by_contra hne
        exact hnone ⟨c, t, p', by omega, hp', block_subset_of_mem (by omega) hp (h.aligned hp')
          (hsub hself) (hsub' hself)⟩
      have hdiv := (mem_block_iff (h.aligned hp')).mp (hsub' hself)
      exact ⟨t, (Nat.div_left_inj hr (h.aligned hp')).mp hdiv ▸ hp'⟩
    have hlow : 2 ^ o ∣ p := (Nat.pow_dvd_pow 2 o.le_succ).trans hp
    rw [block_succ] at hhalf
    obtain ⟨t, hp₁⟩ := hhalf hlow Finset.subset_union_left
    obtain ⟨t', hp₂⟩ := hhalf ((Nat.dvd_add_right hlow).mpr dvd_rfl) Finset.subset_union_right
    exact h.no_buddies hp₂ (by omega) t ((buddy_upper hp).symm ▸ hp₁)

theorem BuddyInv.free_coalesce (fuel : ℕ) (h : z.BuddyInv used) (ho : o < maxOrder)
    (hp : 2 ^ o ∣ p) (hused : block o p ⊆ used) :
    let r := Zone.coalesce fuel z p (p % 2 ^ maxOrder) o
    r.1.Free q ∨ q ∈ block r.2.2.2 r.2.1 ↔ z.Free q ∨ q ∈ block o p := by
  induction fuel generalizing z used o p with
  | zero => rfl
  | succ fuel ih =>
    have hfind : pageFindBuddy p (p % 2 ^ maxOrder) o = buddy o p := add_xor_sub ho hp
    rw [Zone.coalesce, hfind]
    split_ifs with hbuddy
    · obtain ⟨t, hb⟩ := h.mem_of_pageIsBuddy (hused (self_mem_block o p)) hbuddy.2
      have hidx : findCombinedIndex (p % 2 ^ maxOrder) o = parent o p % 2 ^ maxOrder :=
        ldiff_eq_parent_mod ho hp
      have hpage : p + parent o p % 2 ^ maxOrder - p % 2 ^ maxOrder = parent o p :=
        hidx ▸ add_ldiff_sub ho hp
      have hfree : q ∈ block o (buddy o p) → z.Free q := fun hq => ⟨o, t, _, hb, hq⟩
      have hblock := block_parent hp
      simp only [hidx, hpage]
      refine (ih (h.takeBlock hb) (by omega) (dvd_parent o p)
        (hblock ▸ Finset.union_subset_union_left hused)).trans ?_
      rw [h.free_takeBlock hb, hblock, Finset.mem_union]
      tauto
    · rfl

/-- What `__free_one_page` frees is on the lists afterwards, with what was there. -/
theorem BuddyInv.free_freeOnePage (h : z.BuddyInv used) (ho : o < maxOrder) (hp : 2 ^ o ∣ p)
    (hused : block o p ⊆ used) : (z.freeOnePage p o t).Free q ↔ z.Free q ∨ q ∈ block o p := by
  refine Iff.trans ?_ (h.free_coalesce maxOrder ho hp hused)
  rw [Zone.freeOnePage, Nat.and_two_pow_sub_one_eq_mod]
  rcases Zone.coalesce maxOrder z p (p % 2 ^ maxOrder) o with ⟨z', p', idx', o'⟩
  dsimp only
  split_ifs
  · exact free_putBlock (List.perm_append_singleton _ _)
  · exact free_putBlock (.refl _)

theorem BuddyInv.free_rmqueue {z' : Zone} (h : z.BuddyInv used)
    (hr : z.rmqueue o t = some (p, z')) :
    z'.Free q ∨ q ∈ block o p ↔ z.Free q := by
  obtain ⟨c, t₁, t', z₁, hle, hmoved, hp, heq⟩ := h.takes_moved (takes_of_rmqueue hr)
  dsimp only at hp heq
  rw [heq, free_expand hle, hmoved.inv.free_takeBlock hp, hmoved.free]
  have hfree : q ∈ block c p → z.Free q := fun hq => hmoved.free.mp ⟨c, t₁, p, hp, hq⟩
  have hmono := @block_mono o c hle p q
  tauto

end Zone

namespace State

variable {s : State} {q : ℕ}

/-- The pages that the allocator has to account for. -/
def Managed (s : State) (q : ℕ) : Prop := s.zone.Free q ∨ q ∈ s.used

theorem Inv.managed_step (h : s.Inv) {op : Op} (hop : s.Legal op) :
    (s.step op).Managed q ↔ s.Managed q := by
  cases op with
  | rmqueue order t =>
    rw [State.step]
    split
    · next page zone hr =>
      have hfree := BuddyInv.free_rmqueue (q := q) h hr
      simp only [Managed, Finset.mem_union]
      tauto
    · rfl
  | freeOnePage page order t =>
    obtain ⟨horder, haligned, hused⟩ := hop
    have hfree := BuddyInv.free_freeOnePage (t := t) (q := q) h horder haligned hused
    have hmem := @hused q
    simp only [Managed, State.step, hfree, Finset.mem_sdiff]
    tauto
  | setPagePrivate page value => rfl

theorem Inv.managed_run {ops : List Op} (h : s.Inv) (hops : s.AllLegal ops) :
    (s.run ops).Managed q ↔ s.Managed q := by
  induction ops generalizing s with
  | nil => rfl
  | cons op ops ih => exact (ih (h.step hops.1) hops.2).trans (h.managed_step hops.1)

/-- Every sequence of allocations and of frees of pages handed out leaves each page the allocator
accounts for either on one list or handed out, and no other page; and an aligned block of such
pages of which none is handed out is inside one block on a list, however its pages were freed. -/
theorem pages_kept_and_coalesced (s : State) (ops : List Op) (h : s.Inv)
    (hops : s.AllLegal ops) :
    (∀ q, (s.run ops).Managed q ↔ s.Managed q) ∧
    (∀ q, (s.run ops).zone.Free q → q ∉ (s.run ops).used) ∧
    ∀ o p, o < maxOrder → 2 ^ o ∣ p →
      (∀ q ∈ block o p, s.Managed q ∧ q ∉ (s.run ops).used) →
      ∃ c t p', o ≤ c ∧ p' ∈ (s.run ops).zone.freeList c t ∧ block o p ⊆ block c p' := by
  have hinv := h.run hops
  refine ⟨fun q => h.managed_run hops, fun q hq hused => ?_, fun o p ho hp hblock => ?_⟩
  · obtain ⟨o, t, p, hp, hmem⟩ := hq
    exact Finset.disjoint_left.mp (BuddyInv.unused hinv hp) hmem hused
  · refine BuddyInv.exists_block hinv ho hp fun q hq => ?_
    obtain ⟨hmanaged, hnot⟩ := hblock q hq
    exact ((h.managed_run hops).mpr hmanaged).resolve_right hnot

/-- The upper two of four pages, when one of the lower two is handed out again. -/
theorem pages_kept_and_coalesced_four_pages :
    ∃ c t p', 1 ≤ c ∧ p' ∈ (fourPages.run fourPagesOps).zone.freeList c t ∧
      block 1 2 ⊆ block c p' := by
  refine (pages_kept_and_coalesced fourPages fourPagesOps fourPages_inv
    (by decide +kernel)).2.2 1 2 (by decide) (by decide) fun q hq => ⟨.inr ?_, ?_⟩
  · simp only [fourPages, mem_block] at hq ⊢
    omega
  · revert q
    decide +kernel

end State

end AndroidKernel.Mm
