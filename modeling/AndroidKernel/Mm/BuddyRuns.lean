import AndroidKernel.Mm.BuddyInvariant

/-!
# Runs of the buddy allocator

Coalescing, splitting and stealing keep the invariant, so every sequence of allocations and of frees
of pages that are handed out does.
-/

namespace AndroidKernel.Mm

open Dyadic Finset Function Zone

namespace Zone.BuddyInv

variable {z : Zone} {used : Finset ℕ} {o p : ℕ} {t : MigrateType}

section Free

/-- A buddy that `page_is_buddy` accepts is on a list of the order. -/
theorem mem_of_pageIsBuddy (h : z.BuddyInv used) (hp : p ∈ used) {b : ℕ}
    (hb : z.pageIsBuddy p b o) : ∃ t, b ∈ z.freeList o t := by
  simp only [pageIsBuddy, Bool.and_eq_true, beq_iff_eq] at hb
  obtain ⟨⟨⟨hvalid, hzone⟩, hbuddy⟩, horder⟩ := hb
  obtain ⟨t, hb⟩ := h.head_only ⟨hvalid, hzone ▸ (h.used_inZone hp).2⟩ hbuddy
  exact ⟨t, horder ▸ hb⟩

/-- `page_is_buddy` accepts what is on a list of the order. -/
theorem pageIsBuddy_of_mem (h : z.BuddyInv used) (hp : p ∈ used) {b : ℕ}
    (hb : b ∈ z.freeList o t) : z.pageIsBuddy p b o := by
  obtain ⟨hvalid, hzone⟩ := h.inZone hb b (self_mem_block o b)
  obtain ⟨hbuddy, horder⟩ := h.head hb
  simp [pageIsBuddy, hvalid, hzone, hbuddy, horder, (h.used_inZone hp).2]

/-- What the loop of `__free_one_page` leaves when it was given the block `p` of order `o`: an
aligned block in use, with no free buddy, that covers `p` and the free blocks taken. -/
structure Coalesced (used : Finset ℕ) (p o : ℕ) (r : Zone × ℕ × ℕ × ℕ) (used' : Finset ℕ) :
    Prop where
  inv : r.1.BuddyInv used'
  order_lt : r.2.2.2 < maxOrder
  aligned : 2 ^ r.2.2.2 ∣ r.2.1
  block_used : block r.2.2.2 r.2.1 ⊆ used'
  rest : used' \ block r.2.2.2 r.2.1 = used \ block o p
  no_buddy : r.2.2.2 < maxOrder - 1 → ∀ t, buddy r.2.2.2 r.2.1 ∉ r.1.freeList r.2.2.2 t

/-- The pages left in use after a block and its buddy, which was free, have been joined. -/
theorem sdiff_parent (haligned : 2 ^ o ∣ p) (hb : Disjoint (block o (buddy o p)) used) :
    (used ∪ block o (buddy o p)) \ block (o + 1) (parent o p) = used \ block o p := by
  rw [block_parent haligned]
  ext q
  have hfree : q ∈ block o (buddy o p) → q ∉ used := fun hq => Finset.disjoint_left.mp hb hq
  simp only [mem_sdiff, mem_union]
  tauto

theorem coalesce (fuel : ℕ) (h : z.BuddyInv used) (ho : o < maxOrder) (haligned : 2 ^ o ∣ p)
    (hused : block o p ⊆ used) (hfuel : maxOrder ≤ o + fuel) :
    ∃ used', Coalesced used p o (coalesce fuel z p (p % 2 ^ maxOrder) o) used' := by
  induction fuel generalizing z used o p with
  | zero => omega
  | succ fuel ih =>
    have hp : p ∈ used := hused (self_mem_block o p)
    have hfind : pageFindBuddy p (p % 2 ^ maxOrder) o = buddy o p := add_xor_sub ho haligned
    rw [coalesce, hfind]
    split_ifs with hbuddy
    · obtain ⟨t, hb⟩ := h.mem_of_pageIsBuddy hp hbuddy.2
      have hidx : findCombinedIndex (p % 2 ^ maxOrder) o = parent o p % 2 ^ maxOrder :=
        ldiff_eq_parent_mod ho haligned
      have hpage : p + parent o p % 2 ^ maxOrder - p % 2 ^ maxOrder = parent o p :=
        hidx ▸ add_ldiff_sub ho haligned
      have hblock : block (o + 1) (parent o p) ⊆ used ∪ block o (buddy o p) := by
        rw [block_parent haligned]
        exact union_subset_union_left hused
      obtain ⟨used', hc⟩ := ih (h.takeBlock hb) (by omega) (dvd_parent o p) hblock (by omega)
      simp only [hidx, hpage]
      exact ⟨used', { hc with rest := hc.rest.trans (sdiff_parent haligned (h.unused hb)) }⟩
    · refine ⟨used, h, ho, haligned, hused, rfl, fun hlt t hb => ?_⟩
      exact hbuddy ⟨hlt, h.pageIsBuddy_of_mem hp hb⟩

theorem freeOnePage (h : z.BuddyInv used) (ho : o < maxOrder) (haligned : 2 ^ o ∣ p)
    (hused : block o p ⊆ used) : (z.freeOnePage p o t).BuddyInv (used \ block o p) := by
  obtain ⟨used', hc⟩ := h.coalesce maxOrder ho haligned hused (by omega)
  rw [Zone.freeOnePage, Nat.and_two_pow_sub_one_eq_mod]
  revert hc
  rcases Zone.coalesce maxOrder z p (p % 2 ^ maxOrder) o with ⟨z', p', idx', o'⟩
  rintro ⟨hinv, ho', haligned', hused', hrest, hbuddy⟩
  rw [← hrest]
  dsimp only
  split_ifs
  · exact hinv.putBlock ho' haligned' hused' hbuddy (List.perm_append_singleton _ _)
  · exact hinv.putBlock ho' haligned' hused' hbuddy (.refl _)

end Free

section Take

/-- The pages left in use after the upper half of a block has been given back. -/
theorem sdiff_halves {low high : ℕ} (hle : low ≤ high) :
    (used \ block high (p + 2 ^ high)) \ (block high p \ block low p) =
      used \ (block (high + 1) p \ block low p) := by
  rw [block_succ]
  ext q
  have hdisjoint : q ∈ block high p → q ∉ block high (p + 2 ^ high) :=
    fun hq => Finset.disjoint_left.mp (disjoint_halves high p) hq
  have hmono := @block_mono low high hle p q
  simp only [mem_sdiff, mem_union]
  tauto

/-- Splitting a block in use gives back all of it but its first `2 ^ low` pages. -/
theorem expand {low high : ℕ} (h : z.BuddyInv used) (hle : low ≤ high) (hhigh : high < maxOrder)
    (haligned : 2 ^ high ∣ p) (hused : block high p ⊆ used) :
    (expand p low t high z).BuddyInv (used \ (block high p \ block low p)) := by
  induction high generalizing z used with
  | zero =>
    obtain rfl : low = 0 := by omega
    simpa [expand] using h
  | succ high ih =>
    rw [expand]
    split_ifs with hlow
    · have hhalves := disjoint_halves high p
      rw [block_succ] at hused
      have haligned' : 2 ^ high ∣ p := (Nat.pow_dvd_pow 2 high.le_succ).trans haligned
      have hput := h.putBlock (o := high) (p := p + 2 ^ high) (t := t)
        (l := (p + 2 ^ high) :: z.freeList high t) (by omega)
        ((Nat.dvd_add_right haligned').mpr dvd_rfl) (union_subset_right hused)
        (fun _ t' => by
          rw [buddy_upper haligned]
          exact h.not_mem_of_used (hused (mem_union_left _ (self_mem_block high p))) _ _)
        (.refl _)
      rw [← sdiff_halves (by omega)]
      refine ih hput (by omega) (by omega) haligned' ?_
      exact Finset.subset_sdiff.mpr ⟨union_subset_left hused, hhalves⟩
    · obtain rfl : low = high + 1 := by omega
      simpa using h

/-- What an allocation of order `o` gives: a block of free pages, which are then in use. -/
structure Allocated (z : Zone) (used : Finset ℕ) (o : ℕ) (r : ℕ × Zone) : Prop where
  aligned : 2 ^ o ∣ r.1
  fresh : Disjoint (block o r.1) used
  inv : r.2.BuddyInv (used ∪ block o r.1)

/-- A free block of order at least `o` is taken and split. -/
theorem allocated {c : ℕ} (t' : MigrateType) (h : z.BuddyInv used) (hle : o ≤ c)
    (hp : p ∈ z.freeList c t) :
    Allocated z used o (p, Zone.expand p o t' c (z.takeBlock p c)) := by
  refine ⟨(Nat.pow_dvd_pow 2 hle).trans (h.aligned hp),
    (h.unused hp).mono_left (block_mono hle p), ?_⟩
  have hexpand := (h.takeBlock hp).expand (t := t') hle (h.order_lt hp) (h.aligned hp)
    subset_union_right
  have hset : (used ∪ block c p) \ (block c p \ block o p) = used ∪ block o p := by
    ext q
    have hunused : q ∈ block c p → q ∉ used :=
      fun hq => Finset.disjoint_left.mp (h.unused hp) hq
    have hmono := @block_mono o c hle p q
    simp only [mem_sdiff, mem_union]
    tauto
  rwa [hset] at hexpand

end Take

section Fallback

variable {r : ℕ × Zone} {start : MigrateType}

theorem listAdd_listDel (h : z.BuddyInv used) (hp : p ∈ z.freeList o t) (t' : MigrateType) :
    (z.listDel p).listAdd p o t' =
      (z.takeBlock p o).putBlock p o t' (p :: (z.takeBlock p o).freeList o t') := by
  obtain ⟨hbuddy, horder⟩ := h.head hp
  have hbuddy' : update z.pageBuddy p true = z.pageBuddy := by rw [← hbuddy, update_eq_self]
  have horder' : update z.pagePrivate p o = z.pagePrivate := by rw [← horder, update_eq_self]
  simp [Zone.takeBlock, Zone.putBlock, listAdd, listDel, addNrFree, setPageOrder, rmvPageOrder,
    setList, hbuddy', horder']

/-- The zone with the same entries in possibly other lists of their orders. -/
structure Moved (z : Zone) (used : Finset ℕ) (z' : Zone) : Prop where
  inv : z'.BuddyInv used
  mem : ∀ {o p}, (∃ t, p ∈ z.freeList o t) ↔ ∃ t', p ∈ z'.freeList o t'
  nrFree : z'.nrFree = z.nrFree

section

variable (h : z.BuddyInv used)
include h

theorem moved_list (hp : p ∈ z.freeList o t) (t' : MigrateType) :
    Moved z used ((z.listDel p).listAdd p o t') := by
  rw [h.listAdd_listDel hp]
  have hbuddy : o < maxOrder - 1 → ∀ t'', buddy o p ∉ (z.takeBlock p o).freeList o t'' :=
    fun ho t'' hb => h.no_buddies hp ho t'' (h.mem_takeBlock.mp hb).2
  have hput := (h.takeBlock hp).putBlock (t := t') (h.order_lt hp) (h.aligned hp)
    subset_union_right hbuddy (.refl _)
  refine ⟨?_, fun {o' q} => ?_, ?_⟩
  · rwa [union_sdiff_cancel_right (h.unused hp).symm] at hput
  · simp only [mem_putBlock (.refl _), h.mem_takeBlock]
    by_cases hne : q = p
    · subst hne
      refine ⟨fun ⟨_, hq⟩ => ⟨t', .inl ⟨rfl, (h.list_unique hp hq).1.symm, rfl⟩⟩, ?_⟩
      rintro ⟨_, ⟨-, rfl, -⟩ | ⟨hne, -⟩⟩
      · exact ⟨t, hp⟩
      · exact absurd rfl hne
    · simp [hne]
  · rw [← h.listAdd_listDel hp]
    rfl

theorem moveFreepages {endPage page moved : ℕ}
    (hzone : ∀ q, page ≤ q → q ≤ endPage → z.pfnValid q → z.InZone q) :
    Moved z used (moveFreepages t endPage page moved z).2 := by
  fun_induction Zone.moveFreepages t endPage page moved z with
  | case1 => exact ⟨h, .rfl, rfl⟩
  | case2 page moved z hle hskip ih => exact ih h fun q hq => hzone q (by omega)
  | case3 page moved z hle hskip order z' ih =>
    simp only [Bool.not_eq_true, not_or, Bool.not_eq_false] at hskip
    obtain ⟨t', hp⟩ := h.head_only (hzone page le_rfl (by omega) hskip.1) hskip.2
    have hmoved := h.moved_list hp t
    have hrest := ih hmoved.inv fun q hq => hzone q ((Nat.le_add_right _ _).trans hq)
    exact ⟨hrest.inv, hmoved.mem.trans hrest.mem, hrest.nrFree.trans hmoved.nrFree⟩

theorem Moved.refl : Moved z used z := ⟨h, .rfl, rfl⟩

theorem moveFreepagesBlock (hp : p ∈ z.freeList o t) (t' : MigrateType) :
    Moved z used (z.moveFreepagesBlock p t').2 := by
  rw [Zone.moveFreepagesBlock]
  by_cases hend : z.zoneStartPfn + z.spannedPages ≤
      p / 2 ^ pageblockOrder * 2 ^ pageblockOrder + 2 ^ pageblockOrder - 1
  · rw [if_pos hend]
    exact .refl h
  · rw [if_neg hend]
    refine h.moveFreepages fun q hq hq' hvalid => ⟨hvalid, (h.span hvalid).mpr ⟨?_, by omega⟩⟩
    split_ifs at hq with hstart
    · obtain ⟨hpvalid, hpzone⟩ := h.inZone hp p (self_mem_block o p)
      exact ((h.span hpvalid).mp hpzone).1.trans hq
    · omega

end

theorem moveFreepages_addNrFree (t : MigrateType) (endPage page moved o : ℕ) (n : ℤ) (z : Zone) :
    Zone.moveFreepages t endPage page moved (z.addNrFree o n) =
      ((Zone.moveFreepages t endPage page moved z).1,
        (Zone.moveFreepages t endPage page moved z).2.addNrFree o n) := by
  fun_induction Zone.moveFreepages t endPage page moved z with
  | case1 page moved z hlt => rw [Zone.moveFreepages, if_pos hlt]
  | case2 page moved z hle hskip ih =>
    rw [Zone.moveFreepages, if_neg hle, if_pos (by exact hskip), ih]
  | case3 page moved z hle hskip order z' ih =>
    rw [Zone.moveFreepages, if_neg hle, if_neg (by exact hskip)]
    exact ih

theorem moveFreepagesBlock_addNrFree (z : Zone) (p : ℕ) (t : MigrateType) (o : ℕ) (n : ℤ) :
    (z.addNrFree o n).moveFreepagesBlock p t =
      ((z.moveFreepagesBlock p t).1, (z.moveFreepagesBlock p t).2.addNrFree o n) := by
  by_cases hend : z.zoneStartPfn + z.spannedPages ≤
      p / 2 ^ pageblockOrder * 2 ^ pageblockOrder + 2 ^ pageblockOrder - 1
  · rw [Zone.moveFreepagesBlock, if_pos (by exact hend), Zone.moveFreepagesBlock, if_pos hend]
  · rw [Zone.moveFreepagesBlock, if_neg (by exact hend), Zone.moveFreepagesBlock, if_neg hend,
      moveFreepages_addNrFree]
    rfl

/-- The zone with other types of its pageblocks. -/
def withTypes (z : Zone) (types : ℕ → MigrateType) : Zone :=
  { z with pageblockMigratetype := types }

theorem types (h : z.BuddyInv used) (types : ℕ → MigrateType) :
    (withTypes z types).BuddyInv used := by
  obtain ⟨h₁, h₂, h₃, h₄, h₅, h₆, h₇, h₈, h₉, h₁₀, h₁₁, h₁₂⟩ := h
  exact ⟨h₁, h₂, h₃, h₄, h₅, h₆, h₇, h₈, h₉, h₁₀, h₁₁, h₁₂⟩

theorem changePageblockRange_eq (t : MigrateType) (n page : ℕ) (z : Zone) :
    ∃ types, changePageblockRange t n page z = withTypes z types := by
  induction n generalizing page z with
  | zero => exact ⟨z.pageblockMigratetype, rfl⟩
  | succ n ih => exact ih _ _

theorem ite_withTypes {c : Prop} [Decidable c] {z' : Zone} (h : ∃ types, z' = withTypes z types) :
    ∃ types, (if c then z' else z) = withTypes z types := by
  split_ifs
  · exact h
  · exact ⟨z.pageblockMigratetype, rfl⟩

/-- Stealing is taking the block out of the lists, after blocks of its pageblock have moved, and
splitting it. -/
theorem stealFallback_eq (z : Zone) (o : ℕ) (start : MigrateType) (c p : ℕ) (t : MigrateType) :
    ∃ t' types z₁, (z₁ = z ∨ z₁ = (z.moveFreepagesBlock p start).2) ∧
      z.stealFallback o start c p t =
        Zone.expand p o t' c (withTypes (z₁.takeBlock p c) types) := by
  have hrange (z' : Zone) : ∃ types, (if pageblockOrder ≤ c then
      changePageblockRange start (2 ^ (c - pageblockOrder)) p z' else z') = withTypes z' types :=
    ite_withTypes (changePageblockRange_eq _ _ _ _)
  rw [Zone.stealFallback, moveFreepagesBlock_addNrFree]
  by_cases hsteals : pageblockOrder / 2 ≤ c ∨ start = .reclaimable ∨
      (z.addNrFree c (-1)).groupingDisabled
  · have hclaim : ∃ types, (if 2 ^ (pageblockOrder - 1) ≤ (z.moveFreepagesBlock p start).1 ∨
        ((z.moveFreepagesBlock p start).2.addNrFree c (-1)).groupingDisabled then
          ((z.moveFreepagesBlock p start).2.addNrFree c (-1)).setPageblockMigratetype p start
        else (z.moveFreepagesBlock p start).2.addNrFree c (-1)) =
          withTypes ((z.moveFreepagesBlock p start).2.addNrFree c (-1)) types :=
      ite_withTypes ⟨_, rfl⟩
    obtain ⟨types, htypes⟩ := hclaim
    obtain ⟨types', htypes'⟩ := hrange (((withTypes ((z.moveFreepagesBlock p start).2.addNrFree
      c (-1)) types).listDel p).rmvPageOrder p)
    rw [if_pos hsteals]
    dsimp only
    rw [htypes, htypes']
    exact ⟨start, types', _, .inr rfl, rfl⟩
  · obtain ⟨types, htypes⟩ := hrange (((z.addNrFree c (-1)).listDel p).rmvPageOrder p)
    rw [if_neg hsteals]
    dsimp only
    rw [htypes]
    exact ⟨t, types, z, .inl rfl, rfl⟩

/-- An allocation takes a free block of order at least `o`, perhaps after blocks of its pageblock
have moved, and splits it. -/
def Takes (z : Zone) (o : ℕ) (r : ℕ × Zone) : Prop :=
  ∃ c t t' types z₁, o ≤ c ∧ r.1 ∈ z.freeList c t ∧
    (z₁ = z ∨ ∃ start, z₁ = (z.moveFreepagesBlock r.1 start).2) ∧
    r.2 = Zone.expand r.1 o t' c (withTypes (z₁.takeBlock r.1 c) types)

theorem rmqueueFrom {left : ℕ} (hleft : left ≤ maxOrder - o)
    (hr : z.rmqueueFrom o t left = some r) : Takes z o r := by
  induction left with
  | zero => simp [Zone.rmqueueFrom] at hr
  | succ left ih =>
    rw [Zone.rmqueueFrom] at hr
    split at hr
    · exact ih (by omega) hr
    · next page rest heq =>
      obtain rfl := Option.some.inj hr
      exact ⟨_, t, t, _, z, by omega, heq ▸ List.mem_cons_self, .inl rfl, rfl⟩

theorem fallbackTypes {c : ℕ} {types : List MigrateType} (hle : o ≤ c)
    (hr : z.fallbackTypes o start c types = some r) : Takes z o r := by
  induction types with
  | nil => simp [Zone.fallbackTypes] at hr
  | cons t types ih =>
    rw [Zone.fallbackTypes] at hr
    split_ifs at hr
    · exact ih hr
    · split at hr
      · exact ih hr
      · next page rest heq =>
        obtain rfl := Option.some.inj hr
        obtain ⟨t', types, z₁, hz₁, hsteal⟩ := stealFallback_eq z o start c page t
        exact ⟨c, t, t', types, z₁, hle, heq ▸ List.mem_cons_self, hz₁.imp_right fun h => ⟨_, h⟩,
          hsteal⟩

theorem fallbackOrders {current : ℕ} (hr : z.fallbackOrders o start current = some r) :
    Takes z o r := by
  induction current with
  | zero => simp [Zone.fallbackOrders] at hr
  | succ current ih =>
    rw [Zone.fallbackOrders] at hr
    split_ifs at hr with hle
    split at hr
    · next found hfound => exact fallbackTypes hle (hfound.trans hr)
    · exact ih hr

theorem takes_of_rmqueue (hr : z.rmqueue o t = some r) : Takes z o r := by
  rw [rmqueue] at hr
  split at hr
  · next found hfound => exact rmqueueFrom le_rfl (hfound.trans hr)
  · split_ifs at hr
    split at hr
    · next found hfound => exact fallbackOrders (hfound.trans hr)
    · exact rmqueueFrom le_rfl hr

theorem takes_moved (h : z.BuddyInv used) (hr : Takes z o r) :
    ∃ c t t' z₁, o ≤ c ∧ Moved z used z₁ ∧ r.1 ∈ z₁.freeList c t ∧
      r.2 = Zone.expand r.1 o t' c (z₁.takeBlock r.1 c) := by
  obtain ⟨c, t, t', types, z₁, hle, hp, hz₁, heq⟩ := hr
  have hmoved : Moved z used z₁ := by
    rcases hz₁ with rfl | ⟨start, rfl⟩
    · exact .refl h
    · exact h.moveFreepagesBlock hp start
  obtain ⟨t₁, hp₁⟩ := hmoved.mem.mp ⟨t, hp⟩
  exact ⟨c, t₁, t', withTypes z₁ types, hle,
    ⟨hmoved.inv.types types, hmoved.mem, hmoved.nrFree⟩, hp₁, heq⟩

theorem rmqueue (h : z.BuddyInv used) (hr : z.rmqueue o t = some r) : Allocated z used o r := by
  obtain ⟨c, t₁, t', z₁, hle, hmoved, hp, heq⟩ := h.takes_moved (takes_of_rmqueue hr)
  have halloc := hmoved.inv.allocated t' hle hp
  rw [← heq] at halloc
  exact ⟨halloc.aligned, halloc.fresh, halloc.inv⟩

end Fallback

theorem setPagePrivate (h : z.BuddyInv used) (hp : p ∈ used) (value : ℕ) :
    (z.setPagePrivate p value).BuddyInv used where
  order_lt := h.order_lt
  aligned := h.aligned
  inZone := h.inZone
  nodup := h.nodup
  only_entry := h.only_entry
  head {o t q} hq := by
    have hne : q ≠ p := fun hc => h.not_mem_of_used hp o t (hc ▸ hq)
    simpa [Zone.setPagePrivate, hne] using h.head hq
  head_only {q} hzone hmark := by
    obtain ⟨t, hq⟩ := h.head_only hzone hmark
    have hne : q ≠ p := fun hc => h.not_mem_of_used hp _ t (hc ▸ hq)
    exact ⟨t, by simpa [Zone.setPagePrivate, hne] using hq⟩
  no_buddies := h.no_buddies
  nr_free := h.nr_free
  unused := h.unused
  used_inZone := h.used_inZone
  span := h.span

end Zone.BuddyInv

/-- What is done with a zone. -/
inductive Op where
  /-- `__rmqueue` -/
  | rmqueue (order : ℕ) (t : MigrateType)
  /-- `__free_one_page` -/
  | freeOnePage (page order : ℕ) (t : MigrateType)
  /-- `set_page_private` on a page that is handed out. -/
  | setPagePrivate (page value : ℕ)
  deriving DecidableEq, Repr

/-- A zone and the pages that are handed out and not yet freed. -/
structure State where
  zone : Zone
  used : Finset ℕ

namespace State

variable (s : State)

/-- One operation; an allocation that fails changes nothing. -/
def step : Op → State
  | .rmqueue order t =>
    match s.zone.rmqueue order t with
    | some (page, zone) => ⟨zone, s.used ∪ block order page⟩
    | none => s
  | .freeOnePage page order t => ⟨s.zone.freeOnePage page order t, s.used \ block order page⟩
  | .setPagePrivate page value => ⟨s.zone.setPagePrivate page value, s.used⟩

/-- A sequence of operations. -/
def run (ops : List Op) : State := ops.foldl step s

/-- The callers only free aligned blocks of pages that are handed out, and only write to such
pages. -/
def Legal : Op → Prop
  | .rmqueue _ _ => True
  | .freeOnePage page order _ => order < maxOrder ∧ 2 ^ order ∣ page ∧ block order page ⊆ s.used
  | .setPagePrivate page _ => page ∈ s.used

/-- Every operation of the sequence is legal when it is done. -/
def AllLegal (s : State) : List Op → Prop
  | [] => True
  | op :: ops => s.Legal op ∧ (s.step op).AllLegal ops

instance decidableLegal (s : State) : DecidablePred s.Legal
  | .rmqueue _ _ => .isTrue trivial
  | .freeOnePage page order _ =>
    inferInstanceAs (Decidable (order < maxOrder ∧ 2 ^ order ∣ page ∧ block order page ⊆ s.used))
  | .setPagePrivate page _ => inferInstanceAs (Decidable (page ∈ s.used))

instance decidableAllLegal (s : State) : (ops : List Op) → Decidable (s.AllLegal ops)
  | [] => .isTrue trivial
  | op :: ops =>
    have := decidableAllLegal (s.step op) ops
    inferInstanceAs (Decidable (s.Legal op ∧ (s.step op).AllLegal ops))

/-- The invariant of the zone with the pages handed out. -/
def Inv : Prop := s.zone.BuddyInv s.used

theorem Inv.step {s : State} (h : s.Inv) {op : Op} (hop : s.Legal op) : (s.step op).Inv := by
  cases op with
  | rmqueue order t =>
    rw [State.step]
    split
    · next page zone hr => exact (BuddyInv.rmqueue h hr).inv
    · exact h
  | freeOnePage page order t =>
    obtain ⟨horder, haligned, hused⟩ := hop
    exact BuddyInv.freeOnePage h horder haligned hused
  | setPagePrivate page value => exact BuddyInv.setPagePrivate h hop value

theorem Inv.run {s : State} {ops : List Op} (h : s.Inv) (hops : s.AllLegal ops) :
    (s.run ops).Inv := by
  induction ops generalizing s with
  | nil => exact h
  | cons op ops ih => exact ih (h.step hops.1) hops.2

/-- From any state that satisfies the invariant, every sequence of allocations and of frees of pages
handed out reaches a state that satisfies it, in which only the first pages of free blocks are
marked; and what an allocation returns is an aligned block of which no page was handed out. -/
theorem buddy_invariant_kept {s : State} {ops : List Op} (h : s.Inv) (hops : s.AllLegal ops) :
    (s.run ops).Inv ∧ (∀ o t p, p ∈ (s.run ops).zone.freeList o t →
        ∀ q ∈ block o p, q ≠ p → (s.run ops).zone.pageBuddy q = false) ∧
      ∀ o t page zone, (s.run ops).zone.rmqueue o t = some (page, zone) →
        2 ^ o ∣ page ∧ Disjoint (block o page) (s.run ops).used := by
  have hinv := h.run hops
  refine ⟨hinv, fun o t p hp q hq hne => BuddyInv.not_pageBuddy hinv hp hq hne, ?_⟩
  intro o t page zone hr
  have halloc := BuddyInv.rmqueue hinv hr
  exact ⟨halloc.aligned, halloc.fresh⟩

/-- A zone of four pages that are all handed out. -/
def fourPages : State where
  zone :=
    { freeList := fun _ _ => []
      nrFree := fun _ => 0
      pageBuddy := fun _ => false
      pagePrivate := fun _ => 0
      pageblockMigratetype := fun _ => .movable
      pfnValid := fun p => decide (p < 4)
      zoneId := fun _ => 0
      id := 0
      zoneStartPfn := 0
      spannedPages := 4
      groupingDisabled := false }
  used := block 2 0

theorem fourPages_inv : fourPages.Inv := by constructor <;> simp [fourPages, InZone]

/-- The four pages are freed, two of them one by one, and one is allocated. -/
def fourPagesOps : List Op :=
  [.freeOnePage 2 1 .movable, .setPagePrivate 0 7, .freeOnePage 0 0 .movable,
    .freeOnePage 1 0 .movable, .rmqueue 0 .movable]

theorem buddy_invariant_kept_four_pages : (fourPages.run fourPagesOps).Inv :=
  (buddy_invariant_kept fourPages_inv (by decide +kernel)).1

end State

end AndroidKernel.Mm
