import AndroidKernel.Mm.BuddyRuns

/-!
# What an allocation takes

`__rmqueue` fails only if the lists it may take from are empty. If it succeeds, the pages it returns
are the only ones that were free and are not any more.
-/

namespace AndroidKernel.Mm

open Dyadic Finset Function List Zone

namespace Zone

variable {z : Zone} {used : Finset ℕ} {o p q : ℕ} {t : MigrateType}

/-- The page is in a block on a list. -/
def Free (z : Zone) (q : ℕ) : Prop := ∃ o t p, p ∈ z.freeList o t ∧ q ∈ block o p

/-- The number of pages in the blocks on the lists. -/
def freePages (z : Zone) : ℤ :=
  ∑ o ∈ Finset.range maxOrder, (∑ t, ((z.freeList o t).length : ℤ)) * 2 ^ o

/-- The types of blocks that `__rmqueue` may take. -/
def allowedTypes (t : MigrateType) : List MigrateType :=
  t :: ((if t = .reserve then [] else fallbacks t) ++ [.reserve])

/-- The number of pages that the counters give. -/
def countedPages (nrFree : ℕ → ℤ) : ℤ := ∑ o ∈ Finset.range maxOrder, nrFree o * 2 ^ o

theorem BuddyInv.freePages_eq (h : z.BuddyInv used) : z.freePages = countedPages z.nrFree :=
  sum_congr rfl fun o _ => by rw [h.nr_free]

theorem countedPages_update (f : ℕ → ℤ) (ho : o < maxOrder) (n : ℤ) :
    countedPages (update f o (f o + n)) = countedPages f + n * 2 ^ o := by
  have hmem := Finset.mem_range.mpr ho
  have hrest : ∑ c ∈ (Finset.range maxOrder).erase o, update f o (f o + n) c * 2 ^ c =
      ∑ c ∈ (Finset.range maxOrder).erase o, f c * 2 ^ c :=
    sum_congr rfl fun c hc => by rw [update_of_ne (ne_of_mem_erase hc)]
  rw [countedPages, countedPages, ← add_sum_erase _ _ hmem, hrest, update_self,
    ← add_sum_erase _ (fun c => f c * 2 ^ c) hmem]
  ring

section Expand

variable {low high : ℕ}

theorem countedPages_expand (hle : low ≤ high) (hhigh : high < maxOrder) :
    countedPages (expand p low t high z).nrFree = countedPages z.nrFree + 2 ^ high - 2 ^ low := by
  induction high generalizing z with
  | zero =>
    obtain rfl : low = 0 := by omega
    simp [expand]
  | succ high ih =>
    rw [expand]
    split_ifs with hlow
    · rw [ih (by omega) (by omega)]
      change countedPages (update z.nrFree high (z.nrFree high + 1)) + _ - _ = _
      rw [countedPages_update _ (by omega), pow_succ]
      ring
    · obtain rfl : low = high + 1 := by omega
      ring

theorem free_putBlock {l : List ℕ} (hl : l.Perm (p :: z.freeList o t)) :
    (z.putBlock p o t l).Free q ↔ z.Free q ∨ q ∈ block o p := by
  simp only [Free, BuddyInv.mem_putBlock hl]
  constructor
  · rintro ⟨o', t', p', ⟨rfl, rfl, rfl⟩ | hp, hq⟩
    · exact .inr hq
    · exact .inl ⟨o', t', p', hp, hq⟩
  · rintro (⟨o', t', p', hp, hq⟩ | hq)
    · exact ⟨o', t', p', .inr hp, hq⟩
    · exact ⟨o, t, p, .inl ⟨rfl, rfl, rfl⟩, hq⟩

theorem free_expand (hle : low ≤ high) :
    (expand p low t high z).Free q ↔ z.Free q ∨ q ∈ block high p ∧ q ∉ block low p := by
  induction high generalizing z with
  | zero =>
    obtain rfl : low = 0 := by omega
    simp [expand]
  | succ high ih =>
    rw [expand]
    split_ifs with hlow
    · have hput := @free_putBlock z high (p + 2 ^ high) q t _ (.refl _)
      have hlower : q ∈ block low p → q ∉ block high (p + 2 ^ high) := fun hq =>
        Finset.disjoint_left.mp (disjoint_halves high p) (block_mono (by omega) p hq)
      refine (ih (by omega)).trans ((or_congr_left hput).trans ?_)
      rw [block_succ, mem_union]
      tauto
    · obtain rfl : low = high + 1 := by omega
      simp

end Expand

theorem BuddyInv.free_takeBlock (h : z.BuddyInv used) (hp : p ∈ z.freeList o t) :
    (z.takeBlock p o).Free q ↔ z.Free q ∧ q ∉ block o p := by
  simp only [Free, h.mem_takeBlock]
  constructor
  · rintro ⟨o', t', p', ⟨hne, hp'⟩, hq⟩
    exact ⟨⟨o', t', p', hp', hq⟩, fun hq' => hne (h.only_entry hp' hp hq hq').1⟩
  · rintro ⟨⟨o', t', p', hp', hq⟩, hnot⟩
    refine ⟨o', t', p', ⟨?_, hp'⟩, hq⟩
    rintro rfl
    exact hnot ((h.list_unique hp hp').1 ▸ hq)

theorem BuddyInv.Moved.free {z' : Zone} (h : Moved z used z') : z'.Free q ↔ z.Free q := by
  unfold Free
  constructor
  · rintro ⟨o, t, p, hp, hq⟩
    obtain ⟨t', hp'⟩ := h.mem.mpr ⟨t, hp⟩
    exact ⟨o, t', p, hp', hq⟩
  · rintro ⟨o, t, p, hp, hq⟩
    obtain ⟨t', hp'⟩ := h.mem.mp ⟨t, hp⟩
    exact ⟨o, t', p, hp', hq⟩

section Fails

variable {c : ℕ} {start : MigrateType}

theorem rmqueueFrom_eq_none {left : ℕ} (hr : z.rmqueueFrom o t left = none)
    (hc : maxOrder - left ≤ c) (hc' : c < maxOrder) : z.freeList c t = [] := by
  induction left with
  | zero => omega
  | succ left ih =>
    rw [rmqueueFrom] at hr
    split at hr
    · next heq =>
      by_cases hcur : c = maxOrder - (left + 1)
      · exact hcur ▸ heq
      · exact ih hr (by omega)
    · cases hr

theorem fallbackTypes_eq_none {types : List MigrateType}
    (hr : z.fallbackTypes o start c types = none) (ht : t ∈ types)
    (hne : t ≠ .reserve) : z.freeList c t = [] := by
  induction types with
  | nil => cases ht
  | cons t' types ih =>
    rw [fallbackTypes] at hr
    split_ifs at hr with hreserve
    · obtain rfl | ht := List.mem_cons.mp ht
      · exact absurd hreserve hne
      · exact ih hr ht
    · split at hr
      · next heq =>
        obtain rfl | ht := List.mem_cons.mp ht
        · exact heq
        · exact ih hr ht
      · cases hr

theorem fallbackOrders_eq_none {current : ℕ} (hr : z.fallbackOrders o start current = none)
    (hc : o ≤ c) (hc' : c < current) : z.fallbackTypes o start c (fallbacks start) = none := by
  induction current with
  | zero => omega
  | succ current ih =>
    rw [fallbackOrders, if_pos (by omega)] at hr
    split at hr
    · cases hr
    · next hnone =>
      by_cases hcur : c = current
      · exact hcur ▸ hnone
      · exact ih hr (by omega)

/-- The lists that `__rmqueue` may take from are empty when it fails. -/
theorem rmqueue_eq_none (hr : z.rmqueue o t = none) (hc : o ≤ c) (hc' : c < maxOrder)
    {t' : MigrateType} (ht' : t' ∈ allowedTypes t) : z.freeList c t' = [] := by
  rw [Zone.rmqueue] at hr
  split at hr
  · cases hr
  next hsmallest =>
  have hown : z.freeList c t = [] := rmqueueFrom_eq_none hsmallest (by omega) hc'
  unfold allowedTypes at ht'
  split_ifs at hr ht' with hreserve
  · simp only [nil_append, List.mem_cons, not_mem_nil, or_false] at ht'
    obtain rfl | rfl := ht'
    · exact hown
    · exact hreserve ▸ hown
  · split at hr
    · cases hr
    next hfallback =>
    have hlast : z.freeList c .reserve = [] := rmqueueFrom_eq_none hr (by omega) hc'
    simp only [List.mem_cons, mem_append, not_mem_nil, or_false] at ht'
    obtain rfl | ht' | rfl := ht'
    · exact hown
    · by_cases hne : t' = .reserve
      · exact hne ▸ hlast
      · exact fallbackTypes_eq_none (fallbackOrders_eq_none hfallback hc hc') ht' hne
    · exact hlast

end Fails

end Zone

/-- `__rmqueue` returns no page only if all lists of the order and above, of the type, of those it
falls back to and of the reserve, are empty. Otherwise it returns an aligned block of free pages;
these are the ones that are not free afterwards, and the number of pages on the lists drops by
theirs. -/
theorem rmqueue_takes_exactly (z : Zone) (used : Finset ℕ) (h : z.BuddyInv used) (o : ℕ)
    (t : MigrateType) :
    (z.rmqueue o t = none → ∀ c, o ≤ c → ∀ t' ∈ allowedTypes t, z.freeList c t' = []) ∧
    ∀ page z', z.rmqueue o t = some (page, z') → 2 ^ o ∣ page ∧
      (∀ q ∈ block o page, z.Free q) ∧ (∀ q, z'.Free q ↔ z.Free q ∧ q ∉ block o page) ∧
      z'.freePages = z.freePages - 2 ^ o := by
  refine ⟨fun hr c hc t' ht' => ?_, fun page z' hr => ?_⟩
  · by_cases hc' : c < maxOrder
    · exact rmqueue_eq_none hr hc hc' ht'
    · exact List.eq_nil_iff_forall_not_mem.mpr fun p hp => hc' (h.order_lt hp)
  · have halloc := h.rmqueue hr
    obtain ⟨c, t₁, t', z₁, hle, hmoved, hp, heq⟩ := h.takes_moved (BuddyInv.takes_of_rmqueue hr)
    dsimp only at hp heq
    have hc := hmoved.inv.order_lt hp
    refine ⟨halloc.aligned, fun q hq => ?_, fun q => ?_, ?_⟩
    · exact hmoved.free.mp ⟨c, t₁, page, hp, block_mono hle page hq⟩
    · rw [heq, free_expand hle, hmoved.inv.free_takeBlock hp, hmoved.free]
      have hfree : q ∈ block c page → z.Free q := fun hq => hmoved.free.mp ⟨c, t₁, page, hp, hq⟩
      have hmono := @block_mono o c hle page q
      tauto
    · rw [halloc.inv.freePages_eq, h.freePages_eq, heq, countedPages_expand hle hc]
      change countedPages (update z₁.nrFree c (z₁.nrFree c + -1)) + _ - _ = _
      rw [countedPages_update _ hc, hmoved.nrFree]
      ring

/-- From the four pages that are free. -/
theorem rmqueue_takes_exactly_four_pages :
    let s := State.fourPages.run [.freeOnePage 0 2 .movable]
    (s.zone.rmqueue 0 .movable).map Prod.fst = some 0 ∧
      ∀ page z', s.zone.rmqueue 0 .movable = some (page, z') → 2 ^ 0 ∣ page ∧
        (∀ q ∈ block 0 page, s.zone.Free q) ∧
        (∀ q, z'.Free q ↔ s.zone.Free q ∧ q ∉ block 0 page) ∧
        z'.freePages = s.zone.freePages - 2 ^ 0 :=
  ⟨by decide +kernel, (rmqueue_takes_exactly _ _
    (State.fourPages_inv.run (by decide +kernel)) 0 .movable).2⟩

end AndroidKernel.Mm
