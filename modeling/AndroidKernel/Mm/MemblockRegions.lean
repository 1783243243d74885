import AndroidKernel.Mm.Memblock

/-!
# Adding to regions in good order and removing from them

While the regions of an array are in order with a gap between any two, adding a range that is apart
from them, and removing a range that one of them holds, change the covered addresses by that range.
-/

namespace AndroidKernel.Mm.Memblock.Region

open Function Nat Set Region

variable {i j k n r b1 b2 s1 s2 : ℕ} {p : Property}

variable (rgn : Region)

/-- The addresses that the regions cover. -/
def covered : Set ℕ :=
  { x | ∃ i < rgn.cnt, (rgn.region i).base ≤ x ∧ x < (rgn.region i).base + (rgn.region i).size }

/-- The regions are in order, and there is a gap between any two. -/
structure Coalesced (rgn : Region) : Prop where
  cnt_le : rgn.cnt ≤ maxMemblockRegions
  size_pos : ∀ i < rgn.cnt, 0 < (rgn.region i).size
  end_lt : ∀ i < rgn.cnt, (rgn.region i).base + (rgn.region i).size < 2 ^ 64
  gap : ∀ i j, i < j → j < rgn.cnt → (rgn.region i).base + (rgn.region i).size < (rgn.region j).base

/-- The only region is the one of size zero that `memblock_init` makes. -/
def Dummy : Prop := rgn.cnt = 1 ∧ rgn.region 0 = ⟨0, 0⟩

/-- What may be added: a region that is there already, or one apart from all others, while there
is a region at all. -/
structure Addable (rgn : Region) (base size : ℕ) : Prop where
  cnt_pos : 0 < rgn.cnt
  size_pos : 0 < size
  end_lt : base + size < 2 ^ 64
  apart : (∃ i < rgn.cnt, rgn.region i = ⟨base, size⟩) ∨
    ∀ i < rgn.cnt, base + size ≤ (rgn.region i).base ∨
      (rgn.region i).base + (rgn.region i).size ≤ base

variable {rgn : Region} {base size : ℕ}

theorem shiftDown_apply (a : ℕ → Property) (i n j : ℕ) :
    shiftDown a i n j = if i ≤ j ∧ j < i + n then a (j + 1) else a j := by
  induction n generalizing a i with
  | zero => rw [shiftDown, if_neg (by omega)]
  | succ n ih =>
    rw [shiftDown, ih]
    by_cases hj : j = i
    · subst hj
      rw [if_neg (by omega), if_pos (by omega), update_self]
    · by_cases hin : i + 1 ≤ j ∧ j < i + 1 + n
      · rw [if_pos hin, if_pos (by omega), update_of_ne (by omega)]
      · rw [if_neg hin, if_neg (by omega), update_of_ne hj]

theorem pred_of_pos {cnt : ℕ} (hpos : 0 < cnt) (hle : cnt ≤ maxMemblockRegions) :
    pred cnt = cnt - 1 := by
  unfold pred maxMemblockRegions at *
  omega

theorem u64_of_lt (h : n < 2 ^ 64) : u64 n = n := mod_eq_of_lt h

theorem u64Sub_of_le {a b : ℕ} (h : b ≤ a) (ha : a < 2 ^ 64) : u64Sub a b = a - b := by
  unfold u64Sub u64
  omega

/-- The regions without the entry `r`. -/
def without (r : ℕ) : Region :=
  ⟨rgn.cnt - 1, fun j => if r ≤ j ∧ j < rgn.cnt - 1 then rgn.region (j + 1) else rgn.region j⟩

theorem memblockRemoveRegion_eq (hr : r < rgn.cnt) (hle : rgn.cnt ≤ maxMemblockRegions) :
    rgn.memblockRemoveRegion r = some (rgn.without r) := by
  unfold memblockRemoveRegion without
  rw [pred_of_pos (by omega) hle, if_pos (by omega)]
  congr
  funext j
  rw [shiftDown_apply]
  congr 1
  apply propext
  omega

/-- Where the second loop puts the new entry: behind `p` others, which keep their place. -/
theorem insertLoop_spec (base size n : ℕ) (a : ℕ → Property) :
    ∃ p ≤ n, (∀ k, p ≤ k → k < n → base < (a k).base) ∧ (0 < p → (a (p - 1)).base ≤ base) ∧
      (∀ j < p, insertLoop base size n a j = a j) ∧
      (0 < p → insertLoop base size n a p = ⟨base, size⟩) ∧
      (p = 0 → insertLoop base size n a 0 = a 0) ∧
      (∀ j, p < j → j ≤ n → insertLoop base size n a j = a (j - 1)) ∧
      ∀ j, n < j → insertLoop base size n a j = a j := by
  induction n generalizing a with
  | zero =>
    refine ⟨0, le_rfl, ?_, ?_, ?_, ?_, fun _ => rfl, ?_, fun _ _ => rfl⟩ <;> intros <;> omega
  | succ i ih =>
    rw [insertLoop]
    split_ifs with hlt
    · obtain ⟨p, hp, hafter, hbefore, hlow, hat, hzero, hhigh, habove⟩ :=
        ih (update a (i + 1) (a i))
      have hold : ∀ k ≤ i, update a (i + 1) (a i) k = a k :=
        fun k hk => update_of_ne (by omega) _ _
      refine ⟨p, by omega, ?_, ?_, ?_, hat, ?_, ?_, ?_⟩
      · intro k hpk hk
        by_cases hki : k = i
        · exact hki ▸ hlt
        · rw [← hold k (by omega)]
          exact hafter k hpk (by omega)
      · intro hpos
        rw [← hold (p - 1) (by omega)]
        exact hbefore hpos
      · intro j hj
        rw [hlow j hj, hold j (by omega)]
      · intro hp0
        rw [hzero hp0, hold 0 (by omega)]
      · intro j hpj hj
        by_cases hji : j = i + 1
        · subst hji
          rw [habove (i + 1) (by omega), update_self, Nat.add_sub_cancel]
        · rw [hhigh j hpj (by omega), hold (j - 1) (by omega)]
      · intro j hj
        rw [habove j (by omega), update_of_ne (by omega)]
    · refine ⟨i + 1, le_rfl, ?_, fun _ => not_lt.mp hlt, ?_, ?_, ?_, ?_, ?_⟩
      · intros; omega
      · intro j hj
        rw [update_of_ne (by omega)]
      · intro _
        rw [update_self]
      · intro h; omega
      · intros; omega
      · intro j hj
        rw [update_of_ne (by omega)]

theorem mem_of_scan_present (h : rgn.scan base size i n = .present) :
    ∃ k, k < i + n ∧ rgn.region k = ⟨base, size⟩ := by
  induction n generalizing i with
  | zero => cases h
  | succ n ih =>
    simp only [scan] at h
    split_ifs at h with hsame
    · exact ⟨i, by omega, by rw [← hsame.1, ← hsame.2]⟩
    · obtain ⟨k, hk, hmem⟩ := ih h
      exact ⟨k, by omega, hmem⟩

theorem not_adjacent_of_scan_apart (h : rgn.scan base size i n = .apart) (hij : i ≤ j)
    (hj : j < i + n) :
    rgn.region j ≠ ⟨base, size⟩ ∧
      memblockAddrsAdjacent base size (rgn.region j).base (rgn.region j).size = 0 := by
  induction n generalizing i with
  | zero => omega
  | succ n ih =>
    simp only [scan] at h
    split_ifs at h with hsame hpos hneg
    obtain rfl | hlt := hij.eq_or_lt
    · exact ⟨fun heq => hsame (by simp [heq]), by omega⟩
    · exact ih h hlt (by omega)

theorem adjacent_of_scan_extended {rgn' : Region} (h : rgn.scan base size i n = .extended k rgn') :
    i ≤ k ∧ k < i + n ∧
    (∀ j, i ≤ j → j < k →
      memblockAddrsAdjacent base size (rgn.region j).base (rgn.region j).size = 0) ∧
    rgn.region k ≠ ⟨base, size⟩ ∧
    ((0 < memblockAddrsAdjacent base size (rgn.region k).base (rgn.region k).size ∧
        rgn' = rgn.set k
          ⟨u64Sub (rgn.region k).base size, u64 ((rgn.region k).size + size)⟩) ∨
      (memblockAddrsAdjacent base size (rgn.region k).base (rgn.region k).size < 0 ∧
        rgn' = rgn.set k ⟨(rgn.region k).base, u64 ((rgn.region k).size + size)⟩)) := by
  induction n generalizing i with
  | zero => cases h
  | succ n ih =>
    simp only [scan] at h
    split_ifs at h with hsame hpos hneg
    · cases h
      exact ⟨le_rfl, by omega, by omega, fun heq => hsame (by simp [heq]), .inl ⟨hpos, rfl⟩⟩
    · cases h
      exact ⟨le_rfl, by omega, by omega, fun heq => hsame (by simp [heq]), .inr ⟨hneg, rfl⟩⟩
    · obtain ⟨hik, hk, hskip, hrest⟩ := ih h
      refine ⟨by omega, by omega, fun j hij hjk => ?_, hrest⟩
      obtain rfl | hlt := hij.eq_or_lt
      · omega
      · exact hskip j hlt hjk

section

variable (h1 : b1 + s1 < 2 ^ 64) (h2 : b2 + s2 < 2 ^ 64)
include h1 h2

theorem memblockAddrsAdjacent_eq : memblockAddrsAdjacent b1 s1 b2 s2 =
      if b2 = b1 + s1 then 1 else if b1 = b2 + s2 then -1 else 0 := by
  rw [memblockAddrsAdjacent, u64_of_lt h1, u64_of_lt h2]

theorem memblockAddrsAdjacent_eq_zero :
    memblockAddrsAdjacent b1 s1 b2 s2 = 0 ↔ b2 ≠ b1 + s1 ∧ b1 ≠ b2 + s2 := by
  rw [memblockAddrsAdjacent_eq h1 h2]
  split_ifs <;> simp_all

theorem memblockAddrsAdjacent_pos : 0 < memblockAddrsAdjacent b1 s1 b2 s2 ↔ b2 = b1 + s1 := by
  rw [memblockAddrsAdjacent_eq h1 h2]
  split_ifs <;> simp_all

theorem memblockAddrsAdjacent_neg :
    memblockAddrsAdjacent b1 s1 b2 s2 < 0 ↔ b2 ≠ b1 + s1 ∧ b1 = b2 + s2 := by
  rw [memblockAddrsAdjacent_eq h1 h2]
  split_ifs <;> simp_all

end

theorem insert_spec (h : rgn.Coalesced) (hadd : rgn.Addable base size)
    (hcnt : rgn.cnt < maxMemblockRegions)
    (hapart : ∀ j < rgn.cnt, base + size < (rgn.region j).base ∨
      (rgn.region j).base + (rgn.region j).size < base) :
    (rgn.insert base size).Coalesced ∧
      (rgn.insert base size).covered = rgn.covered ∪ Ico base (base + size) := by
  obtain ⟨p, hp, hafter, hbefore, hlow, hat, hzero, hhigh, -⟩ :=
    insertLoop_spec base size rgn.cnt rgn.region
  -- The fix-up for the first index completes the insertion.
  obtain ⟨a, ha, halow, haat, hahigh⟩ : ∃ a, rgn.insert base size = ⟨rgn.cnt + 1, a⟩ ∧
      (∀ j < p, a j = rgn.region j) ∧ a p = ⟨base, size⟩ ∧
      ∀ j, p < j → j ≤ rgn.cnt → a j = rgn.region (j - 1) := by
    refine ⟨_, rfl, ?_⟩
    by_cases hp0 : p = 0
    · subst hp0
      rw [if_pos (by rw [hzero rfl]; exact hafter 0 le_rfl hadd.cnt_pos)]
      refine ⟨by omega, update_self .., fun j hj hle => ?_⟩
      rw [update_of_ne (by omega), hhigh j hj hle]
    · have hge : (rgn.region 0).base ≤ base := by
        by_cases hp1 : p = 1
        · simpa [hp1] using hbefore (by omega)
        · have := h.gap 0 (p - 1) (by omega) (by omega)
          have := hbefore (by omega)
          omega
      rw [if_neg (by rw [hlow 0 (by omega)]; omega)]
      exact ⟨hlow, hat (by omega), hhigh⟩
  have hleft : ∀ j < p, (rgn.region j).base + (rgn.region j).size < base := by
    intro j hj
    have hlast := hbefore (by omega)
    have hjlast : (rgn.region j).base ≤ (rgn.region (p - 1)).base := by
      by_cases hjp : j = p - 1
      · rw [hjp]
      · have := h.gap j (p - 1) (by omega) (by omega)
        omega
    have := hapart j (by omega)
    omega
  have hright : ∀ j, p ≤ j → j < rgn.cnt → base + size < (rgn.region j).base := by
    intro j hpj hj
    have := hafter j hpj hj
    have := hapart j hj
    omega
  have hentry : ∀ i < rgn.cnt + 1, (∃ j < rgn.cnt, a i = rgn.region j) ∨ a i = ⟨base, size⟩ := by
    intro i hi
    obtain hip | rfl | hip := lt_trichotomy i p
    · exact .inl ⟨i, by omega, halow i hip⟩
    · exact .inr haat
    · exact .inl ⟨i - 1, by omega, hahigh i hip (by omega)⟩
  rw [ha]
  refine ⟨⟨by simp only; omega, fun i hi => ?_, fun i hi => ?_, ?_⟩, ?_⟩
  · obtain ⟨j, hj, heq⟩ | heq := hentry i hi <;> simp only [heq]
    · exact h.size_pos j hj
    · exact hadd.size_pos
  · obtain ⟨j, hj, heq⟩ | heq := hentry i hi <;> simp only [heq]
    · exact h.end_lt j hj
    · exact hadd.end_lt
  · intro i j hij hj
    simp only at hj ⊢
    obtain hjp | rfl | hjp := lt_trichotomy j p
    · rw [halow i (by omega), halow j hjp]
      exact h.gap i j hij (by omega)
    · rw [halow i (by omega), haat]
      exact hleft i hij
    · rw [hahigh j hjp (by omega)]
      obtain hip | rfl | hip := lt_trichotomy i p
      · rw [halow i hip]
        exact h.gap i (j - 1) (by omega) (by omega)
      · rw [haat]
        exact hright (j - 1) (by omega) (by omega)
      · rw [hahigh i hip (by omega)]
        exact h.gap (i - 1) (j - 1) (by omega) (by omega)
  · ext x
    constructor
    · rintro ⟨i, hi, hx⟩
      obtain ⟨j, hj, heq⟩ | heq := hentry i hi <;> simp only [heq] at hx
      · exact .inl ⟨j, hj, hx⟩
      · exact .inr hx
    · rintro (⟨i, hi, hx⟩ | hx)
      · by_cases hip : i < p
        · exact ⟨i, by simp only; omega, by simpa [halow i hip] using hx⟩
        · refine ⟨i + 1, by simp only; omega, ?_⟩
          simpa [hahigh (i + 1) (by omega) (by omega)] using hx
      · exact ⟨p, by simp only; omega, by simpa [haat] using hx⟩

@[simp]
theorem set_cnt (i : ℕ) (p : Property) : (rgn.set i p).cnt = rgn.cnt := rfl

@[simp]
theorem set_self (i : ℕ) (p : Property) : (rgn.set i p).region i = p := update_self ..

theorem set_of_ne (hne : j ≠ i) (p : Property) :
    (rgn.set i p).region j = rgn.region j := update_of_ne hne ..

/-- What the regions cover after the entry `i` was written. -/
theorem mem_covered_set (hi : i < rgn.cnt) (p : Property) (x : ℕ) :
    x ∈ (rgn.set i p).covered ↔ p.base ≤ x ∧ x < p.base + p.size ∨
      ∃ j < rgn.cnt, j ≠ i ∧ (rgn.region j).base ≤ x ∧
        x < (rgn.region j).base + (rgn.region j).size := by
  constructor
  · rintro ⟨j, hj, hx⟩
    by_cases hji : j = i
    · subst hji
      exact .inl (by simpa using hx)
    · exact .inr ⟨j, hj, hji, by simpa [set_of_ne hji] using hx⟩
  · rintro (hx | ⟨j, hj, hji, hx⟩)
    · exact ⟨i, hi, by simpa using hx⟩
    · exact ⟨j, hj, by simpa [set_of_ne hji] using hx⟩

theorem Coalesced.set {b s : ℕ} (h : rgn.Coalesced) (hpos : 0 < s) (hend : b + s < 2 ^ 64)
    (hleft : ∀ j < i, (rgn.region j).base + (rgn.region j).size < b)
    (hright : ∀ j, i < j → j < rgn.cnt → b + s < (rgn.region j).base) :
    (rgn.set i ⟨b, s⟩).Coalesced := by
  refine ⟨h.cnt_le, fun j hj => ?_, fun j hj => ?_, fun j k hjk hk => ?_⟩
  · by_cases hji : j = i
    · subst hji
      simpa using hpos
    · simpa [set_of_ne hji] using h.size_pos j hj
  · by_cases hji : j = i
    · subst hji
      simpa using hend
    · simpa [set_of_ne hji] using h.end_lt j hj
  · by_cases hji : j = i
    · subst hji
      simpa [set_of_ne (ne_of_gt hjk)] using hright k hjk hk
    · by_cases hki : k = i
      · subst hki
        simpa [set_of_ne hji] using hleft j hjk
      · simpa [set_of_ne hji, set_of_ne hki] using h.gap j k hjk hk

theorem Coalesced.without (h : rgn.Coalesced) (hr : r < rgn.cnt) : (rgn.without r).Coalesced := by
  have hle := h.cnt_le
  refine ⟨by simp only [Region.without]; omega, ?_, ?_, ?_⟩
  · intro i hi
    simp only [Region.without] at hi ⊢
    split_ifs
    all_goals exact h.size_pos _ (by omega)
  · intro i hi
    simp only [Region.without] at hi ⊢
    split_ifs
    all_goals exact h.end_lt _ (by omega)
  · intro i j hij hj
    simp only [Region.without] at hj ⊢
    split_ifs <;> exact h.gap _ _ (by omega) (by omega)

theorem mem_covered_without (hr : r < rgn.cnt) (x : ℕ) :
    x ∈ (rgn.without r).covered ↔ ∃ j < rgn.cnt, j ≠ r ∧ (rgn.region j).base ≤ x ∧
      x < (rgn.region j).base + (rgn.region j).size := by
  constructor
  · rintro ⟨i, hi, hx⟩
    simp only [without] at hi hx
    split_ifs at hx
    · exact ⟨i + 1, by omega, by omega, hx⟩
    · exact ⟨i, by omega, by omega, hx⟩
  · rintro ⟨j, hj, hne, hx⟩
    by_cases hjr : j < r
    · refine ⟨j, by simp only [without]; omega, ?_⟩
      simpa [without, if_neg (show ¬ (r ≤ j ∧ j < rgn.cnt - 1) by omega)] using hx
    · refine ⟨j - 1, by simp only [without]; omega, ?_⟩
      simpa [without, if_pos (show r ≤ j - 1 ∧ j - 1 < rgn.cnt - 1 by omega),
        show j - 1 + 1 = j by omega] using hx

theorem set_without (hir : i < r) (p : Property) :
    (rgn.set i p).without r = (rgn.without r).set i p := by
  refine congrArg (mk _) (funext fun j => ?_)
  change (if r ≤ j ∧ j < rgn.cnt - 1 then update rgn.region i p (j + 1)
    else update rgn.region i p j) = _
  by_cases hji : j = i
  · subst hji
    rw [if_neg (by omega), update_self, update_self]
  · rw [update_of_ne hji, update_of_ne hji]
    change _ = if r ≤ j ∧ j < rgn.cnt - 1 then rgn.region (j + 1) else rgn.region j
    split_ifs with hr
    · rw [update_of_ne (by omega)]
    · rfl

theorem set_set (i : ℕ) (p q : Property) : (rgn.set i p).set i q = rgn.set i q := by simp [set]

theorem addAt_of_gap (h : rgn.Coalesced) (hi : i < rgn.cnt) :
    rgn.addAt base size i 1 = some (1, rgn) := by
  have hle := h.cnt_le
  have hnot : ¬ (i < pred rgn.cnt ∧ rgn.memblockRegionsAdjacent i (i + 1) ≠ 0) := by
    rintro ⟨hlt, hadj⟩
    rw [pred_of_pos (by omega) hle] at hlt
    have hgap := h.gap i (i + 1) (by omega) (by omega)
    rw [memblockRegionsAdjacent, ne_eq, memblockAddrsAdjacent_eq_zero (h.end_lt i hi)
      (h.end_lt (i + 1) (by omega))] at hadj
    omega
  simp [addAt, hnot]

/-- The region `i`, extended at its end, met the next one: the two become one region. -/
theorem addAt_of_touch (base size : ℕ) (h : rgn.Coalesced) (hi : i + 1 < rgn.cnt)
    (hbase : p.base = (rgn.region i).base) (hsize : (rgn.region i).size ≤ p.size)
    (htouch : p.base + p.size = (rgn.region (i + 1)).base) :
    ∃ rgn', (rgn.set i p).addAt base size i 1 = some (2, rgn') ∧ rgn'.Coalesced ∧
      rgn'.covered = (rgn.set i p).covered := by
  have hle := h.cnt_le
  have hend := h.end_lt (i + 1) hi
  have hpos := h.size_pos (i + 1) hi
  have hipos := h.size_pos i (by omega)
  have hadj : (rgn.set i p).memblockRegionsAdjacent i (i + 1) ≠ 0 := by
    rw [memblockRegionsAdjacent, set_self, set_of_ne (by omega), ne_eq,
      memblockAddrsAdjacent_eq_zero (by omega) hend]
    omega
  have hsum : u64 (p.size + (rgn.region (i + 1)).size) = p.size + (rgn.region (i + 1)).size :=
    u64_of_lt (by omega)
  have hrun : (rgn.set i p).addAt base size i 1 = some (2, (rgn.without (i + 1)).set i
      ⟨p.base, p.size + (rgn.region (i + 1)).size⟩) := by
    have hlt : i < pred rgn.cnt := by
      rw [pred_of_pos (by omega) hle]
      omega
    have hmerge : (rgn.set i p).memblockCoalesceRegions i (i + 1) =
        some ((rgn.without (i + 1)).set i
        ⟨p.base, p.size + (rgn.region (i + 1)).size⟩) := by
      rw [memblockCoalesceRegions, set_self, set_of_ne (by omega), hsum, set_set,
        memblockRemoveRegion_eq (by rwa [set_cnt]) (by rwa [set_cnt]), set_without (by omega)]
    rw [addAt, set_cnt, if_pos ⟨hlt, hadj⟩, hmerge]
    rfl
  refine ⟨_, hrun, (h.without hi).set (by omega) (by omega) ?_ ?_, ?_⟩
  · intro j hj
    simp only [without]
    rw [if_neg (by omega), hbase]
    exact h.gap j i hj (by omega)
  · intro j hij hj
    simp only [without] at hj ⊢
    rw [if_pos (by omega)]
    have := h.gap (i + 1) (j + 1) (by omega) (by omega)
    omega
  · ext x
    rw [← set_without (by omega), mem_covered_without (by rwa [set_cnt]),
      mem_covered_set (by omega)]
    constructor
    · rintro ⟨j, hj, -, hx⟩
      by_cases hji : j = i
      · subst hji
        rw [set_self] at hx
        by_cases hlt : x < p.base + p.size
        · exact .inl ⟨hx.1, hlt⟩
        · exact .inr ⟨j + 1, hi, by omega, by simp only at hx; omega⟩
      · exact .inr ⟨j, hj, hji, by rwa [set_of_ne hji] at hx⟩
    · rintro (hx | ⟨j, hj, hji, hx⟩)
      · exact ⟨i, by rw [set_cnt]; omega, by omega, by rw [set_self]; simp only; omega⟩
      · by_cases hj1 : j = i + 1
        · subst hj1
          exact ⟨i, by rw [set_cnt]; omega, by omega, by rw [set_self]; simp only; omega⟩
        · exact ⟨j, hj, hj1, by rwa [set_of_ne hji]⟩

/-- The call that returned `r` was refused for want of room and changed nothing, or it added the
range. -/
def Added (base size : ℕ) (r : ℤ) (rgn' : Region) : Prop :=
  (r = -1 ∧ rgn' = rgn ∧ rgn.cnt = maxMemblockRegions) ∨
    (0 ≤ r ∧ rgn'.covered = rgn.covered ∪ Ico base (base + size))

/-- The addresses covered when a range is joined to a region. -/
theorem covered_join {b s : ℕ} (hk : k < rgn.cnt) (hjoin : ∀ x, b ≤ x ∧ x < b + s ↔
    ((rgn.region k).base ≤ x ∧ x < (rgn.region k).base + (rgn.region k).size) ∨
      (base ≤ x ∧ x < base + size)) :
    (rgn.set k ⟨b, s⟩).covered = rgn.covered ∪ Ico base (base + size) := by
  ext x
  rw [mem_covered_set hk, hjoin]
  constructor
  · rintro ((hx | hx) | ⟨j, hj, -, hx⟩)
    · exact .inl ⟨k, hk, hx⟩
    · exact .inr hx
    · exact .inl ⟨j, hj, hx⟩
  · rintro (⟨j, hj, hx⟩ | hx)
    · by_cases hjk : j = k
      · exact .inl (.inl (hjk ▸ hx))
      · exact .inr ⟨j, hj, hjk, hx⟩
    · exact .inl (.inr hx)

section

variable (h : rgn.Coalesced) (hadd : rgn.Addable base size)
include h hadd

/-- A region that touches no other gets an entry of its own, if there is room. -/
theorem addAt_apart (hscan : rgn.scan base size 0 rgn.cnt = .apart) :
    ∃ r rgn', rgn.addAt base size rgn.cnt 0 = some (r, rgn') ∧ rgn'.Coalesced ∧
      rgn.Added base size r rgn' := by
  have hsep : ∀ j < rgn.cnt, rgn.region j ≠ ⟨base, size⟩ ∧
      base + size ≠ (rgn.region j).base ∧ (rgn.region j).base + (rgn.region j).size ≠ base := by
    intro j hj
    obtain ⟨hne, hadj⟩ := not_adjacent_of_scan_apart hscan (zero_le j) (by omega)
    rw [memblockAddrsAdjacent_eq_zero hadd.end_lt (h.end_lt j hj)] at hadj
    exact ⟨hne, hadj.1.symm, hadj.2.symm⟩
  have hapart : ∀ j < rgn.cnt, base + size < (rgn.region j).base ∨
      (rgn.region j).base + (rgn.region j).size < base := by
    intro j hj
    obtain ⟨k, hk, heq⟩ | hdisj := hadd.apart
    · exact absurd heq (hsep k hk).1
    · have := hsep j hj
      have := hdisj j hj
      omega
  have hnot : ¬ rgn.cnt < pred rgn.cnt := by
    rw [pred_of_pos hadd.cnt_pos h.cnt_le]
    omega
  by_cases hfull : maxMemblockRegions ≤ rgn.cnt
  · refine ⟨-1, rgn, ?_, h, .inl ⟨rfl, rfl, le_antisymm h.cnt_le hfull⟩⟩
    simp [addAt, hnot, hfull]
  · obtain ⟨hgood, hcov⟩ := insert_spec h hadd (not_le.mp hfull) hapart
    refine ⟨0, rgn.insert base size, ?_, hgood, .inr ⟨le_rfl, hcov⟩⟩
    simp [addAt, hnot, hfull]

/-- A region that touches the region `k` overlaps none: one equal to it would touch `k`. -/
theorem disjoint_of_touch (hk : k < rgn.cnt) (hne : rgn.region k ≠ ⟨base, size⟩)
    (htouch : base + size = (rgn.region k).base ∨
      base = (rgn.region k).base + (rgn.region k).size) (hj : j < rgn.cnt) :
    base + size ≤ (rgn.region j).base ∨ (rgn.region j).base + (rgn.region j).size ≤ base := by
  obtain ⟨i, hi, heq⟩ | hdisj := hadd.apart
  · have hik : i ≠ k := fun h => hne (h ▸ heq)
    obtain hlt | hlt := lt_or_gt_of_ne hik
    · have := h.gap i k hlt hk
      simp only [heq] at this
      omega
    · have := h.gap k i hlt hi
      simp only [heq] at this
      omega
  · exact hdisj j hj

/-- A region is joined to the one that it touches, and both to the next one if that follows. -/
theorem addAt_extended {rgn₁ : Region} (hscan : rgn.scan base size 0 rgn.cnt = .extended k rgn₁) :
    ∃ r rgn', rgn₁.addAt base size k 1 = some (r, rgn') ∧ rgn'.Coalesced ∧
      rgn.Added base size r rgn' := by
  have hend := hadd.end_lt
  have hpos := hadd.size_pos
  obtain ⟨-, hk, hskip, hne, hcase⟩ := adjacent_of_scan_extended hscan
  rw [zero_add] at hk
  have hkpos := h.size_pos k hk
  have hkend := h.end_lt k hk
  rw [memblockAddrsAdjacent_pos hend hkend, memblockAddrsAdjacent_neg hend hkend] at hcase
  have hdisj (j : ℕ) := disjoint_of_touch (j := j) h hadd hk hne (by omega)
  obtain ⟨htouch, rfl⟩ | ⟨⟨-, htouch⟩, rfl⟩ := hcase
  · rw [u64_of_lt (by omega), u64Sub_of_le (by omega) (by omega)]
    have hset : (rgn.set k ⟨(rgn.region k).base - size,
        (rgn.region k).size + size⟩).Coalesced := by
      refine h.set (by omega) (by omega) (fun j hj => ?_) fun j hkj hj => ?_
      · have hadj := hskip j (zero_le j) hj
        rw [memblockAddrsAdjacent_eq_zero hend (h.end_lt j (by omega))] at hadj
        have := h.gap j k hj hk
        have := hdisj j (by omega)
        omega
      · have := h.gap k j hkj hj
        omega
    refine ⟨1, _, addAt_of_gap hset hk, hset, .inr ⟨by decide, covered_join hk fun x => ?_⟩⟩
    omega
  · rw [u64_of_lt (by omega)]
    have hcov : (rgn.set k ⟨(rgn.region k).base, (rgn.region k).size + size⟩).covered =
        rgn.covered ∪ Ico base (base + size) := covered_join hk (by omega)
    have hnext : ∀ j, k < j → j < rgn.cnt → base + size ≤ (rgn.region j).base := by
      intro j hkj hj
      have := h.gap k j hkj hj
      have := hdisj j hj
      have := h.size_pos j hj
      omega
    by_cases hmeet : k + 1 < rgn.cnt ∧ base + size = (rgn.region (k + 1)).base
    · obtain ⟨rgn', hrun, hgood, hsame⟩ := addAt_of_touch base size
        (p := ⟨(rgn.region k).base, (rgn.region k).size + size⟩) h hmeet.1 rfl
        (Nat.le_add_right ..) (by simp only; omega)
      exact ⟨2, rgn', hrun, hgood, .inr ⟨by decide, hsame.trans hcov⟩⟩
    · have hset : (rgn.set k ⟨(rgn.region k).base, (rgn.region k).size + size⟩).Coalesced := by
        refine h.set (by omega) (by omega) (fun j hj => h.gap j k hj hk) fun j hkj hj => ?_
        have := hnext j hkj hj
        by_cases hj1 : j = k + 1
        · subst hj1
          omega
        · have := h.gap (k + 1) j (by omega) hj
          have := hnext (k + 1) (by omega) (by omega)
          omega
      exact ⟨1, _, addAt_of_gap hset hk, hset, .inr ⟨by decide, hcov⟩⟩

/-- A region added to others in good order, apart from them or equal to one of them. -/
theorem Coalesced.memblockAddRegion : ∃ r rgn', rgn.memblockAddRegion base size = some (r, rgn') ∧
    rgn'.Coalesced ∧ rgn.Added base size r rgn' := by
  have hnotDummy : ¬ (rgn.cnt = 1 ∧ (rgn.region 0).size = 0) := fun hd =>
    (h.size_pos 0 hadd.cnt_pos).ne' hd.2
  rw [Region.memblockAddRegion, if_neg hnotDummy]
  cases hscan : rgn.scan base size 0 rgn.cnt with
  | present =>
    obtain ⟨k, hk, hmem⟩ := mem_of_scan_present hscan
    have hsub : Ico base (base + size) ⊆ rgn.covered := fun x hx =>
      ⟨k, by omega, by simpa [hmem] using hx⟩
    exact ⟨0, rgn, rfl, h, .inr ⟨le_rfl, (union_eq_left.mpr hsub).symm⟩⟩
  | apart => exact addAt_apart h hadd hscan
  | extended k rgn₁ => exact addAt_extended h hadd hscan

end

/-- The index that `__memblock_remove` finds. -/
theorem find_some {stop : ℕ} (h : rgn.find base stop i n = some k) :
    k < i + n ∧ (rgn.region k).base ≤ base ∧
      stop ≤ u64 ((rgn.region k).base + (rgn.region k).size) := by
  induction n generalizing i with
  | zero => cases h
  | succ n ih =>
    simp only [find] at h
    split_ifs at h with hin
    · cases h
      exact ⟨by omega, hin⟩
    · obtain ⟨hk, hrest⟩ := ih h
      exact ⟨by omega, hrest⟩

theorem find_none {stop : ℕ} (h : rgn.find base stop i n = none) (hij : i ≤ j) (hj : j < i + n) :
    ¬ ((rgn.region j).base ≤ base ∧ stop ≤ u64 ((rgn.region j).base + (rgn.region j).size)) := by
  induction n generalizing i with
  | zero => omega
  | succ n ih =>
    simp only [find] at h
    split_ifs at h with hin
    obtain rfl | hlt := hij.eq_or_lt
    · exact hin
    · exact ih h hlt (by omega)

/-- Some region holds the whole range. -/
def Inside (base size : ℕ) : Prop :=
  ∃ i < rgn.cnt, (rgn.region i).base ≤ base ∧
    base + size ≤ (rgn.region i).base + (rgn.region i).size

section

variable (h : rgn.Coalesced) {b s : ℕ}
include h

theorem Coalesced.shrink (hk : k < rgn.cnt) (hpos : 0 < s) (hbase : (rgn.region k).base ≤ b)
    (hend : b + s ≤ (rgn.region k).base + (rgn.region k).size) :
    (rgn.set k ⟨b, s⟩).Coalesced := by
  have := h.end_lt k hk
  refine h.set hpos (by omega) (fun j hj => ?_) fun j hkj hj => ?_
  · have := h.gap j k hj hk
    omega
  · have := h.gap k j hkj hj
    omega

/-- A range that the region `k` holds is apart from all other regions. -/
theorem Coalesced.other_apart {x : ℕ} (hk : k < rgn.cnt) (hj : j < rgn.cnt) (hne : j ≠ k)
    (hx : (rgn.region j).base ≤ x ∧ x < (rgn.region j).base + (rgn.region j).size) :
    x < (rgn.region k).base ∨ (rgn.region k).base + (rgn.region k).size < x := by
  obtain hlt | hlt := lt_or_gt_of_ne hne
  · have := h.gap j k hlt hk
    omega
  · have := h.gap k j hlt hj
    omega

/-- What is covered once the region `k` holds only the part of it that is outside of a range. -/
theorem Coalesced.covered_set_diff (hk : k < rgn.cnt) {b' s' : ℕ}
    (hs : ∀ x, b' ≤ x ∧ x < s' → (rgn.region k).base ≤ x ∧
      x ≤ (rgn.region k).base + (rgn.region k).size)
    (hp : ∀ x, b ≤ x ∧ x < b + s ↔
      ((rgn.region k).base ≤ x ∧ x < (rgn.region k).base + (rgn.region k).size) ∧
        ¬(b' ≤ x ∧ x < s')) :
    (rgn.set k ⟨b, s⟩).covered = rgn.covered \ Ico b' s' := by
  ext x
  rw [mem_covered_set hk, hp]
  constructor
  · rintro (⟨hx, hxs⟩ | ⟨j, hj, hjk, hx⟩)
    · exact ⟨⟨k, hk, hx⟩, hxs⟩
    · refine ⟨⟨j, hj, hx⟩, fun hxs => ?_⟩
      have := hs x hxs
      have := h.other_apart hk hj hjk hx
      omega
  · rintro ⟨⟨j, hj, hx⟩, hxs⟩
    by_cases hjk : j = k
    · subst hjk
      exact .inl ⟨hx, hxs⟩
    · exact .inr ⟨j, hj, hjk, hx⟩

/-- Taking out a range that the region `k` holds. -/
theorem Coalesced.memblockRemove_inside (hend : base + size < 2 ^ 64)
    (hcnt : rgn.cnt < maxMemblockRegions) (hfind : rgn.find base (base + size) 0 rgn.cnt = some k) :
    ∃ r rgn', rgn.memblockRemove base size = some (r, rgn') ∧ 0 ≤ r ∧ rgn'.Coalesced ∧
      rgn'.covered = rgn.covered \ Ico base (base + size) := by
  obtain ⟨hk, hbase, hstop⟩ := find_some hfind
  rw [zero_add] at hk
  have hkend := h.end_lt k hk
  rw [u64_of_lt hkend] at hstop
  have hin : ∀ x, base ≤ x ∧ x < base + size → (rgn.region k).base ≤ x ∧
      x ≤ (rgn.region k).base + (rgn.region k).size := by
    omega
  simp only [memblockRemove, u64_of_lt hend, hfind, u64_of_lt hkend]
  split_ifs with hall hfront hback
  · rw [memblockRemoveRegion_eq hk h.cnt_le]
    refine ⟨0, _, rfl, le_rfl, h.without hk, ?_⟩
    ext x
    rw [mem_covered_without hk]
    constructor
    · rintro ⟨j, hj, hjk, hx⟩
      refine ⟨⟨j, hj, hx⟩, fun hxs => ?_⟩
      have := hin x hxs
      have := h.other_apart hk hj hjk hx
      omega
    · rintro ⟨⟨j, hj, hx⟩, hxs⟩
      refine ⟨j, hj, fun hjk => hxs ?_, hx⟩
      subst hjk
      rw [mem_Ico]
      omega
  iterate 2
    · rw [u64Sub_of_le (by omega) (by omega)]
      refine ⟨0, _, rfl, le_rfl, h.shrink hk (by omega) (by omega) (by omega),
        h.covered_set_diff hk hin fun x => ?_⟩
      omega
  · rw [u64Sub_of_le (by omega) (by omega), u64Sub_of_le (by omega) (by omega)]
    -- The front part stays in place and the back part is added as a region.
    have hset := h.shrink hk (s := base - (rgn.region k).base) (by omega) le_rfl (by omega)
    have hadd : (rgn.set k ⟨(rgn.region k).base, base - (rgn.region k).base⟩).Addable (base + size)
        ((rgn.region k).base + (rgn.region k).size - (base + size)) := by
      refine ⟨by simp only [set_cnt]; omega, by omega, by omega, .inr fun j hj => ?_⟩
      rw [set_cnt] at hj
      by_cases hjk : j = k
      · subst hjk
        rw [set_self]
        simp only
        omega
      · rw [set_of_ne hjk]
        obtain hlt | hlt := lt_or_gt_of_ne hjk
        · have := h.gap j k hlt hk
          omega
        · have := h.gap k j hlt hj
          omega
    obtain ⟨r, rgn', hrun, hgood, ⟨-, -, hfull⟩ | ⟨hr, hcov⟩⟩ := hset.memblockAddRegion hadd
    · rw [set_cnt] at hfull
      omega
    refine ⟨r, rgn', hrun, hr, hgood, ?_⟩
    have hcut : (rgn.set k ⟨(rgn.region k).base, base - (rgn.region k).base⟩).covered =
        rgn.covered \ Ico base ((rgn.region k).base + (rgn.region k).size) :=
      h.covered_set_diff hk (by omega) (by omega)
    rw [hcov, hcut]
    ext x
    simp only [mem_union, mem_sdiff, mem_Ico]
    constructor
    · rintro (⟨hx, hxs⟩ | hx)
      · exact ⟨hx, by omega⟩
      · exact ⟨⟨k, hk, by omega⟩, by omega⟩
    · rintro ⟨hx, hxs⟩
      by_cases hback : base + size ≤ x ∧ x < (rgn.region k).base + (rgn.region k).size
      · exact .inr (by omega)
      · exact .inl ⟨hx, by omega⟩

theorem Coalesced.memblockRemove (hend : base + size < 2 ^ 64)
    (hcnt : rgn.cnt < maxMemblockRegions) :
    ∃ r rgn', rgn.memblockRemove base size = some (r, rgn') ∧ rgn'.Coalesced ∧
      (rgn.Inside base size → 0 ≤ r ∧ rgn'.covered = rgn.covered \ Ico base (base + size)) ∧
      (¬ rgn.Inside base size → r = -1 ∧ rgn' = rgn) := by
  cases hfind : rgn.find base (base + size) 0 rgn.cnt with
  | none =>
    have hout : ¬ rgn.Inside base size := by
      rintro ⟨j, hj, hbase, hstop⟩
      refine find_none hfind (zero_le j) (by omega) ⟨hbase, ?_⟩
      rwa [u64_of_lt (h.end_lt j hj)]
    refine ⟨-1, rgn, ?_, h, fun hin => absurd hin hout, fun _ => ⟨rfl, rfl⟩⟩
    simp only [Region.memblockRemove, u64_of_lt hend, hfind]
  | some k =>
    obtain ⟨r, rgn', hrun, hr, hgood, hcov⟩ := h.memblockRemove_inside hend hcnt hfind
    obtain ⟨hk, hbase, hstop⟩ := find_some hfind
    rw [zero_add] at hk
    rw [u64_of_lt (h.end_lt k hk)] at hstop
    exact ⟨r, rgn', hrun, hgood, fun _ => ⟨hr, hcov⟩, fun hout => absurd ⟨k, hk, hbase, hstop⟩ hout⟩

end

end AndroidKernel.Mm.Memblock.Region
