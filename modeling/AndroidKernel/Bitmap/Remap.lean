import AndroidKernel.Bitmap.ZeroArea
import Mathlib.Data.Nat.Count

/-!
# `bitmap_remap` and `bitmap_bitremap` of `lib/bitmap.c`

The `k`-th set bit of one map is sent to the `k`-th set bit of another, modulo the weight of that
one. `bitmap_remap` clears its destination before it reads the two maps.
-/

namespace AndroidKernel.Bitmap

open Function Nat List

variable (map old new : ℕ → Bool) (bits : ℕ)

/-- `bitmap_weight` -/
def bitmapWeight : ℕ := count (fun i => map i = true) bits

/-- The loop of `bitmap_pos_to_ord`, which ends in its `BUG_ON`. -/
def posToOrdLoop (pos : ℕ) : ℕ → ℕ → ℕ → Option ℤ
  | 0, _, _ => none
  | rounds + 1, i, ord =>
    if i < pos then posToOrdLoop pos rounds (findNextBit map bits (i + 1)) (ord + 1)
    else if i = pos then some ord else none

/-- `bitmap_pos_to_ord` -/
def bitmapPosToOrd (pos : ℕ) : Option ℤ :=
  if bits ≤ pos ∨ map pos = false then some (-1)
  else posToOrdLoop map bits pos bits (findNextBit map bits 0) 0

/-- The loop of `bitmap_ord_to_pos`, with what is left of `ord`. -/
def ordToPosLoop : ℕ → ℕ → ℕ × ℕ
  | 0, i => (i, 0)
  | ord + 1, i => if i < bits then ordToPosLoop ord (findNextBit map bits (i + 1)) else (i, ord + 1)

/-- `bitmap_ord_to_pos` -/
def bitmapOrdToPos (ord : ℕ) : ℕ :=
  if ord < bits then
    let (i, ord) := ordToPosLoop map bits ord (findNextBit map bits 0)
    if i < bits ∧ ord = 0 then i else 0
  else 0

/-- `bitmap_bitremap` -/
def bitmapBitremap (oldbit : ℕ) : Option ℕ :=
  let w := bitmapWeight new bits
  (bitmapPosToOrd old bits oldbit).map fun n =>
    if n < 0 ∨ w = 0 then oldbit else bitmapOrdToPos new bits (n.toNat % w)

/-- The loop body of `bitmap_remap`, on maps that are at places of a memory. -/
def remapBit (dst old new w : ℕ) (mem : ℕ → ℕ → Bool) (oldbit : ℕ) : Option (ℕ → ℕ → Bool) :=
  (bitmapPosToOrd (mem old) bits oldbit).map fun n =>
    let bit := if n < 0 ∨ w = 0 then oldbit else bitmapOrdToPos (mem new) bits (n.toNat % w)
    update mem dst (update (mem dst) bit true)

/-- `bitmap_remap` -/
def bitmapRemap (dst src old new : ℕ) (mem : ℕ → ℕ → Bool) : Option (ℕ → ℕ → Bool) :=
  if dst = src then mem
  else
    -- bitmap_zero, in whole words
    let mem := update mem dst fun i => (bits + 31) / 32 * 32 ≤ i && mem dst i
    let w := bitmapWeight (mem new) bits
    -- for_each_set_bit
    ((range bits).filter (mem src)).foldlM (remapBit bits dst old new w) mem

variable {map old new bits} {i m : ℕ}

theorem bitmapWeight_succ (h : map i = true) : bitmapWeight map (i + 1) = bitmapWeight map i + 1 :=
  count_succ_eq_succ_count_iff.mpr h

variable (map) in
theorem bitmapWeight_findNextBit (hi : i ≤ bits) : i ≤ findNextBit map bits i ∧
      bitmapWeight map (findNextBit map bits i) = bitmapWeight map i := by
  obtain ⟨hle, hskipped, hfound⟩ := findNextBit_spec map bits i
  have hge : i ≤ findNextBit map bits i := by
    obtain hlt | heq := hle.lt_or_eq
    · exact (hfound hlt).1
    · omega
  refine ⟨hge, le_antisymm (le_of_not_gt fun hlt => ?_) (count_monotone _ hge)⟩
  obtain ⟨j, ⟨hij, hj⟩, hset⟩ := exists_of_count_lt_count hlt
  exact Bool.false_ne_true ((hskipped j hij hj).symm.trans hset)

theorem findNextBit_le (hm : map m = true) (hlt : m < bits) (hi : i ≤ m) :
    findNextBit map bits i ≤ m ∧ map (findNextBit map bits i) = true := by
  obtain ⟨-, hskipped, hfound⟩ := findNextBit_spec map bits i
  have hle : findNextBit map bits i ≤ m := le_of_not_gt fun hgt =>
    Bool.false_ne_true ((hskipped m hi hgt).symm.trans hm)
  exact ⟨hle, (hfound (by omega)).2⟩

theorem posToOrdLoop_eq (hm : map m = true) (hlt : m < bits) (hi : map i = true) (hle : i ≤ m)
    {n : ℕ} (hn : m < n + i) :
    posToOrdLoop map bits m n i (bitmapWeight map i) = some (bitmapWeight map m : ℤ) := by
  induction n generalizing i with
  | zero => omega
  | succ n ih =>
    rw [posToOrdLoop]
    split_ifs with him heq
    · obtain ⟨hnext, hset⟩ := findNextBit_le hm hlt (succ_le_of_lt him)
      obtain ⟨hge, hweight⟩ := bitmapWeight_findNextBit map (by omega : i + 1 ≤ bits)
      rw [← bitmapWeight_succ hi, ← hweight]
      exact ih hset hnext (by omega)
    · rw [heq]
    · omega

theorem bitmapPosToOrd_eq (hm : map m = true) (hlt : m < bits) :
    bitmapPosToOrd map bits m = some (bitmapWeight map m : ℤ) := by
  obtain ⟨hle, hset⟩ := findNextBit_le hm hlt (zero_le m)
  obtain ⟨-, hzero⟩ := bitmapWeight_findNextBit map (zero_le bits)
  rw [bitmapPosToOrd, if_neg (by simp [hm, hlt])]
  have hloop := posToOrdLoop_eq hm hlt hset hle (n := bits) (by omega)
  rwa [hzero] at hloop

theorem ordToPosLoop_spec (k : ℕ) (hi : i < bits → map i = true)
    (hord : bitmapWeight map i + k < bitmapWeight map bits) :
    ∃ r < bits, ordToPosLoop map bits k i = (r, 0) ∧ map r = true ∧
      bitmapWeight map r = bitmapWeight map i + k := by
  have hlt : i < bits := lt_of_count_lt_count ((le_add_right _ k).trans_lt hord)
  induction k generalizing i with
  | zero => exact ⟨i, hlt, rfl, hi hlt, rfl⟩
  | succ k ih =>
    obtain ⟨-, hweight⟩ := bitmapWeight_findNextBit map (by omega : i + 1 ≤ bits)
    rw [bitmapWeight_succ (hi hlt)] at hweight
    have hord' : bitmapWeight map (findNextBit map bits (i + 1)) + k < bitmapWeight map bits := by
      omega
    have hset := fun h => ((findNextBit_spec map bits (i + 1)).2.2 h).2
    obtain ⟨r, hr, hloop, hmap, heq⟩ := ih hset hord'
      (lt_of_count_lt_count ((le_add_right _ k).trans_lt hord'))
    exact ⟨r, hr, by rw [ordToPosLoop, if_pos hlt, hloop], hmap, by omega⟩

theorem bitmapOrdToPos_spec {ord : ℕ} (hord : ord < bitmapWeight map bits) :
    bitmapOrdToPos map bits ord < bits ∧ map (bitmapOrdToPos map bits ord) = true ∧
      bitmapWeight map (bitmapOrdToPos map bits ord) = ord := by
  obtain ⟨-, hzero⟩ := bitmapWeight_findNextBit map (zero_le bits)
  rw [bitmapWeight, bitmapWeight, count_zero] at hzero
  have hset := fun h => ((findNextBit_spec map bits 0).2.2 h).2
  obtain ⟨r, hr, hloop, hmap, heq⟩ := ordToPosLoop_spec ord hset (by
    rw [bitmapWeight, hzero]
    omega)
  rw [bitmapWeight, bitmapWeight, hzero, zero_add] at heq
  have hbits : ord < bits := hord.trans_le (count_le _)
  simp [bitmapOrdToPos, hbits, hloop, hr, hmap, heq, bitmapWeight]

/-- A set bit of `old` is sent to the set bit of `new` with the same ordinal modulo the weight of
`new`. The map is the identity outside of `old` and when `new` is empty. -/
def Image (old new : ℕ → Bool) (bits m n : ℕ) : Prop :=
  if m < bits ∧ old m = true ∧ 0 < bitmapWeight new bits then
    n < bits ∧ new n = true ∧ bitmapWeight new n = bitmapWeight old m % bitmapWeight new bits
  else n = m

theorem bitmapBitremap_spec (old new : ℕ → Bool) (bits m : ℕ) :
    ∃ n, bitmapBitremap old new bits m = some n ∧ Image old new bits m n := by
  unfold Image
  by_cases hm : m < bits ∧ old m = true
  · rw [bitmapBitremap, bitmapPosToOrd_eq hm.2 hm.1]
    refine ⟨_, rfl, ?_⟩
    dsimp only
    by_cases hw : bitmapWeight new bits = 0
    · simp [hw]
    · rw [if_pos ⟨hm.1, hm.2, Nat.pos_of_ne_zero hw⟩, if_neg (by simp [hw])]
      exact bitmapOrdToPos_spec (mod_lt _ (Nat.pos_of_ne_zero hw))
  · have hnot : bits ≤ m ∨ old m = false := by
      simpa [or_iff_not_imp_left] using hm
    refine ⟨m, ?_, by rw [if_neg fun h => hm ⟨h.1, h.2.1⟩]⟩
    simp [bitmapBitremap, bitmapPosToOrd, hnot]

section

variable {mem : ℕ → ℕ → Bool} {dst src old new : ℕ}

/-- The loop of `bitmap_remap` over a list of bits. -/
theorem remapLoop_spec (hold : old ≠ dst) (hnew : new ≠ dst) (l : List ℕ) :
    ∃ mem', l.foldlM (remapBit bits dst old new (bitmapWeight (mem new) bits)) mem = some mem' ∧
      ∀ n, mem' dst n = true ↔ mem dst n = true ∨
        ∃ m ∈ l, bitmapBitremap (mem old) (mem new) bits m = some n := by
  induction l generalizing mem with
  | nil => exact ⟨mem, rfl, by simp⟩
  | cons m l ih =>
    obtain ⟨bit, hbit, -⟩ := bitmapBitremap_spec (mem old) (mem new) bits m
    have hstep : remapBit bits dst old new (bitmapWeight (mem new) bits) mem m =
        (bitmapBitremap (mem old) (mem new) bits m).map fun bit =>
          update mem dst (update (mem dst) bit true) := by
      rw [bitmapBitremap, Option.map_map]
      rfl
    obtain ⟨mem', hloop, hmem'⟩ := @ih (update mem dst (update (mem dst) bit true))
    simp only [update_of_ne hold, update_of_ne hnew, update_self] at hloop hmem'
    refine ⟨mem', by rw [foldlM_cons, hstep, hbit]; exact hloop, fun n => ?_⟩
    rw [hmem', exists_mem_cons_iff, hbit, update_apply]
    by_cases hn : n = bit
    · simp [hn]
    · simp [hn, Ne.symm hn]

/-- `bitmap_remap` sets the images of the set bits of `src` under `bitmap_bitremap`, if the
destination is none of the maps it reads. -/
theorem bitmapRemap_bitwise (hold : old ≠ dst) (hnew : new ≠ dst) (hsrc : src ≠ dst) :
    (∃ mem', bitmapRemap bits dst src old new mem = some mem' ∧
      ∀ n < bits, mem' dst n = true ↔ ∃ m < bits, mem src m = true ∧
        bitmapBitremap (mem old) (mem new) bits m = some n) ∧
    ∀ m, ∃ n, bitmapBitremap (mem old) (mem new) bits m = some n ∧
      Image (mem old) (mem new) bits m n := by
  obtain ⟨mem', hloop, hmem'⟩ := @remapLoop_spec bits
    (update mem dst fun i => (bits + 31) / 32 * 32 ≤ i && mem dst i) dst old new hold hnew
    ((range bits).filter (mem src))
  refine ⟨⟨mem', ?_, fun n hn => ?_⟩, bitmapBitremap_spec _ _ bits⟩
  · rw [bitmapRemap, if_neg hsrc.symm]
    simpa [update_of_ne hsrc] using hloop
  · have hlow : ¬(bits + 31) / 32 * 32 ≤ n := by omega
    simp [hmem', update_of_ne hold, update_of_ne hnew, hlow, and_assoc]

end

theorem bitmapRemap_bitwise_two :
    ∃ mem', bitmapRemap 2 3 0 1 2 (fun i n => n == i - 1) = some mem' ∧
      ∀ n < 2, mem' 3 n = true ↔ ∃ m < 2, (m == 0) = true ∧
        bitmapBitremap (· == 0) (· == 1) 2 m = some n :=
  (bitmapRemap_bitwise (by decide) (by decide) (by decide)).1

/-- A destination that is the map `new` is cleared before that map is read. -/
theorem bitmapRemap_clears_new : bitmapBitremap (· == 0) (· == 1) 2 0 = some 1 ∧
      (bitmapRemap 2 1 0 0 1 fun i n => n == i).map (· 1 0) = some true := by
  decide

end AndroidKernel.Bitmap
