import AndroidKernel.Locks.Posix

/-!
# The range of a `struct flock`

`flock_to_posix_lock` and `flock64_to_posix_lock` compute with wrapping offsets of 32 and 64 bits.
A sum of the file position and `l_start` that does not fit is cut off, and a range of negative
length that ends with the largest offset is refused.
-/

namespace AndroidKernel.Locks

open Int

/-- `-EINVAL` -/
def einval : ℤ := -22

/-- `-EOVERFLOW` -/
def eoverflow : ℤ := -75

/-- `struct flock` and `struct flock64`, with offsets of `w` bits -/
structure Flock (w : ℕ) where
  type : ℤ
  whence : ℤ
  start : BitVec w
  len : BitVec w

variable {w : ℕ}

/-- The offset that `l_start` counts from: the beginning of the file for `SEEK_SET`, the file
position for `SEEK_CUR`, and the file size for `SEEK_END`. -/
def Flock.origin (l : Flock w) (fPos iSize : ℤ) : Option ℤ :=
  if l.whence = 0 then some 0
  else if l.whence = 1 then some fPos
  else if l.whence = 2 then some iSize
  else none

/-- `assign_type`: `F_RDLCK`, `F_WRLCK` and `F_UNLCK`. -/
def assignType (type : ℤ) : Except ℤ LockType :=
  if type = 0 then .ok .rdlck
  else if type = 1 then .ok .wrlck
  else if type = 2 then .ok .unlck
  else .error einval

/-- The type, `fl_start` and `fl_end`, computed with `w` bits. -/
def Flock.toPosixLock (l : Flock w) (fPos iSize : ℤ) : Except ℤ (LockType × ℤ × ℤ) :=
  match l.origin fPos iSize with
  | none => .error einval
  | some origin =>
    let start := BitVec.ofInt w origin + l.start
    if start.toInt < 0 then .error einval
    else
      let flEnd :=
        if 0 < l.len.toInt then (start + l.len - 1).toInt
        else if l.len.toInt < 0 then (start - 1).toInt
        else offsetMax
      let flStart := if l.len.toInt < 0 then start + l.len else start
      if l.len.toInt < 0 ∧ flStart.toInt < 0 then .error einval
      else if flEnd < flStart.toInt then .error eoverflow
      else (assignType l.type).map fun type => (type, flStart.toInt, flEnd)

/-- `flock_to_posix_lock` -/
def flockToPosixLock (l : Flock 32) (fPos iSize : ℤ) : Except ℤ (LockType × ℤ × ℤ) :=
  l.toPosixLock fPos iSize

/-- `flock64_to_posix_lock` -/
def flock64ToPosixLock (l : Flock 64) (fPos iSize : ℤ) : Except ℤ (LockType × ℤ × ℤ) :=
  l.toPosixLock fPos iSize

/-- The first byte of the range in POSIX. -/
def Flock.first (l : Flock w) (origin : ℤ) : ℤ := origin + l.start.toInt + min l.len.toInt 0

/-- The last byte of the range in POSIX; the length zero stands for all bytes from the first. -/
def Flock.last (l : Flock w) (origin : ℤ) : ℤ :=
  if l.len.toInt = 0 then offsetMax else origin + l.start.toInt + max l.len.toInt 0 - 1

/-- The range starts at zero or above and its ends are offsets of `w` bits. -/
def Flock.Fits (l : Flock w) (origin : ℤ) : Prop :=
  0 ≤ l.first origin ∧ l.first origin < 2 ^ (w - 1) ∧
    (l.len.toInt ≠ 0 → l.last origin < 2 ^ (w - 1))

/-- The conversion gives the range, or fails if it does not fit. -/
def Flock.Exact (l : Flock w) (origin : ℤ) (r : Except ℤ (LockType × ℤ × ℤ)) : Prop :=
  (l.Fits origin → l.first origin ≤ l.last origin ∧ l.last origin ≤ offsetMax ∧
      r = (assignType l.type).map fun type => (type, l.first origin, l.last origin)) ∧
    (¬ l.Fits origin → r = .error einval ∨ r = .error eoverflow)

section

variable {m : ℤ} (hw : 1 ≤ w) (hm : m = 2 ^ (w - 1))
include hw hm

theorem bmod_wrap {x : ℤ} (hlow : -m ≤ x) (hhigh : x < 2 * m) :
    bmod x (2 ^ w) = if x < m then x else x - 2 * m := by
  have hpow : ((2 ^ w : ℕ) : ℤ) = 2 * m := by
    rw [hm, ← pow_succ', Nat.sub_add_cancel hw]
    norm_cast
  have hpos : 0 < m := hm ▸ Int.pow_pos (by decide)
  split_ifs with hx
  · exact bmod_eq_of_le (by rw [hpow]; omega) (by rw [hpow]; omega)
  · rw [← sub_bmod_right, hpow]
    exact bmod_eq_of_le (by rw [hpow]; omega) (by rw [hpow]; omega)

theorem toInt_add_wrap {a b : BitVec w} (hnonneg : 0 ≤ a.toInt) : (a + b).toInt =
      if a.toInt + b.toInt < m then a.toInt + b.toInt else a.toInt + b.toInt - 2 * m := by
  have ha := a.toInt_lt
  have hb := b.le_toInt
  have hb' := b.toInt_lt
  rw [← hm] at ha hb hb'
  rw [BitVec.toInt_add, bmod_wrap hw hm (by omega) (by omega)]

end

/-- A range that starts to count at `c` lies in the offsets of `w` bits. -/
def Flock.FitsAt (l : Flock w) (c : ℤ) : Prop :=
  0 ≤ c ∧ 0 ≤ c + min l.len.toInt 0 ∧ (0 < l.len.toInt → c + l.len.toInt - 1 < 2 ^ (w - 1))

theorem pow_le_offsetMax (hw' : w ≤ 64) : (2 : ℤ) ^ (w - 1) ≤ offsetMax + 1 := by
  have hpow : (2 : ℤ) ^ (w - 1) ≤ 2 ^ 63 := pow_le_pow_right₀ (by decide) (by omega)
  rw [offsetMax]
  omega

/-- The conversion gives the range that starts to count at the sum of the origin and `l_start`, cut
off to `w` bits, or refuses it. -/
theorem Flock.toPosixLock_spec (hw : 2 ≤ w) (hw' : w ≤ 64) (l : Flock w) {fPos iSize origin c : ℤ}
    (horigin : l.origin fPos iSize = some origin)
    (hc : c = bmod (origin + l.start.toInt) (2 ^ w)) :
    (l.FitsAt c → l.toPosixLock fPos iSize = (assignType l.type).map fun type =>
        (type, c + min l.len.toInt 0,
          if l.len.toInt = 0 then offsetMax else c + max l.len.toInt 0 - 1)) ∧
      (¬ l.FitsAt c → l.toPosixLock fPos iSize = .error einval ∨
        l.toPosixLock fPos iSize = .error eoverflow) ∧
      (c < 0 → l.toPosixLock fPos iSize = .error einval) := by
  obtain ⟨m, hm⟩ : ∃ m : ℤ, m = 2 ^ (w - 1) := ⟨_, rfl⟩
  have hmax : m ≤ offsetMax + 1 := hm ▸ pow_le_offsetMax hw'
  have hlt := l.len.toInt_lt
  rw [← hm] at hlt
  have hstart : (BitVec.ofInt w origin + l.start).toInt = c := by
    rw [hc, BitVec.toInt_add, BitVec.toInt_ofInt, Int.bmod_add_bmod]
  unfold toPosixLock FitsAt
  rw [horigin, ← hm]
  simp only
  generalize BitVec.ofInt w origin + l.start = start at hstart ⊢
  subst hstart
  have hstartlt := start.toInt_lt
  rw [← hm] at hstartlt
  by_cases hneg : start.toInt < 0
  · rw [if_pos hneg]
    exact ⟨fun hfits => absurd hfits.1 (not_le.mpr hneg), fun _ => .inl rfl, fun _ => rfl⟩
  rw [if_neg hneg]
  have hsub (a : BitVec w) : (a - 1).toInt = Int.bmod (a.toInt - 1) (2 ^ w) := by
    have hone : (1 : BitVec w).toInt = 1 := BitVec.toInt_one (by omega)
    rw [BitVec.toInt_sub, hone]
  have hadd := toInt_add_wrap (b := l.len) (by omega) hm (not_lt.mp hneg)
  rcases lt_trichotomy l.len.toInt 0 with hlen | hlen | hlen
  · rw [if_pos (by omega)] at hadd
    rw [if_neg (not_lt.mpr hlen.le), if_pos hlen, if_pos hlen, hadd, hsub,
      bmod_wrap (by omega) hm (by omega) (by omega),
      if_pos (show start.toInt - 1 < m by omega), if_neg hlen.ne, max_eq_right hlen.le, add_zero,
      min_eq_left hlen.le]
    split_ifs with hbelow hover
    · exact ⟨fun h => by omega, fun _ => .inl rfl, fun h => absurd h hneg⟩
    · omega
    · exact ⟨fun _ => rfl, fun h => absurd ⟨by omega, by omega, fun h => by omega⟩ h,
        fun h => absurd h hneg⟩
  · rw [if_neg hlen.not_gt, if_neg hlen.not_lt, if_neg hlen.not_lt, if_pos hlen,
      if_neg fun h => hlen.not_lt h.1, if_neg (by omega), hlen, min_self, add_zero]
    exact ⟨fun _ => rfl, fun h => absurd ⟨by omega, by omega, fun h => by omega⟩ h,
      fun h => absurd h hneg⟩
  · have hsum' : (start + l.len - 1).toInt =
        if start.toInt + l.len.toInt - 1 < m then start.toInt + l.len.toInt - 1
        else start.toInt + l.len.toInt - 1 - 2 * m := by
      rw [hsub, BitVec.toInt_add, Int.bmod_sub_bmod, bmod_wrap (by omega) hm (by omega) (by omega)]
    rw [if_pos hlen, if_neg hlen.not_gt, if_neg fun h => hlen.not_gt h.1, hsum', if_neg hlen.ne',
      max_eq_left hlen.le, min_eq_right hlen.le, add_zero]
    by_cases hover : start.toInt + l.len.toInt - 1 < m
    · rw [if_pos hover, if_neg (by omega)]
      exact ⟨fun _ => rfl, fun h => absurd ⟨by omega, by omega, fun _ => hover⟩ h,
        fun h => absurd h hneg⟩
    · rw [if_neg hover, if_pos (by omega)]
      exact ⟨fun h => absurd (h.2.2 hlen) hover, fun _ => .inr rfl, fun h => absurd h hneg⟩

/-- `assign_type` knows the type. -/
def Flock.TypeKnown (l : Flock w) : Prop := l.type = 0 ∨ l.type = 1 ∨ l.type = 2

theorem Flock.map_assignType_ok (l : Flock w) (range : ℤ × ℤ) (e : ℤ) :
    (l.TypeKnown → (assignType l.type).map (fun type => (type, range)) ≠ .error e) ∧
      (¬ l.TypeKnown → (assignType l.type).map (fun type => (type, range)) = .error einval) := by
  unfold TypeKnown assignType
  split_ifs <;> simp_all [Except.map]

/-- The origin and `l_start` add up to an offset of the type, or the type of the lock is unknown, or
the range does not end with the largest offset and is refused when the sum is cut off. -/
def Flock.Kept (l : Flock w) (origin : ℤ) : Prop :=
  l.TypeKnown → 2 ^ (w - 1) ≤ origin + l.start.toInt →
    ¬ (l.len.toInt < 0 ∧ origin + l.start.toInt = 2 ^ (w - 1)) ∧
      ¬ l.FitsAt (bmod (origin + l.start.toInt) (2 ^ w))

theorem Flock.exact_iff (hw : 2 ≤ w) (hw' : w ≤ 64) (l : Flock w) {fPos iSize origin : ℤ}
    (horigin : l.origin fPos iSize = some origin) (hnonneg : 0 ≤ origin) :
    l.Exact origin (l.toPosixLock fPos iSize) ↔ l.Kept origin := by
  obtain ⟨m, hm⟩ : ∃ m : ℤ, m = 2 ^ (w - 1) := ⟨_, rfl⟩
  have hmax : m ≤ offsetMax + 1 := hm ▸ pow_le_offsetMax hw'
  obtain ⟨hfit, hrefuse, hbelow⟩ := l.toPosixLock_spec hw hw' horigin rfl
  have hslow := l.start.le_toInt
  have hllow := l.len.le_toInt
  unfold Exact Kept Fits first last
  unfold FitsAt at *
  rw [← hm] at hslow hllow hfit hrefuse ⊢
  generalize l.start.toInt = start at *
  generalize hr : l.toPosixLock fPos iSize = r at *
  obtain hin | hout := lt_or_ge (origin + start) m
  · -- the sum is not cut off
    rw [bmod_wrap (by omega) hm (by omega) (by omega), if_pos hin] at hfit hrefuse
    refine iff_of_true ⟨fun h => ⟨?_, ?_, ?_⟩, fun h => hrefuse fun hc => h ?_⟩
      fun _ hge => absurd hge (not_le.mpr hin)
    · split_ifs <;> omega
    · split_ifs <;> omega
    · exact hfit ⟨by omega, by omega, fun hpos => by split_ifs at h <;> omega⟩
    · refine ⟨by omega, by omega, fun hne => ?_⟩
      rw [if_neg hne]
      rcases lt_or_ge 0 l.len.toInt with hpos | hle
      · have := hc.2.2 hpos
        omega
      · omega
  -- the range fits only if it ends with the largest offset, and then the sum becomes negative
  have hends : l.len.toInt < 0 ∧ origin + start = m → r = .error einval := fun h => hbelow (by
    rw [h.2, bmod_wrap (by omega) hm (by omega) (by omega), if_neg (lt_irrefl m)]
    omega)
  have hfits : (0 ≤ origin + start + min l.len.toInt 0 ∧
      origin + start + min l.len.toInt 0 < m ∧ (l.len.toInt ≠ 0 → (if l.len.toInt = 0 then offsetMax
        else origin + start + max l.len.toInt 0 - 1) < m)) ↔
      l.len.toInt < 0 ∧ origin + start = m := by
    split_ifs <;> omega
  have htype := fun range e => l.map_assignType_ok range e
  rw [hfits]
  generalize bmod (origin + start) (2 ^ w) = c at *
  by_cases hend : l.len.toInt < 0 ∧ origin + start = m
  · refine ⟨fun h hknown _ => absurd ((hends hend).symm.trans (h.1 hend).2.2).symm
      ((htype _ _).1 hknown), fun h => ⟨fun _ => ⟨?_, ?_, ?_⟩, fun hnot => absurd hend hnot⟩⟩
    · split_ifs <;> omega
    · split_ifs <;> omega
    · rw [hends hend, (htype _ einval).2 fun hknown => (h hknown hout).1 hend]
  · refine ⟨fun h hknown _ => ⟨hend, fun hc => ?_⟩,
      fun h => ⟨fun h' => absurd h' hend, fun _ => ?_⟩⟩
    · rw [hfit hc] at h
      exact (h.2 hend).elim ((htype _ _).1 hknown) ((htype _ _).1 hknown)
    · by_cases hc : 0 ≤ c ∧ 0 ≤ c + min l.len.toInt 0 ∧ (0 < l.len.toInt → c + l.len.toInt - 1 < m)
      · rw [hfit hc]
        exact .inl ((htype _ einval).2 fun hknown => (h hknown hout).2 hc)
      · exact hrefuse hc

/-- A file position of 2 ^ 32 is cut off: the lock is on the first byte of the file. -/
theorem flock_position_cut_off : flockToPosixLock ⟨1, 1, 0, 1⟩ (2 ^ 32) 0 = .ok (.wrlck, 0, 0) ∧
      Flock.first (⟨1, 1, 0, 1⟩ : Flock 32) (2 ^ 32) = 2 ^ 32 ∧
      flock64ToPosixLock ⟨1, 1, 1, -1⟩ offsetMax 0 = .error einval ∧
      Flock.first (⟨1, 1, 1, -1⟩ : Flock 64) offsetMax = offsetMax ∧
      Flock.last (⟨1, 1, 1, -1⟩ : Flock 64) offsetMax = offsetMax := by
  decide +kernel

/-- Both conversions are exact, for all positions and sizes, exactly if the sum of the origin and
`l_start` is an offset of the type, or the lock type is unknown, or the range does not end with the
largest offset and is refused though its start is cut off. For 64 bits a start that is cut off is
always refused. Another whence is refused. -/
theorem flock_conversion_exact (fPos iSize : ℤ) (hpos : 0 ≤ fPos ∧ fPos ≤ offsetMax)
    (hsize : 0 ≤ iSize ∧ iSize ≤ offsetMax) (l : Flock 32) (l64 : Flock 64) :
    (∀ origin, l.origin fPos iSize = some origin →
      (l.Exact origin (flockToPosixLock l fPos iSize) ↔ l.Kept origin)) ∧
    (∀ origin, l64.origin fPos iSize = some origin →
      (l64.Exact origin (flock64ToPosixLock l64 fPos iSize) ↔ (l64.TypeKnown →
        ¬ (l64.len.toInt < 0 ∧ origin + l64.start.toInt = 2 ^ 63)))) ∧
    (l.origin fPos iSize = none → flockToPosixLock l fPos iSize = .error einval) ∧
    (l64.origin fPos iSize = none → flock64ToPosixLock l64 fPos iSize = .error einval) := by
  have hrange {w : ℕ} {l : Flock w} {origin : ℤ} (h : l.origin fPos iSize = some origin) :
      0 ≤ origin ∧ origin ≤ offsetMax := by
    unfold Flock.origin at h
    split_ifs at h <;> cases h
    · exact ⟨le_rfl, by decide⟩
    · exact hpos
    · exact hsize
  refine ⟨fun origin h => ?_, fun origin h => ?_, fun h => ?_, fun h => ?_⟩
  · exact l.exact_iff (by decide) (by decide) h (hrange h).1
  · rw [flock64ToPosixLock, l64.exact_iff (by decide) (by decide) h (hrange h).1]
    have hlt := l64.start.toInt_lt
    have horigin := hrange h
    have hmax : offsetMax = 2 ^ 63 - 1 := rfl
    refine ⟨fun hkept hknown hend => (hkept hknown hend.2.ge).1 hend,
      fun hkept hknown hge => ⟨hkept hknown, fun hfits => ?_⟩⟩
    rw [bmod_wrap (m := 2 ^ 63) (by decide) rfl (by omega) (by omega), if_neg (by omega)] at hfits
    have := hfits.1
    omega
  · rw [flockToPosixLock, Flock.toPosixLock, h]
  · rw [flock64ToPosixLock, Flock.toPosixLock, h]

/-- The ten bytes before the end of a file of twenty, and ten bytes at a position of `2 ^ 31`, which
is no offset of 32 bits. -/
theorem flock_conversion_exact_tenBytes :
    (⟨0, 2, 0, -10⟩ : Flock 32).Exact 20 (flockToPosixLock ⟨0, 2, 0, -10⟩ 0 20) ∧
      (⟨0, 1, 0, 10⟩ : Flock 32).Exact (2 ^ 31) (flockToPosixLock ⟨0, 1, 0, 10⟩ (2 ^ 31) 20) :=
  ⟨((flock_conversion_exact 0 20 (by decide) (by decide) ⟨0, 2, 0, -10⟩ ⟨0, 2, 0, -10⟩).1 20
      rfl).mpr fun _ h => absurd h (by decide),
    ((flock_conversion_exact (2 ^ 31) 20 (by decide) (by decide) ⟨0, 1, 0, 10⟩ ⟨0, 1, 0, 10⟩).1 _
      rfl).mpr fun _ _ => ⟨by decide, fun h => absurd h.1 (by decide)⟩⟩

end AndroidKernel.Locks
