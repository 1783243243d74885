import Mathlib.Tactic

/-!
# Rational approximations

`rational_best_approximation` (`lib/rational.c`) goes along the convergents of a fraction and
returns the last one within the limits. It passes over the fractions between two convergents, so
the result is the closest one exactly if none of those within the limits is closer.
-/

namespace AndroidKernel.Rational

/-- The variables of the loop of `rational_best_approximation`. No convergent has larger terms than
the given fraction, so words are numbers here. -/
structure Loop where
  n : ℕ
  d : ℕ
  n0 : ℕ
  d0 : ℕ
  n1 : ℕ
  d1 : ℕ

variable {s : Loop} {n d maxN maxD fuel p q : ℕ}

/-- The variables before the loop. -/
def Loop.init (n d : ℕ) : Loop := ⟨n, d, 0, 1, 1, 0⟩

/-- The variables after a round. -/
def Loop.next (s : Loop) : Loop :=
  ⟨s.d, s.n % s.d, s.n1, s.d1, s.n0 + s.n / s.d * s.n1, s.d0 + s.n / s.d * s.d1⟩

/-- The loop. -/
def Loop.run (maxN maxD : ℕ) : ℕ → Loop → Option (ℕ × ℕ)
  | 0, _ => none
  | fuel + 1, s =>
    if s.n1 > maxN ∨ s.d1 > maxD then some (s.n0, s.d0)
    else if s.d = 0 then some (s.n1, s.d1)
    else run maxN maxD fuel s.next

/-- `rational_best_approximation`. The remainder falls from round to round, which bounds them. -/
def rationalBestApproximation (n d maxN maxD : ℕ) : Option (ℕ × ℕ) :=
  (Loop.init n d).run maxN maxD (d + 2)

/-- Two successive convergents of `n / d`, from `1 / 0` on, and the two remainders that Euclid's
algorithm is then at. -/
inductive Convergents (n d : ℕ) : ℕ × ℕ → ℕ × ℕ → ℕ → ℕ → Prop
  | first : Convergents n d (0, 1) (1, 0) n d
  | next {b c : ℕ × ℕ} {r₀ r₁ : ℕ} (h : Convergents n d b c r₀ r₁) (hr : r₁ ≠ 0) :
      Convergents n d c (b.1 + r₀ / r₁ * c.1, b.2 + r₀ / r₁ * c.2) r₁ (r₀ % r₁)

/-- `c` is the last convergent of `n / d` within the limits, and `b` is the one before it. -/
def LastWithin (n d maxN maxD : ℕ) (b c : ℕ × ℕ) : Prop :=
  ∃ r₀ r₁, Convergents n d b c r₀ r₁ ∧ c.1 ≤ maxN ∧ c.2 ≤ maxD ∧
    (r₁ = 0 ∨ maxN < b.1 + r₀ / r₁ * c.1 ∨ maxD < b.2 + r₀ / r₁ * c.2)

/-- The fraction `p / q` is at least as close to `n / d` as `p' / q'`: the distances are taken times
`d q q'`. -/
def AsClose (n d p q p' q' : ℕ) : Prop :=
  |(n * q - p * d : ℤ)| * q' ≤ |(n * q' - p' * d : ℤ)| * q

/-- No fraction within the limits is closer to `n / d`. -/
def Closest (n d maxN maxD p q : ℕ) : Prop :=
  ∀ p' q' : ℕ, p' ≤ maxN → 1 ≤ q' → q' ≤ maxD → AsClose n d p q p' q'

/-- No fraction within the limits that lies between the last convergent within them and the one
before it is closer to `n / d` than that convergent. -/
def SemiconvergentsFarther (n d maxN maxD : ℕ) : Prop :=
  ∀ b c, LastWithin n d maxN maxD b c → ∀ j, 1 ≤ j → b.1 + j * c.1 ≤ maxN →
    b.2 + j * c.2 ≤ maxD → AsClose n d c.1 c.2 (b.1 + j * c.1) (b.2 + j * c.2)

/-- What the convergents have to do with the fraction, from the second round on. -/
structure Inv (n d : ℕ) (s : Loop) : Prop where
  num : n = s.n1 * s.n + s.n0 * s.d
  den : d = s.d1 * s.n + s.d0 * s.d
  det : |(s.n1 * s.d0 - s.n0 * s.d1 : ℤ)| = 1
  le : s.d0 ≤ s.d1
  pos : 0 < s.d1
  lt : s.d < s.n

theorem Inv.mediant_le (h : Inv n d s) (hs : s.d ≠ 0) :
    s.n0 + s.n1 ≤ s.next.n1 ∧ s.d0 + s.d1 ≤ s.next.d1 := by
  have hquot : 0 < s.n / s.d := Nat.div_pos h.lt.le (Nat.pos_of_ne_zero hs)
  exact ⟨Nat.add_le_add_left (Nat.le_mul_of_pos_left _ hquot) _,
    Nat.add_le_add_left (Nat.le_mul_of_pos_left _ hquot) _⟩

theorem Inv.next (h : Inv n d s) (hs : s.d ≠ 0) : Inv n d s.next := by
  have hdiv := Nat.div_add_mod s.n s.d
  have hle : s.d1 ≤ s.next.d1 := (Nat.le_add_left _ _).trans (h.mediant_le hs).2
  refine ⟨?_, ?_, ?_, hle, h.pos.trans_le hle, Nat.mod_lt _ (Nat.pos_of_ne_zero hs)⟩
  · rw [h.num, Loop.next]
    nth_rewrite 1 [← hdiv]
    ring
  · rw [h.den, Loop.next]
    nth_rewrite 1 [← hdiv]
    ring
  · rw [← h.det, abs_sub_comm, Loop.next]
    congr 1
    push_cast
    ring

/-- The distances of combinations of the two convergents, times `d q q'`. -/
theorem Inv.asClose_iff (h : Inv n d s) {p q : ℕ} {a b : ℤ} (hp : (p : ℤ) = s.n1 * a + s.n0 * b)
    (hq : (q : ℤ) = s.d1 * a + s.d0 * b) :
    AsClose n d s.n1 s.d1 p q ↔ (s.d * q : ℤ) ≤ |(s.n * b - s.d * a : ℤ)| * s.d1 := by
  obtain ⟨e, hdet, he⟩ : ∃ e : ℤ, s.n1 * s.d0 - s.n0 * s.d1 = e ∧ |e| = 1 := ⟨_, rfl, h.det⟩
  have hlast : (n * s.d1 - s.n1 * d : ℤ) = -e * s.d := by
    rw [h.num, h.den, ← hdet]
    push_cast
    ring
  have hother : (n * q - p * d : ℤ) = e * (s.n * b - s.d * a) := by
    rw [h.num, h.den, ← hdet, hp, hq]
    push_cast
    ring
  rw [AsClose, hlast, hother, abs_mul, abs_mul, abs_neg, he, one_mul, one_mul, Nat.abs_cast]

/-- Every fraction is a combination of the two convergents. -/
theorem Inv.exists_combination (h : Inv n d s) (p q : ℕ) :
    ∃ a b : ℤ, (p : ℤ) = s.n1 * a + s.n0 * b ∧ (q : ℤ) = s.d1 * a + s.d0 * b := by
  obtain ⟨e, hdet, he⟩ : ∃ e : ℤ, s.n1 * s.d0 - s.n0 * s.d1 = e ∧ |e| = 1 := ⟨_, rfl, h.det⟩
  have hsq : e * e = 1 := by rw [← abs_mul_abs_self, he, one_mul]
  exact ⟨e * (p * s.d0 - q * s.n0), e * (q * s.n1 - p * s.d1),
    by linear_combination (-p : ℤ) * hsq - e * p * hdet,
    by linear_combination (-q : ℤ) * hsq - e * q * hdet⟩

/-- A fraction that is not between the two convergents is not closer than the second one. -/
theorem Inv.far_of_not_between (h : Inv n d s) {a b : ℤ}
    (hab : b ≤ 0 ∨ 0 < b ∧ (s.d * a : ℤ) ≤ 0) :
    (s.d * (s.d1 * a + s.d0 * b) : ℤ) ≤ |(s.n * b - s.d * a : ℤ)| * s.d1 := by
  have hle : (s.d0 : ℤ) ≤ s.d1 := by exact_mod_cast h.le
  have hlt : (s.d : ℤ) ≤ s.n := by exact_mod_cast h.lt.le
  rcases hab with hb | ⟨hb, ha⟩
  · have hsum : (0 : ℤ) ≤ s.n * s.d1 + s.d * s.d0 := by positivity
    have hfar := mul_le_mul_of_nonneg_right (neg_le_abs (s.n * b - s.d * a : ℤ))
      (Nat.cast_nonneg s.d1)
    linarith [mul_nonneg (neg_nonneg.mpr hb) hsum]
  · have hdiff := sub_nonneg.mpr (mul_le_mul hlt hle (Nat.cast_nonneg _) (Nat.cast_nonneg _))
    have hfar := mul_le_mul_of_nonneg_right (le_abs_self (s.n * b - s.d * a : ℤ))
      (Nat.cast_nonneg s.d1)
    linarith [mul_nonneg hb.le hdiff, mul_nonneg (neg_nonneg.mpr ha) (Nat.cast_nonneg s.d1)]

/-- If the fractions between the two last convergents on the way to the next one are farther, then
so are all other fractions within the limits. -/
theorem Inv.closest (h : Inv n d s)
    (hlast : s.d = 0 ∨ maxN < s.n0 + s.n / s.d * s.n1 ∨ maxD < s.d0 + s.n / s.d * s.d1)
    (hsemi : ∀ j, 1 ≤ j → s.n0 + j * s.n1 ≤ maxN → s.d0 + j * s.d1 ≤ maxD →
      AsClose n d s.n1 s.d1 (s.n0 + j * s.n1) (s.d0 + j * s.d1)) :
    Closest n d maxN maxD s.n1 s.d1 := by
  intro p q hpmax _ hqmax
  obtain ⟨a, b, hp, hq⟩ := h.exists_combination p q
  rw [h.asClose_iff hp hq, hq]
  by_cases hab : b ≤ 0 ∨ 0 < b ∧ (s.d * a : ℤ) ≤ 0
  · exact h.far_of_not_between hab
  push Not at hab
  obtain ⟨hb, hda⟩ := hab
  have hpos : (0 : ℤ) < s.d * a := hda hb
  have ha : 0 < a := pos_of_mul_pos_right hpos (Nat.cast_nonneg _)
  have hd : 0 < s.d := by
    have := pos_of_mul_pos_left hpos ha.le
    omega
  -- it is between the last convergent and a fraction on the way to the next one
  obtain ⟨j, rfl⟩ := Int.eq_ofNat_of_zero_le ha.le
  have hnum : s.n0 + j * s.n1 ≤ maxN := by
    have : (s.n0 + j * s.n1 : ℤ) ≤ p := by nlinarith
    omega
  have hden : s.d0 + j * s.d1 ≤ maxD := by
    have : (s.d0 + j * s.d1 : ℤ) ≤ q := by nlinarith
    omega
  have hle : s.d * j ≤ s.n := by
    by_contra hlt
    have hquot : s.n / s.d ≤ j := (Nat.div_lt_of_lt_mul (not_le.mp hlt)).le
    have hnext := Nat.mul_le_mul_right s.n1 hquot
    have hnext' := Nat.mul_le_mul_right s.d1 hquot
    omega
  have hfar := (h.asClose_iff (a := j) (b := 1) (by push_cast; ring) (by push_cast; ring)).mp
    (hsemi j (by omega) hnum hden)
  have hle' : (s.d * j : ℤ) ≤ s.n := by exact_mod_cast hle
  rw [mul_one, abs_of_nonneg (sub_nonneg.mpr hle')] at hfar
  push_cast at hfar
  have habs := mul_le_mul_of_nonneg_right (le_abs_self (s.n * b - s.d * j : ℤ))
    (Nat.cast_nonneg s.d1)
  have hscaled := mul_le_mul_of_nonneg_left hfar hb.le
  have hextra : (0 : ℤ) ≤ s.d * j * s.d1 * (b - 1) :=
    mul_nonneg (by positivity) (by omega)
  linarith

theorem Loop.run_add {r : ℕ × ℕ} (h : s.run maxN maxD fuel = some r) (k : ℕ) :
    s.run maxN maxD (fuel + k) = some r := by
  induction fuel generalizing s with
  | zero => cases h
  | succ fuel ih =>
    rw [Nat.add_right_comm, Loop.run]
    rw [Loop.run] at h
    split_ifs at h ⊢
    · exact h
    · exact h
    · exact ih h

/-- The variables at two successive convergents. -/
def Loop.at (b c : ℕ × ℕ) (r₀ r₁ : ℕ) : Loop := ⟨r₀, r₁, b.1, b.2, c.1, c.2⟩

theorem Loop.run_at (b c : ℕ × ℕ) (r₀ r₁ : ℕ) : (Loop.at b c r₀ r₁).run maxN maxD (fuel + 1) =
    if c.1 > maxN ∨ c.2 > maxD then some b
    else if r₁ = 0 then some c
    else (Loop.at c (b.1 + r₀ / r₁ * c.1, b.2 + r₀ / r₁ * c.2) r₁ (r₀ % r₁)).run maxN maxD fuel :=
  rfl

theorem Convergents.inv {b c : ℕ × ℕ} {r₀ r₁ : ℕ} (h : Convergents n d b c r₀ r₁) (hd : 0 < d) :
    Loop.at b c r₀ r₁ = Loop.init n d ∨ Inv n d (.at b c r₀ r₁) := by
  induction h with
  | first => exact .inl rfl
  | @next b c r₀ r₁ _ hr ih =>
    right
    rcases ih with heq | hinv
    · obtain ⟨rfl, rfl, hb, hb', hc, hc'⟩ := (Loop.mk.injEq ..).mp heq
      refine ⟨?_, ?_, ?_, ?_, ?_, Nat.mod_lt _ hd⟩ <;>
        simp [Loop.at, hb, hb', hc, hc', Nat.div_add_mod']
    · exact hinv.next hr

/-- The loop comes to every convergent within the limits. -/
theorem Convergents.run_eq {b c : ℕ × ℕ} {r₀ r₁ : ℕ} (h : Convergents n d b c r₀ r₁) (hd : 0 < d)
    (hlimit : 1 ≤ maxN) (hnum : c.1 ≤ maxN) (hden : c.2 ≤ maxD) : ∃ k, ∀ fuel,
      (Loop.init n d).run maxN maxD (fuel + k) = (Loop.at b c r₀ r₁).run maxN maxD fuel := by
  induction h with
  | first => exact ⟨0, fun fuel => rfl⟩
  | @next b c r₀ r₁ hconv hr ih =>
    -- the convergent before is within the limits as well
    have hbefore : c.1 ≤ maxN ∧ c.2 ≤ maxD := by
      rcases hconv.inv hd with heq | hinv
      · obtain ⟨-, -, -, -, hc, hc'⟩ := (Loop.mk.injEq ..).mp heq
        omega
      · have hle := hinv.mediant_le hr
        exact ⟨((Nat.le_add_left _ _).trans hle.1).trans hnum,
          ((Nat.le_add_left _ _).trans hle.2).trans hden⟩
    obtain ⟨k, hk⟩ := ih hbefore.1 hbefore.2
    refine ⟨k + 1, fun fuel => ?_⟩
    rw [← Nat.add_assoc, Nat.add_right_comm, hk, Loop.run_at, if_neg (by omega), if_neg hr]

/-- So it ends with the last one of them. -/
theorem LastWithin.result {b c : ℕ × ℕ} (h : LastWithin n d maxN maxD b c) (hd : 0 < d)
    (hlimit : 1 ≤ maxN) {r : ℕ × ℕ}
    (hrun : rationalBestApproximation n d maxN maxD = some r) : r = c := by
  obtain ⟨r₀, r₁, hconv, hnum, hden, hlast⟩ := h
  obtain ⟨k, hk⟩ := hconv.run_eq hd hlimit hnum hden
  have hend : (Loop.at b c r₀ r₁).run maxN maxD 2 = some c := by
    rw [Loop.run_at, if_neg (by omega)]
    split_ifs with hzero
    · rfl
    · rw [Loop.run_at, if_pos (hlast.resolve_left hzero)]
  have hleft := Loop.run_add hrun (2 + k)
  have hright := Loop.run_add ((hk 2).trans hend) (d + 2)
  rw [Nat.add_comm] at hleft
  exact Option.some.inj (hleft.symm.trans hright)

/-- The loop ends, with the last convergent within the limits. -/
theorem exists_lastWithin {b c : ℕ × ℕ} {r₀ r₁ : ℕ} (h : Convergents n d b c r₀ r₁)
    (hnum : c.1 ≤ maxN) (hden : c.2 ≤ maxD) (hfuel : r₁ < fuel) :
    ∃ b' c', (Loop.at b c r₀ r₁).run maxN maxD (fuel + 1) = some c' ∧
      LastWithin n d maxN maxD b' c' := by
  induction fuel generalizing b c r₀ r₁ with
  | zero => omega
  | succ fuel ih =>
    rw [Loop.run_at, if_neg (by omega)]
    split_ifs with hr
    · exact ⟨b, c, rfl, r₀, r₁, h, hnum, hden, .inl hr⟩
    by_cases hover : maxN < b.1 + r₀ / r₁ * c.1 ∨ maxD < b.2 + r₀ / r₁ * c.2
    · refine ⟨b, c, ?_, r₀, r₁, h, hnum, hden, .inr hover⟩
      rw [Loop.run_at, if_pos hover]
    · have hlt : r₀ % r₁ < r₁ := Nat.mod_lt _ (Nat.pos_of_ne_zero hr)
      exact ih (h.next hr) (by simp only; omega) (by simp only; omega) (by omega)

/-- The loop ends with a fraction within the limits. It has a denominator, and no fraction within
the limits is closer, exactly if the whole part of `n / d` is within them and the fractions between
the last convergent within them and the one before it are farther. -/
theorem approximation_best (n d maxN maxD : ℕ) (hd : 0 < d) (hnum : 1 ≤ maxN) (hden : 1 ≤ maxD) :
    ∃ p q, rationalBestApproximation n d maxN maxD = some (p, q) ∧ p ≤ maxN ∧ q ≤ maxD ∧
      (1 ≤ q ∧ Closest n d maxN maxD p q ↔
        n / d ≤ maxN ∧ SemiconvergentsFarther n d maxN maxD) := by
  obtain ⟨b, c, hrun, hlast⟩ := exists_lastWithin (.first : Convergents n d _ _ n d) hnum
    (Nat.zero_le maxD) (Nat.lt_succ_self d)
  obtain ⟨r₀, r₁, hconv, hcnum, hcden, hend⟩ := hlast
  refine ⟨c.1, c.2, hrun, hcnum, hcden, ?_⟩
  refine ⟨fun ⟨hpos, hclosest⟩ => ⟨?_, fun b' c' hlast' j hj hjnum hjden => ?_⟩,
    fun ⟨hle, hfar⟩ => ?_⟩
  · -- otherwise the loop ends with the first convergent, `1 / 0`
    by_contra hlt
    have hfirst : LastWithin n d maxN maxD (0, 1) (1, 0) :=
      ⟨n, d, .first, hnum, Nat.zero_le _, .inr (.inl (by simpa using hlt))⟩
    rw [hfirst.result hd hnum hrun] at hpos
    exact absurd hpos (by decide)
  · obtain rfl : c = c' := hlast'.result hd hnum hrun
    exact hclosest _ _ hjnum (by nlinarith) hjden
  · rcases hconv.inv hd with heq | hinv
    · obtain ⟨rfl, rfl, hb, hb', hc, hc'⟩ := (Loop.mk.injEq ..).mp heq
      rw [hb, hb', hc, hc'] at hend
      omega
    · exact ⟨hinv.pos, hinv.closest hend fun j hj hjnum hjden =>
        hfar b c ⟨r₀, r₁, hconv, hcnum, hcden, hend⟩ j hj hjnum hjden⟩

/-- For 1 / 10 within one and three the result is 0 / 1. The fractions 1 / 2 and 1 / 3, which lie
between the convergents 1 / 0 and 0 / 1, are farther, and so are all others. -/
theorem approximation_best_tenth :
    rationalBestApproximation 1 10 1 3 = some (0, 1) ∧ Closest 1 10 1 3 0 1 := by
  have hfar : SemiconvergentsFarther 1 10 1 3 := by
    intro b c h j hj hnum hden
    obtain rfl : (0, 1) = c := h.result (by decide) le_rfl rfl
    obtain ⟨r₀, r₁, hconv, -⟩ := h
    rcases hconv.inv (by decide) with heq | hinv
    · cases ((Loop.mk.injEq ..).mp heq).2.2.2.2.1
    · have hle : b.2 ≤ 1 := hinv.le
      have hone : b.1 = 1 := by simpa [Loop.at] using hinv.det
      simp only [mul_one] at hden
      simp only [AsClose, hone, mul_zero, add_zero, mul_one]
      have hneg : ((1 : ℕ) * (b.2 + j : ℕ) - (1 : ℕ) * (10 : ℕ) : ℤ) ≤ 0 := by
        push_cast
        omega
      rw [abs_of_nonpos hneg]
      push_cast
      norm_num
      omega
  obtain ⟨p, q, hrun, -, -, hiff⟩ := approximation_best 1 10 1 3 (by decide) le_rfl (by decide)
  obtain ⟨rfl, rfl⟩ : 0 = p ∧ 1 = q := Prod.mk.inj (Option.some.inj hrun)
  exact ⟨hrun, (hiff.mpr ⟨by decide, hfar⟩).2⟩

/-- The result for 2 / 3 within two and two is 1 / 1, though 1 / 2 is closer; that for 5 / 1 within
three and three is 1 / 0. -/
theorem approximation_not_best : rationalBestApproximation 2 3 2 2 = some (1, 1) ∧
    ¬ Closest 2 3 2 2 1 1 ∧ rationalBestApproximation 5 1 3 3 = some (1, 0) := by
  refine ⟨rfl, fun h => ?_, rfl⟩
  have hhalf := h 1 2 (by decide) (by decide) (by decide)
  norm_num [AsClose] at hhalf

end AndroidKernel.Rational
