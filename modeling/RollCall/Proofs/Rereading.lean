import RollCall.Json.Numeral
import RollCall.Proofs.RoundingError
import RollCall.Proofs.ShortestDecimal

/-!
# Decimals read in steps

A decimal in a document is read in up to four roundings: of its significand, of a power of ten, of
their product or quotient, and of a second quotient for the smallest. If the decimal lies between
the middles of a double, the result is at most two places away from that double. It is that double
if the significand and the power of ten are exact.

The powers of ten are a table, so their errors are found by evaluation: the largest is less than
`0.906` times that of a rounding. Of the significand and the first of two quotients one is off by
less than that, too, since a significand that is rounded most has a quotient that is rounded little.
-/

namespace RollCall.Binary64

open Json

variable {m n num den : ℕ}

/-! ## Doubles of whole numbers -/

theorem nearestMagnitude_of_lt (hlt : nearest num den < infinityMagnitude) :
    nearestMagnitude num den = nearest num den := by
  rw [nearestMagnitude_eq]
  exact Nat.min_eq_left (Nat.le_of_lt hlt)

theorem infinityMagnitude_lt : infinityMagnitude < 2 ^ 63 := by decide

theorem units_ofMagnitude (negative : Bool) (hm : m < infinityMagnitude) :
    (ofMagnitude negative m).units = unitsOf m := by
  rw [units_eq, magnitude_ofMagnitude negative (Nat.lt_trans hm infinityMagnitude_lt)]

theorem units_ofNat_of_lt (hlt : nearest (n * unitsPerOne) 1 < infinityMagnitude) :
    (ofNat n).units = unitsOf (nearest (n * unitsPerOne) 1) := by
  rw [ofNat, ofRatio, nearestMagnitude_of_lt hlt, units_ofMagnitude false hlt]

theorem nearest_mul_unitsPerOne_mono {n' : ℕ} (hle : n ≤ n') :
    nearest (n * unitsPerOne) 1 ≤ nearest (n' * unitsPerOne) 1 := by
  apply nearest_mono Nat.one_pos Nat.one_pos
  rw [Nat.mul_one, Nat.mul_one]
  exact Nat.mul_le_mul_right _ hle

theorem units_ofNat (hn : n ≤ 2 ^ 64) :
    (ofNat n).units = unitsOf (nearest (n * unitsPerOne) 1) := by
  have hlimit : nearest (2 ^ 64 * unitsPerOne) 1 < infinityMagnitude := by decide +kernel
  exact units_ofNat_of_lt (Nat.lt_of_le_of_lt (nearest_mul_unitsPerOne_mono hn) hlimit)

theorem units_ofNat_mono {n' : ℕ} (hle : n ≤ n') (hn : n' ≤ 2 ^ 64) :
    (ofNat n).units ≤ (ofNat n').units := by
  rw [units_ofNat hn, units_ofNat (Nat.le_trans hle hn)]
  exact unitsOf_strictMono.monotone (nearest_mul_unitsPerOne_mono hle)

theorem cast_mul_unitsPerOne (n : ℕ) :
    ((n * unitsPerOne : ℕ) / (1 : ℕ) : ℚ) = n * unitsPerOne := by
  rw [Nat.cast_mul, Nat.cast_one, div_one]

theorem near_units_ofNat (hpos : 0 < n) (hn : n ≤ 2 ^ 64) :
    Near (1 - roundoff) (ofNat n).units (n * unitsPerOne) := by
  have hone : hiddenBit ≤ unitsPerOne := by decide +kernel
  have hle : hiddenBit * 1 ≤ n * unitsPerOne := by
    rw [Nat.mul_one]
    exact Nat.le_trans hone (Nat.le_mul_of_pos_left _ hpos)
  have hnear := near_nearest_of_le Nat.one_pos hle
  rwa [← units_ofNat hn, cast_mul_unitsPerOne] at hnear

/-- How often the least positive magnitude is doubled to make one. -/
def unitExponent : ℕ := 1074

theorem unitsPerOne_eq : unitsPerOne = 2 ^ unitExponent := by decide +kernel

theorem shiftOf_le (hn : n < 2 ^ 53) : shiftOf (n * unitsPerOne) 1 ≤ unitExponent := by
  obtain ⟨-, hzero | hlow⟩ := shifts_shiftOf (n * unitsPerOne) Nat.one_pos
  · rw [hzero]
    exact Nat.zero_le _
  · have hlt : 52 + shiftOf (n * unitsPerOne) 1 < 53 + unitExponent := by
      apply (Nat.pow_lt_pow_iff_right (a := 2) (by decide)).mp
      calc 2 ^ (52 + shiftOf (n * unitsPerOne) 1)
          = hiddenBit * (1 * 2 ^ shiftOf (n * unitsPerOne) 1) := by
            rw [Nat.pow_add, Nat.one_mul, hiddenBit, Nat.pow_eq]
        _ ≤ n * unitsPerOne := hlow
        _ < 2 ^ 53 * unitsPerOne := Nat.mul_lt_mul_of_pos_right hn unitsPerOne_pos
        _ = 2 ^ (53 + unitExponent) := by rw [unitsPerOne_eq, ← Nat.pow_add]
    omega

theorem units_ofNat_of_le (hn : n ≤ 2 ^ 53) : (ofNat n).units = n * unitsPerOne := by
  rw [units_ofNat (Nat.le_trans hn (by decide))]
  rcases Nat.lt_or_eq_of_le hn with hlt | rfl
  · obtain ⟨t, ht⟩ := Nat.exists_eq_add_of_le' (shiftOf_le hlt)
    have hsplit : n * unitsPerOne = n * 2 ^ t * (1 * 2 ^ shiftOf (n * unitsPerOne) 1) := by
      rw [Nat.one_mul, Nat.mul_assoc, ← Nat.pow_add, ← ht, ← unitsPerOne_eq]
    have hpos : 0 < 1 * 2 ^ shiftOf (n * unitsPerOne) 1 := by positivity
    have hrounded := roundHalfEven_mul_left (n := n * 2 ^ t) hpos
    rw [← hsplit] at hrounded
    rw [unitsOf_nearest _ Nat.one_pos, hrounded]
    rw [Nat.one_mul] at hsplit
    exact hsplit.symm
  · decide +kernel

/-! ## Powers of ten -/

theorem units_powerOfTen (hn : n ≤ 308) :
    (powerOfTen n).units = unitsOf (nearest (10 ^ n * unitsPerOne) 1) := by
  obtain ⟨e, he⟩ : ∃ e, e = 308 := ⟨308, rfl⟩
  have hlimit : nearest (10 ^ e * unitsPerOne) 1 < infinityMagnitude := by
    subst he
    decide +kernel
  have hle : 10 ^ n ≤ 10 ^ e := Nat.pow_le_pow_right (by decide) (by omega)
  exact units_ofNat_of_lt (Nat.lt_of_le_of_lt (nearest_mul_unitsPerOne_mono hle) hlimit)

/-- Whether two numbers are as close as so many thousandths of half a last place. -/
def Within (e a b : ℕ) : Prop :=
  9007199254740992000 * a ≤ 9007199254740992000 * b + e * a ∧
    9007199254740992000 * b ≤ 9007199254740992000 * a + e * b

instance (e a b : ℕ) : Decidable (Within e a b) := inferInstanceAs (Decidable (_ ∧ _))

theorem Within.near {e a b : ℕ} (h : Within e a b) : Near (1 - e / 1000 * roundoff) a b := by
  obtain ⟨hhigh, hlow⟩ := h
  have hhigh' : (9007199254740992000 * a : ℚ) ≤ 9007199254740992000 * b + e * a := by
    exact_mod_cast hhigh
  have hlow' : (9007199254740992000 * b : ℚ) ≤ 9007199254740992000 * a + e * b := by
    exact_mod_cast hlow
  rw [roundoff]
  constructor
  · linarith only [hhigh']
  · linarith only [hlow']

/-- How often the significand of a power of ten is doubled. The fraction is just below the binary
logarithm of ten. -/
def doublings (n : ℕ) : ℕ := n * 217706 / 65536 + 1022

theorem shifts_powerOfTen (hn : n ≤ 308) : Shifts (10 ^ n * unitsPerOne) 1 (doublings n) := by
  have hall : ∀ n < 309, 10 ^ n * unitsPerOne < 2 * hiddenBit * (1 * 2 ^ doublings n) ∧
      hiddenBit * (1 * 2 ^ doublings n) ≤ 10 ^ n * unitsPerOne := by decide +kernel
  obtain ⟨hhigh, hlow⟩ := hall n (by omega)
  exact ⟨hhigh, Or.inr hlow⟩

theorem units_powerOfTen_eq (hn : n ≤ 308) :
    (powerOfTen n).units =
      roundHalfEven (10 ^ n * unitsPerOne) (1 * 2 ^ doublings n) * 2 ^ doublings n := by
  rw [units_powerOfTen hn, unitsOf_nearest _ Nat.one_pos,
    (shifts_powerOfTen hn).shiftOf_eq Nat.one_pos]

theorem near_powerOfTen (hn : n ≤ 308) :
    Near (1 - 906 / 1000 * roundoff) (powerOfTen n).units (10 ^ n * unitsPerOne) := by
  have hall : ∀ n < 309,
      Within 906 (roundHalfEven (10 ^ n * unitsPerOne) (1 * 2 ^ doublings n) * 2 ^ doublings n)
        (10 ^ n * unitsPerOne) := by decide +kernel
  have hwithin := hall n (by omega)
  rw [← units_powerOfTen_eq hn] at hwithin
  have hnear := hwithin.near
  push_cast at hnear
  exact hnear

theorem units_powerOfTen_of_le (hn : n ≤ 22) : (powerOfTen n).units = 10 ^ n * unitsPerOne := by
  have hall : ∀ n < 23,
      roundHalfEven (10 ^ n * unitsPerOne) (1 * 2 ^ doublings n) * 2 ^ doublings n =
        10 ^ n * unitsPerOne := by decide +kernel
  rw [units_powerOfTen_eq (by omega)]
  exact hall n (by omega)

/-- The significand of the greatest power of ten. -/
def greatestSignificand : ℕ := 5010420900022432

theorem units_powerOfTen_greatest :
    (powerOfTen 308).units = greatestSignificand * 2 ^ 2045 := by
  decide +kernel

theorem near_powerOfTen_greatest (hn : n = 308) :
    Near (1 - 99 / 1000 * roundoff) (powerOfTen 308).units (10 ^ n * unitsPerOne) := by
  have hwithin : Within 99 (powerOfTen 308).units (10 ^ 308 * unitsPerOne) := by decide +kernel
  subst hn
  have hnear := hwithin.near
  rwa [Nat.cast_mul, Nat.cast_pow, Nat.cast_ofNat, Nat.cast_ofNat] at hnear

theorem cast_unitsPerOne_pos : (0 : ℚ) < unitsPerOne := by exact_mod_cast unitsPerOne_pos

theorem units_powerOfTen_pos (hn : n ≤ 308) : 0 < (powerOfTen n).units := by
  have hpos := (near_powerOfTen hn).pos (by norm_num [roundoff])
    (mul_pos (by positivity) cast_unitsPerOne_pos)
  exact_mod_cast hpos

/-! ## Scaling -/

/-- A significand scaled by a power of ten is a rounded quotient, if that is finite. -/
structure Scales (digits : ℕ) (exponent : ℤ) (num den : ℕ) : Prop where
  den_pos : 0 < den
  scaled : nearest num den < infinityMagnitude →
    scaled? digits exponent = some (ofMagnitude false (nearest num den))

variable {digits : ℕ} {exponent : ℤ}

theorem scales_mul (hdigits : 0 < digits) (hnonneg : 0 ≤ exponent) (hle : exponent ≤ 308) :
    Scales digits exponent ((ofNat digits).units * (powerOfTen exponent.toNat).units)
      unitsPerOne where
  den_pos := unitsPerOne_pos
  scaled hlt := by
    have hmagnitude := magnitude_ofMagnitude false (Nat.lt_trans hlt infinityMagnitude_lt)
    have hfinite : (ofMagnitude false (nearest ((ofNat digits).units *
        (powerOfTen exponent.toNat).units) unitsPerOne)).isInfinite = false := by
      rw [isInfinite, hmagnitude, decide_eq_false (Nat.ne_of_lt hlt)]
    rw [scaled?, if_neg (Nat.ne_of_gt hdigits), if_neg (by omega), if_pos hnonneg]
    simp only [Binary64.mul, nearestMagnitude_of_lt hlt, hfinite, Bool.false_eq_true, if_false]

theorem scales_div (hdigits : 0 < digits) (hneg : exponent < 0) (hge : -308 ≤ exponent) :
    Scales digits exponent ((ofNat digits).units * unitsPerOne)
      (powerOfTen (-exponent).toNat).units where
  den_pos := units_powerOfTen_pos (by omega)
  scaled hlt := by
    rw [scaled?, if_neg (Nat.ne_of_gt hdigits), if_neg (by omega), if_neg (by omega), if_pos hge,
      Binary64.div, ofRatio, nearestMagnitude_of_lt hlt]

theorem scales_div_div (hdigits : 0 < digits) (hlt : exponent < -308) (hge : -616 ≤ exponent) :
    Scales digits exponent (((ofNat digits).div (powerOfTen 308)).units * unitsPerOne)
      (powerOfTen (-exponent - 308).toNat).units where
  den_pos := units_powerOfTen_pos (by omega)
  scaled hlt := by
    rw [scaled?, if_neg (Nat.ne_of_gt hdigits), if_neg (by omega), if_neg (by omega),
      if_neg (by omega), if_neg (by omega), Binary64.div, ofRatio, nearestMagnitude_of_lt hlt]

/-! ## Errors of scaling -/

theorem tolerance_le : tolerance ≤ (1 - roundoff) * (1 - 906 / 1000 * roundoff) := by
  norm_num [tolerance, roundoff]

/-- A product is off by the errors of the significand and the power of ten. -/
theorem near_mul (hdigits : 0 < digits) (hfit : digits ≤ 2 ^ 64) (hnonneg : 0 ≤ exponent)
    (hle : exponent ≤ 308) :
    Near tolerance
      (((ofNat digits).units * (powerOfTen exponent.toNat).units : ℕ) / unitsPerOne)
      ((digits * Decimal.upper exponent * unitsPerOne : ℕ) / Decimal.lower exponent) := by
  have hlower : Decimal.lower exponent = 1 := by
    have hzero : (-exponent).toNat = 0 := by omega
    rw [Decimal.lower, hzero, Nat.pow_zero]
  have hnear := (near_units_ofNat hdigits hfit).mul_units
    (near_powerOfTen (n := exponent.toNat) (by omega)) (by norm_num [roundoff])
    (Nat.cast_nonneg _) (Nat.cast_nonneg _) (Nat.cast_nonneg _) (by positivity)
    cast_unitsPerOne_pos
  rw [hlower, Decimal.upper, Nat.cast_one, div_one, Nat.cast_mul, Nat.cast_mul, Nat.cast_mul,
    Nat.cast_pow, Nat.cast_ofNat]
  refine hnear.mono tolerance_le ?_ ?_
  · exact div_nonneg (mul_nonneg (Nat.cast_nonneg _) (Nat.cast_nonneg _)) cast_unitsPerOne_pos.le
  · exact mul_nonneg (by positivity) cast_unitsPerOne_pos.le

theorem near_div (hdigits : 0 < digits) (hfit : digits ≤ 2 ^ 64) (hneg : exponent < 0)
    (hge : -308 ≤ exponent) :
    Near tolerance
      (((ofNat digits).units * unitsPerOne : ℕ) / (powerOfTen (-exponent).toNat).units)
      ((digits * Decimal.upper exponent * unitsPerOne : ℕ) / Decimal.lower exponent) := by
  have hpower : (0 : ℚ) < (powerOfTen (-exponent).toNat).units := by
    exact_mod_cast units_powerOfTen_pos (n := (-exponent).toNat) (by omega)
  have hnear := (near_units_ofNat hdigits hfit).div_units
    (near_powerOfTen (n := (-exponent).toNat) (by omega)) (by norm_num [roundoff])
    (Nat.cast_nonneg _) (Nat.cast_nonneg _) hpower (by positivity) cast_unitsPerOne_pos
  have hvalue : ((digits * Decimal.upper exponent * unitsPerOne : ℕ) / Decimal.lower exponent : ℚ) =
      digits / 10 ^ (-exponent).toNat * unitsPerOne := by
    rw [Decimal.upper_of_nonpos hneg.le, Decimal.lower, Nat.mul_one, Nat.cast_mul, Nat.cast_pow,
      Nat.cast_ofNat, div_mul_eq_mul_div]
  rw [hvalue, Nat.cast_mul]
  refine hnear.mono tolerance_le ?_ ?_
  · exact div_nonneg (mul_nonneg (Nat.cast_nonneg _) cast_unitsPerOne_pos.le) hpower.le
  · exact mul_nonneg (by positivity) cast_unitsPerOne_pos.le

/-- A significand that is smaller than the one by which it is divided has a quotient with a greater
significand, whose last place is a smaller part of it. -/
theorem shiftOf_add_le {r t s k : ℕ} (hlt : r < t) (hk : 53 + k ≤ s) :
    shiftOf (r * 2 ^ s) (t * 2 ^ k) + 53 + k ≤ s := by
  have hden : 0 < t * 2 ^ k := Nat.mul_pos (by omega) (Nat.two_pow_pos k)
  obtain ⟨-, hzero | hlow⟩ := shifts_shiftOf (r * 2 ^ s) hden
  · omega
  · have hpow : t * 2 ^ (52 + k + shiftOf (r * 2 ^ s) (t * 2 ^ k)) < t * 2 ^ s :=
      calc t * 2 ^ (52 + k + shiftOf (r * 2 ^ s) (t * 2 ^ k))
          = hiddenBit * (t * 2 ^ k * 2 ^ shiftOf (r * 2 ^ s) (t * 2 ^ k)) := by
            rw [Nat.pow_add, Nat.pow_add, hiddenBit, Nat.pow_eq]
            ac_rfl
        _ ≤ r * 2 ^ s := hlow
        _ < t * 2 ^ s := Nat.mul_lt_mul_of_pos_right hlt (Nat.two_pow_pos s)
    have hexponent := (Nat.pow_lt_pow_iff_right (by decide)).mp (Nat.lt_of_mul_lt_mul_left hpow)
    omega

theorem near_nearest_of_lt {r s k : ℕ} (hge : 2 ^ 52 ≤ r) (hlt : r < greatestSignificand)
    (hk : 53 + k ≤ s) :
    Near (1 - 557 / 1000 * roundoff)
      (unitsOf (nearest (r * 2 ^ s) (greatestSignificand * 2 ^ k)))
      ((r * 2 ^ s : ℕ) / (greatestSignificand * 2 ^ k : ℕ)) := by
  have hden : 0 < greatestSignificand * 2 ^ k := Nat.mul_pos (by decide) (Nat.two_pow_pos k)
  have hshift := shiftOf_add_le hlt hk
  apply near_nearest hden (by norm_num [roundoff])
  rw [← mul_div_assoc, le_div_iff₀ (by exact_mod_cast hden)]
  have hpow : 2 ^ shiftOf (r * 2 ^ s) (greatestSignificand * 2 ^ k) * 2 ^ 53 * 2 ^ k ≤ 2 ^ s := by
    rw [← Nat.pow_add, ← Nat.pow_add]
    exact Nat.pow_le_pow_right (by decide) hshift
  generalize shiftOf (r * 2 ^ s) (greatestSignificand * 2 ^ k) = t at hpow
  have hpow' : (2 ^ t * 9007199254740992 * 2 ^ k : ℚ) ≤ 2 ^ s := by exact_mod_cast hpow
  have hge' : (4503599627370496 : ℚ) ≤ r := by exact_mod_cast hge
  have hmul : (4503599627370496 * 2 ^ s : ℚ) ≤ r * 2 ^ s :=
    mul_le_mul_of_nonneg_right hge' (by positivity)
  have hpos : (0 : ℚ) < 2 ^ s := by positivity
  rw [greatestSignificand, roundoff]
  push_cast
  linarith

/-- A large whole number is doubled more often than one is. -/
theorem lt_shiftOf (hlt : 2 ^ 53 < digits) : unitExponent < shiftOf (digits * unitsPerOne) 1 := by
  obtain ⟨hhigh, -⟩ := shifts_shiftOf (digits * unitsPerOne) Nat.one_pos
  have htwo : 2 * hiddenBit = 2 ^ 53 := by decide
  rw [htwo, Nat.one_mul] at hhigh
  have hone : unitsPerOne < 2 ^ shiftOf (digits * unitsPerOne) 1 := by
    refine lt_of_mul_lt_mul_left ?_ (Nat.zero_le (2 ^ 53))
    exact Nat.lt_trans (Nat.mul_lt_mul_of_pos_right hlt unitsPerOne_pos) hhigh
  generalize shiftOf (digits * unitsPerOne) 1 = s at hone
  rw [unitsPerOne_eq] at hone
  generalize unitExponent = t at hone ⊢
  exact (Nat.pow_lt_pow_iff_right (by decide)).mp hone

/-- A whole number that is rounded to a large significand is off by less than half a last place of
the smallest one. -/
theorem near_units_ofNat_of_le (hfit : digits ≤ 2 ^ 64)
    (hle : greatestSignificand * 2 ^ shiftOf (digits * unitsPerOne) 1 ≤ (ofNat digits).units) :
    Near (1 - 899 / 1000 * roundoff) (ofNat digits).units (digits * unitsPerOne) := by
  have hrounded := (two_mul_unitsOf_nearest (digits * unitsPerOne) Nat.one_pos).1
  rw [← units_ofNat hfit, cast_mul_unitsPerOne] at hrounded
  have hstep : (2 : ℚ) ^ shiftOf (digits * unitsPerOne) 1 ≤
      2 * (899 / 1000 * roundoff) * ((digits * unitsPerOne : ℕ) / (1 : ℕ)) := by
    have hle' : (5010420900022432 * 2 ^ shiftOf (digits * unitsPerOne) 1 : ℚ) ≤
        (ofNat digits).units := by
      rw [greatestSignificand] at hle
      exact_mod_cast hle
    have hpos : (0 : ℚ) < 2 ^ shiftOf (digits * unitsPerOne) 1 := by positivity
    rw [cast_mul_unitsPerOne, roundoff]
    linarith
  have hnear := near_nearest Nat.one_pos (by norm_num [roundoff]) hstep
  rwa [← units_ofNat hfit, cast_mul_unitsPerOne] at hnear

/-- A whole number that is rounded to a small significand has a quotient by the greatest power of
ten that is rounded little. -/
theorem near_quotient_of_lt {r : ℕ} (hlt : 2 ^ 53 < digits)
    (hunits : (ofNat digits).units = r * 2 ^ shiftOf (digits * unitsPerOne) 1)
    (hge : 2 ^ 52 ≤ r) (hsmall : r < greatestSignificand) :
    Near (1 - 557 / 1000 * roundoff)
      (unitsOf (nearest ((ofNat digits).units * unitsPerOne) (powerOfTen 308).units))
      (((ofNat digits).units * unitsPerOne : ℕ) / (powerOfTen 308).units) := by
  have hshift := lt_shiftOf hlt
  have hexponent : unitExponent = 1074 := rfl
  have hnear := near_nearest_of_lt (s := shiftOf (digits * unitsPerOne) 1 + unitExponent)
    (k := 2045) hge hsmall (by omega)
  rwa [Nat.pow_add, ← Nat.mul_assoc, ← hunits, ← unitsPerOne_eq, ← units_powerOfTen_greatest]
    at hnear

/-- Of the significand and its first quotient not both are off by a whole half of a last place. -/
theorem near_first_quotient (hfit : digits ≤ 2 ^ 64) (hthree : 3 ≤ digits) :
    ∃ θ φ : ℚ, 0 ≤ θ ∧ 0 ≤ φ ∧ tolerance ≤ φ * (θ * (1 - 99 / 1000 * roundoff)) ∧
      Near θ (ofNat digits).units (digits * unitsPerOne) ∧
      Near φ (unitsOf (nearest ((ofNat digits).units * unitsPerOne) (powerOfTen 308).units))
        (((ofNat digits).units * unitsPerOne : ℕ) / (powerOfTen 308).units) := by
  have hpower : 0 < (powerOfTen 308).units := units_powerOfTen_pos (Nat.le_refl 308)
  have hle : hiddenBit * (powerOfTen 308).units ≤ (ofNat digits).units * unitsPerOne :=
    Nat.le_trans (by decide +kernel) (Nat.mul_le_mul_right _ (units_ofNat_mono hthree hfit))
  have hwhole := near_nearest_of_le hpower hle
  by_cases hexact : digits ≤ 2 ^ 53
  · refine ⟨1, 1 - roundoff, zero_le_one, by norm_num [roundoff],
      by norm_num [tolerance, roundoff], ?_, hwhole⟩
    rw [units_ofNat_of_le hexact, Nat.cast_mul]
    exact Near.refl _
  · have hlt := Nat.lt_of_not_le hexact
    have hshift := lt_shiftOf hlt
    have hsignificand := ((shifts_shiftOf (digits * unitsPerOne) Nat.one_pos).significand
      Nat.one_pos).2.resolve_left (by omega)
    have hunits := (units_ofNat hfit).trans (unitsOf_nearest _ Nat.one_pos)
    generalize roundHalfEven (digits * unitsPerOne) (1 * 2 ^ shiftOf (digits * unitsPerOne) 1) = r
      at hunits hsignificand
    by_cases hlarge : greatestSignificand ≤ r
    · refine ⟨1 - 899 / 1000 * roundoff, 1 - roundoff, by norm_num [roundoff],
        by norm_num [roundoff], by norm_num [tolerance, roundoff], ?_, hwhole⟩
      apply near_units_ofNat_of_le hfit
      rw [hunits]
      exact Nat.mul_le_mul_right _ hlarge
    · refine ⟨1 - roundoff, 1 - 557 / 1000 * roundoff, by norm_num [roundoff],
        by norm_num [roundoff], by norm_num [tolerance, roundoff],
        near_units_ofNat (by omega) hfit, ?_⟩
      exact near_quotient_of_lt hlt hunits hsignificand (Nat.lt_of_not_le hlarge)

theorem units_first_quotient (hfit : digits ≤ 2 ^ 64) :
    ((ofNat digits).div (powerOfTen 308)).units =
      unitsOf (nearest ((ofNat digits).units * unitsPerOne) (powerOfTen 308).units) := by
  have hpower : 0 < (powerOfTen 308).units := units_powerOfTen_pos (Nat.le_refl 308)
  have hlimit : nearest ((ofNat (2 ^ 64)).units * unitsPerOne) (powerOfTen 308).units <
      infinityMagnitude := by decide +kernel
  have hle : nearest ((ofNat digits).units * unitsPerOne) (powerOfTen 308).units ≤
      nearest ((ofNat (2 ^ 64)).units * unitsPerOne) (powerOfTen 308).units := by
    apply nearest_mono hpower hpower
    exact Nat.mul_le_mul_right _
      (Nat.mul_le_mul_right _ (units_ofNat_mono hfit (Nat.le_refl (2 ^ 64))))
  have hlt := Nat.lt_of_le_of_lt hle hlimit
  rw [Binary64.div, ofRatio, nearestMagnitude_of_lt hlt, units_ofMagnitude false hlt]

/-- The quotient of a quotient, whose second divisor is exact. -/
theorem near_div_div (hfit : digits ≤ 2 ^ 64) (hthree : 3 ≤ digits) (hlt : exponent < -308)
    (hge : -324 ≤ exponent) :
    Near tolerance
      ((((ofNat digits).div (powerOfTen 308)).units * unitsPerOne : ℕ) /
        (powerOfTen (-exponent - 308).toNat).units)
      ((digits * Decimal.upper exponent * unitsPerOne : ℕ) / Decimal.lower exponent) := by
  obtain ⟨θ, φ, hθ, hφ, htolerance, hsignificand, hquotient⟩ := near_first_quotient hfit hthree
  obtain ⟨e, he⟩ : ∃ e, e = 308 := ⟨308, rfl⟩
  have hgreatest : (0 : ℚ) ≤ 1 - 99 / 1000 * roundoff := by norm_num [roundoff]
  have hpower : (0 : ℚ) < (powerOfTen 308).units := by
    exact_mod_cast units_powerOfTen_pos (Nat.le_refl 308)
  have hfirst := hsignificand.div_units (near_powerOfTen_greatest he) hgreatest
    (Nat.cast_nonneg _) (Nat.cast_nonneg _) hpower (by positivity) cast_unitsPerOne_pos
  rw [Nat.cast_mul] at hquotient
  have hboth := hquotient.trans hfirst hφ (mul_nonneg hθ hgreatest)
  rw [← units_first_quotient hfit] at hboth
  have hexact := units_powerOfTen_of_le (n := (-exponent - 308).toNat) (by omega)
  have hlower : Decimal.lower exponent = 10 ^ e * 10 ^ (-exponent - 308).toNat := by
    have hsum : (-exponent).toNat = e + (-exponent - 308).toNat := by omega
    rw [Decimal.lower, hsum, Nat.pow_add]
  generalize (-exponent - 308).toNat = k at hexact hlower
  have hsecond : (0 : ℚ) < 10 ^ k * unitsPerOne := mul_pos (by positivity) cast_unitsPerOne_pos
  have hnear := hboth.div_units (Near.refl ((10 : ℚ) ^ k * unitsPerOne)) zero_le_one
    (Nat.cast_nonneg _) (by positivity) hsecond (by positivity) cast_unitsPerOne_pos
  have hvalue : ((digits * Decimal.upper exponent * unitsPerOne : ℕ) / Decimal.lower exponent : ℚ) =
      digits / 10 ^ e / 10 ^ k * unitsPerOne := by
    rw [Decimal.upper_of_nonpos (by omega), hlower, Nat.mul_one, Nat.cast_mul, Nat.cast_mul,
      Nat.cast_pow, Nat.cast_pow, Nat.cast_ofNat, div_mul_eq_mul_div, div_mul_eq_mul_div, div_div]
  rw [hvalue, hexact, Nat.cast_mul, Nat.cast_mul, Nat.cast_pow, Nat.cast_ofNat]
  rw [mul_one] at hnear
  refine hnear.mono htolerance ?_ ?_
  · exact div_nonneg (mul_nonneg (Nat.cast_nonneg _) cast_unitsPerOne_pos.le) hsecond.le
  · exact mul_nonneg (by positivity) cast_unitsPerOne_pos.le

/-! ## Decimals between the middles of a double -/

theorem Scales.near (hscales : Scales digits exponent num den)
    (hnear : Near tolerance (num / den)
      ((digits * Decimal.upper exponent * unitsPerOne : ℕ) / Decimal.lower exponent))
    (hbetween : Between m (digits * Decimal.upper exponent * unitsPerOne) (Decimal.lower exponent))
    (hfinite : m + 2 < infinityMagnitude) :
    ∃ m', scaled? digits exponent = some (ofMagnitude false m') ∧ m' ≤ m + 2 ∧ m ≤ m' + 2 := by
  have hupper := nearest_le_add_two hscales.den_pos (Decimal.lower_pos _) hnear hbetween
  have hlower := le_nearest_add_two hscales.den_pos (Decimal.lower_pos _) hnear hbetween
  exact ⟨_, hscales.scaled (Nat.lt_of_le_of_lt hupper hfinite), hupper, hlower⟩

/-- Decimals of one digit that are so small that the first quotient has no full significand. -/
theorem scaled?_smallest (hdigits : 0 < digits) (hlt : digits < 3) (hexponent : exponent < -308)
    (hge : -324 ≤ exponent)
    (hbetween : Between m (digits * Decimal.upper exponent * unitsPerOne)
      (Decimal.lower exponent)) :
    scaled? digits exponent = some (ofMagnitude false m) := by
  have hall : ∀ n < 3, ∀ k < 17, 0 < n → 0 < k → scaled? n (-308 - (k : ℕ)) =
      some (ofMagnitude false (nearest (n * Decimal.upper (-308 - (k : ℕ)) * unitsPerOne)
        (Decimal.lower (-308 - (k : ℕ))))) := by decide +kernel
  obtain ⟨k, hk⟩ := Int.eq_ofNat_of_zero_le (a := -308 - exponent) (by omega)
  have heq : exponent = -308 - (k : ℕ) := by omega
  rw [← hbetween.nearest_eq (Decimal.lower_pos _), heq]
  exact hall digits hlt k (by omega) hdigits (by omega)

/-- A decimal between the middles of a double is read as a double at most two places away. -/
theorem scaled?_near (hdigits : 0 < digits) (hfit : digits ≤ 2 ^ 64) (hge : -324 ≤ exponent)
    (hle : exponent ≤ 308)
    (hbetween : Between m (digits * Decimal.upper exponent * unitsPerOne) (Decimal.lower exponent))
    (hfinite : m + 2 < infinityMagnitude) :
    ∃ m', scaled? digits exponent = some (ofMagnitude false m') ∧ m' ≤ m + 2 ∧ m ≤ m' + 2 := by
  by_cases hnonneg : 0 ≤ exponent
  · exact (scales_mul hdigits hnonneg hle).near (near_mul hdigits hfit hnonneg hle) hbetween hfinite
  · by_cases hnormal : -308 ≤ exponent
    · exact (scales_div hdigits (by omega) hnormal).near
        (near_div hdigits hfit (by omega) hnormal) hbetween hfinite
    · by_cases hthree : 3 ≤ digits
      · exact (scales_div_div hdigits (by omega) (by omega)).near
          (near_div_div hfit hthree (by omega) hge) hbetween hfinite
      · refine ⟨m, ?_, by omega, by omega⟩
        exact scaled?_smallest hdigits (by omega) (by omega) hge hbetween

/-- It is read as that double if its significand and its power of ten are exact. -/
theorem scaled?_exact (hdigits : 0 < digits) (hexact : digits ≤ 2 ^ 53) (hge : -22 ≤ exponent)
    (hle : exponent ≤ 22)
    (hbetween : Between m (digits * Decimal.upper exponent * unitsPerOne) (Decimal.lower exponent))
    (hfinite : m < infinityMagnitude) :
    scaled? digits exponent = some (ofMagnitude false m) := by
  have hnearest := hbetween.nearest_eq (Decimal.lower_pos _)
  by_cases hnonneg : 0 ≤ exponent
  · have hscales := scales_mul hdigits hnonneg (by omega)
    have hlower : Decimal.lower exponent = 1 := by
      have hzero : (-exponent).toNat = 0 := by omega
      rw [Decimal.lower, hzero, Nat.pow_zero]
    have hcongr : nearest ((ofNat digits).units * (powerOfTen exponent.toNat).units) unitsPerOne =
        m := by
      rw [← hnearest]
      apply nearest_congr unitsPerOne_pos (Decimal.lower_pos _)
      rw [units_ofNat_of_le hexact, units_powerOfTen_of_le (by omega), hlower, Decimal.upper]
      generalize unitsPerOne = one
      ac_rfl
    rw [hscales.scaled (by rw [hcongr]; exact hfinite), hcongr]
  · have hscales := scales_div hdigits (Int.not_le.mp hnonneg) (by omega)
    have hcongr :
        nearest ((ofNat digits).units * unitsPerOne) (powerOfTen (-exponent).toNat).units = m := by
      rw [← hnearest]
      apply nearest_congr hscales.den_pos (Decimal.lower_pos _)
      have hpower := units_powerOfTen_of_le (n := (-exponent).toNat) (by omega)
      rw [units_ofNat_of_le hexact, hpower]
      generalize unitsPerOne = one
      rw [Decimal.lower, Decimal.upper_of_nonpos (by omega), Nat.mul_one]
      ac_rfl
    rw [hscales.scaled (by rw [hcongr]; exact hfinite), hcongr]

end RollCall.Binary64
