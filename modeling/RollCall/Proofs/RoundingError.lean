import Mathlib.Algebra.Order.Field.Rat
import Mathlib.Tactic.FieldSimp
import Mathlib.Tactic.Linarith
import Mathlib.Tactic.NormNum
import Mathlib.Tactic.Positivity
import Mathlib.Tactic.Ring
import RollCall.Proofs.Rounding

/-!
# Errors of several roundings

How far the result of several roundings is from the exact one is measured by a factor: two numbers
are near up to a factor if neither is smaller than that part of the other. The factors of successive
steps multiply. A quotient that is a little less than two errors of one rounding away from a number
between the middles of a double is rounded to a double at most two places from that one.
-/

namespace RollCall

/-! ## Near up to a factor -/

/-- Two numbers of which neither is smaller than a part of the other. -/
structure Near (θ a b : ℚ) : Prop where
  left : θ * a ≤ b
  right : θ * b ≤ a

namespace Near

variable {θ φ a b c d : ℚ}

theorem refl (a : ℚ) : Near 1 a a := ⟨by rw [one_mul], by rw [one_mul]⟩

theorem mono (h : Near θ a b) (hle : φ ≤ θ) (ha : 0 ≤ a) (hb : 0 ≤ b) : Near φ a b :=
  ⟨(mul_le_mul_of_nonneg_right hle ha).trans h.left,
    (mul_le_mul_of_nonneg_right hle hb).trans h.right⟩

theorem trans (h : Near θ a b) (h' : Near φ b c) (hθ : 0 ≤ θ) (hφ : 0 ≤ φ) :
    Near (θ * φ) a c := by
  constructor
  · calc θ * φ * a = φ * (θ * a) := by ring
      _ ≤ φ * b := mul_le_mul_of_nonneg_left h.left hφ
      _ ≤ c := h'.left
  · calc θ * φ * c = θ * (φ * c) := by ring
      _ ≤ θ * b := mul_le_mul_of_nonneg_left h'.right hθ
      _ ≤ a := h.right

theorem mul (h : Near θ a b) (h' : Near φ c d) (hφ : 0 ≤ φ) (ha : 0 ≤ a) (hb : 0 ≤ b)
    (hc : 0 ≤ c) (hd : 0 ≤ d) : Near (θ * φ) (a * c) (b * d) := by
  constructor
  · calc θ * φ * (a * c) = θ * a * (φ * c) := by ring
      _ ≤ b * d := mul_le_mul h.left h'.left (mul_nonneg hφ hc) hb
  · calc θ * φ * (b * d) = θ * b * (φ * d) := by ring
      _ ≤ a * c := mul_le_mul h.right h'.right (mul_nonneg hφ hd) ha

theorem inv (h : Near θ a b) (ha : 0 < a) (hb : 0 < b) : Near θ a⁻¹ b⁻¹ := by
  constructor
  · rw [← div_eq_mul_inv, div_le_iff₀ ha, inv_mul_eq_div, le_div_iff₀ hb]
    exact h.right
  · rw [← div_eq_mul_inv, div_le_iff₀ hb, inv_mul_eq_div, le_div_iff₀ ha]
    exact h.left

theorem div (h : Near θ a b) (h' : Near φ c d) (hφ : 0 ≤ φ) (ha : 0 ≤ a) (hb : 0 ≤ b)
    (hc : 0 < c) (hd : 0 < d) : Near (θ * φ) (a / c) (b / d) := by
  rw [div_eq_mul_inv, div_eq_mul_inv]
  exact h.mul (h'.inv hc hd) hφ ha hb (inv_nonneg.mpr hc.le) (inv_nonneg.mpr hd.le)

theorem pos (h : Near θ a b) (hθ : 0 < θ) (hb : 0 < b) : 0 < a :=
  (mul_pos hθ hb).trans_le h.right

theorem mul_units {u : ℚ} (h : Near θ a (b * u)) (h' : Near φ c (d * u)) (hφ : 0 ≤ φ) (ha : 0 ≤ a)
    (hb : 0 ≤ b) (hc : 0 ≤ c) (hd : 0 ≤ d) (hu : 0 < u) :
    Near (θ * φ) (a * c / u) (b * d * u) := by
  have hproduct := h.mul h' hφ ha (mul_nonneg hb hu.le) hc (mul_nonneg hd hu.le)
  have hquotient := hproduct.div (refl u) zero_le_one (mul_nonneg ha hc) (by positivity) hu hu
  have hvalue : b * u * (d * u) / u = b * d * u := by field_simp
  rwa [mul_one, hvalue] at hquotient

theorem div_units {u : ℚ} (h : Near θ a (b * u)) (h' : Near φ c (d * u)) (hφ : 0 ≤ φ) (ha : 0 ≤ a)
    (hb : 0 ≤ b) (hc : 0 < c) (hd : 0 < d) (hu : 0 < u) :
    Near (θ * φ) (a * u / c) (b / d * u) := by
  have hproduct := h.mul (refl u) zero_le_one ha (mul_nonneg hb hu.le) hu.le hu.le
  have hquotient := hproduct.div h' hφ (mul_nonneg ha hu.le) (by positivity) hc (mul_pos hd hu)
  have hvalue : b * u * u / (d * u) = b / d * u := by field_simp
  rwa [mul_one, hvalue] at hquotient

end Near

namespace Binary64

/-! ## The error of one rounding -/

/-- Half a last place of the smallest significand that has its leading bit. -/
def roundoff : ℚ := 1 / 9007199254740992

variable {m num den : ℕ}

/-- A rounded quotient is off by half a last place. -/
theorem two_mul_unitsOf_nearest (num : ℕ) (hden : 0 < den) :
    (2 * unitsOf (nearest num den) : ℚ) ≤ 2 * (num / den) + 2 ^ shiftOf num den ∧
      (2 * (num / den) : ℚ) ≤ 2 * unitsOf (nearest num den) + 2 ^ shiftOf num den := by
  have hpos : 0 < den * 2 ^ shiftOf num den := Nat.mul_pos hden (Nat.two_pow_pos _)
  have hhigh : 2 * (roundHalfEven num (den * 2 ^ shiftOf num den) * (den * 2 ^ shiftOf num den)) ≤
      2 * num + den * 2 ^ shiftOf num den := two_mul_roundHalfEven_le hpos
  have hlow : 2 * num ≤ 2 * (roundHalfEven num (den * 2 ^ shiftOf num den) *
      (den * 2 ^ shiftOf num den)) + den * 2 ^ shiftOf num den := two_mul_le_roundHalfEven hpos
  have hden' : (0 : ℚ) < den := by exact_mod_cast hden
  rw [unitsOf_nearest num hden]
  generalize roundHalfEven num (den * 2 ^ shiftOf num den) = r at hhigh hlow
  have hhigh' : (2 * (r * (den * 2 ^ shiftOf num den)) : ℚ) ≤
      2 * num + den * 2 ^ shiftOf num den := by exact_mod_cast hhigh
  have hlow' : (2 * num : ℚ) ≤
      2 * (r * (den * 2 ^ shiftOf num den)) + den * 2 ^ shiftOf num den := by exact_mod_cast hlow
  have hnum : (num : ℚ) = num / den * den := (div_mul_cancel₀ _ hden'.ne').symm
  rw [hnum] at hhigh' hlow'
  push_cast
  generalize (num / den : ℚ) = v at *
  constructor
  · apply le_of_mul_le_mul_right _ hden'
    linarith
  · apply le_of_mul_le_mul_right _ hden'
    linarith

/-- The error of a rounding is a part of the quotient if half a last place is. -/
theorem near_nearest {κ : ℚ} (hden : 0 < den) (hκ : κ ≤ 1)
    (hstep : (2 : ℚ) ^ shiftOf num den ≤ 2 * κ * (num / den)) :
    Near (1 - κ) (unitsOf (nearest num den)) (num / den) := by
  obtain ⟨hhigh, hlow⟩ := two_mul_unitsOf_nearest num hden
  have hnonneg : (0 : ℚ) ≤ num / den := by positivity
  generalize (num / den : ℚ) = v at *
  generalize (unitsOf (nearest num den) : ℚ) = w at *
  have hw : w ≤ (1 + κ) * v := by linarith
  constructor
  · calc (1 - κ) * w ≤ (1 - κ) * ((1 + κ) * v) := mul_le_mul_of_nonneg_left hw (by linarith)
      _ = v - κ * κ * v := by ring
      _ ≤ v := sub_le_self v (mul_nonneg (mul_self_nonneg κ) hnonneg)
  · linarith

theorem near_nearest_of_le (hden : 0 < den) (hle : hiddenBit * den ≤ num) :
    Near (1 - roundoff) (unitsOf (nearest num den)) (num / den) := by
  have hden' : (0 : ℚ) < den := by exact_mod_cast hden
  have hshift : hiddenBit * (den * 2 ^ shiftOf num den) ≤ num := by
    obtain ⟨-, hzero | hshift⟩ := shifts_shiftOf num hden
    · rw [hzero, Nat.pow_zero, Nat.mul_one]
      exact hle
    · exact hshift
  rw [hiddenBit_eq] at hshift
  have hshift' : (4503599627370496 * (den * 2 ^ shiftOf num den) : ℚ) ≤ num := by
    exact_mod_cast hshift
  apply near_nearest hden (by norm_num [roundoff])
  rw [roundoff, ← mul_div_assoc, le_div_iff₀ hden']
  linarith

/-! ## Two places away -/

theorem gapBelow_succ (m : ℕ) : gapBelow (m + 1) = 2 ^ scaleOf m := by
  have hsum := scaleOf_mul_add m
  have hsum' := scaleOf_mul_add (m + 1)
  have hlt := significandOf_lt m
  have hlt' := significandOf_lt (m + 1)
  have hor := scale_or m
  have hor' := scale_or (m + 1)
  simp only [hiddenBit_eq] at hsum hsum' hlt hlt' hor hor'
  unfold gapBelow
  split
  · rename_i hpower
    rw [hiddenBit_eq] at hpower
    congr 1
    omega
  · rename_i hpower
    rw [hiddenBit_eq] at hpower
    congr 1
    omega

theorem scaleOf_mono {m n : ℕ} (h : m ≤ n) : scaleOf m ≤ scaleOf n :=
  Nat.sub_le_sub_right (Nat.div_le_div_right h) 1

theorem nearest_le_of_lt_middle (hden : 0 < den)
    (hlt : 2 * num < (unitsOf m + unitsOf (m + 1)) * den) : nearest num den ≤ m := by
  by_cases hle : num ≤ unitsOf m * den
  · exact nearest_le hden hle
  · have hgap : 0 < gapBelow m * den := Nat.mul_pos (gapBelow_pos m) hden
    rw [unitsOf_succ, Nat.add_mul, Nat.add_mul] at hlt
    have hbetween : Between m num den := Between.of_lt (by omega) (by omega)
    exact Nat.le_of_eq (hbetween.nearest_eq hden)

theorem lt_nearest_of_middle_lt (hden : 0 < den)
    (hlt : (unitsOf m + unitsOf (m + 1)) * den < 2 * num) : m < nearest num den := by
  by_cases hle : unitsOf (m + 1) * den ≤ num
  · exact le_nearest hden hle
  · have hgap : 0 < 2 ^ scaleOf (m + 1) * den := Nat.mul_pos (Nat.two_pow_pos _) hden
    have hbetween : Between (m + 1) num den := by
      rw [unitsOf_succ, Nat.add_mul, Nat.add_mul] at hlt
      rw [unitsOf_succ, Nat.add_mul] at hle
      apply Between.of_lt
      · rw [gapBelow_succ, unitsOf_succ, Nat.add_mul]
        omega
      · rw [unitsOf_succ, Nat.add_mul]
        omega
    exact Nat.le_of_eq (hbetween.nearest_eq hden).symm

/-- What lies below the middle above a magnitude is not much more, in steps of the magnitude three
places below, than a significand can be. -/
theorem two_mul_unitsOf_le (m : ℕ) :
    2 * unitsOf (m + 3) + 2 ^ scaleOf (m + 3) ≤ 2 * (9007199254740992 + 5) * 2 ^ scaleOf m := by
  have hpos : 0 < 2 ^ scaleOf m := Nat.two_pow_pos _
  have hsum := scaleOf_mul_add m
  have hsum' := scaleOf_mul_add (m + 3)
  have hlt := significandOf_lt m
  have hlt' := significandOf_lt (m + 3)
  have hor := scale_or m
  have hor' := scale_or (m + 3)
  simp only [hiddenBit_eq] at hsum hsum' hlt hlt' hor hor'
  by_cases hscale : scaleOf (m + 3) = scaleOf m
  · rw [unitsOf, hscale]
    have hmul : significandOf (m + 3) * 2 ^ scaleOf m ≤ 9007199254740991 * 2 ^ scaleOf m :=
      Nat.mul_le_mul_right _ (by omega)
    omega
  · have hnext : scaleOf (m + 3) = scaleOf m + 1 ∧ significandOf (m + 3) ≤ 4503599627370498 := by
      omega
    rw [unitsOf, hnext.1, Nat.pow_succ]
    have hmul : significandOf (m + 3) * (2 ^ scaleOf m * 2) ≤
        4503599627370498 * (2 ^ scaleOf m * 2) := Nat.mul_le_mul_right _ hnext.2
    omega

/-- What a quotient may lose in several roundings and still be rounded to a double two places away
at most. -/
def tolerance : ℚ := 1 - 1999 / 1000 * roundoff

variable {num' den' : ℕ}

theorem nearest_le_add_two (hden : 0 < den) (hden' : 0 < den')
    (hnear : Near tolerance (num / den) (num' / den')) (hbetween : Between m num' den') :
    nearest num den ≤ m + 2 := by
  have hden₁ : (0 : ℚ) < den := by exact_mod_cast hden
  have hden₂ : (0 : ℚ) < den' := by exact_mod_cast hden'
  have hhigh : (2 * (num' / den') : ℚ) ≤ 2 * unitsOf m + 2 ^ scaleOf m := by
    have hcast : (2 * num' : ℚ) ≤ 2 * (unitsOf m * den') + 2 ^ scaleOf m * den' := by
      exact_mod_cast hbetween.high
    rw [← mul_div_assoc, div_le_iff₀ hden₂]
    linarith
  have hstep : (0 : ℚ) < 2 ^ scaleOf m := by positivity
  have hunits : (unitsOf m : ℚ) ≤ 9007199254740991 * 2 ^ scaleOf m := by
    have hlt := significandOf_lt m
    rw [hiddenBit_eq] at hlt
    have hle : unitsOf m ≤ 9007199254740991 * 2 ^ scaleOf m := Nat.mul_le_mul_right _ (by omega)
    exact_mod_cast hle
  have habove : 2 * unitsOf m + 5 * 2 ^ scaleOf m ≤ unitsOf (m + 2) + unitsOf (m + 2 + 1) := by
    have hone := Nat.pow_le_pow_right (n := 2) (by decide) (scaleOf_mono (Nat.le_add_right m 1))
    have htwo := Nat.pow_le_pow_right (n := 2) (by decide) (scaleOf_mono (Nat.le_add_right m 2))
    simp only [unitsOf_succ]
    omega
  have habove' : (2 * unitsOf m + 5 * 2 ^ scaleOf m : ℚ) ≤
      unitsOf (m + 2) + unitsOf (m + 2 + 1) := by exact_mod_cast habove
  have hleft := hnear.left
  apply nearest_le_of_lt_middle hden
  have hlt : (2 * (num / den) : ℚ) < unitsOf (m + 2) + unitsOf (m + 2 + 1) := by
    generalize (num / den : ℚ) = v at *
    generalize (num' / den' : ℚ) = d at *
    generalize (2 ^ scaleOf m : ℚ) = g at *
    by_contra hge
    simp only [tolerance, roundoff] at hleft
    linarith
  rw [← mul_div_assoc, div_lt_iff₀ hden₁] at hlt
  exact_mod_cast hlt

theorem le_nearest_add_two (hden : 0 < den) (hden' : 0 < den')
    (hnear : Near tolerance (num / den) (num' / den')) (hbetween : Between m num' den') :
    m ≤ nearest num den + 2 := by
  by_cases hsmall : m < 3
  · omega
  · obtain ⟨k, rfl⟩ := Nat.exists_eq_add_of_le' (Nat.le_of_not_lt hsmall)
    have hden₁ : (0 : ℚ) < den := by exact_mod_cast hden
    have hden₂ : (0 : ℚ) < den' := by exact_mod_cast hden'
    have hlow : (2 * unitsOf (k + 3) : ℚ) ≤ 2 * (num' / den') + 2 ^ scaleOf (k + 2) := by
      have hlow := hbetween.low
      rw [gapBelow_succ] at hlow
      have hcast : (2 * (unitsOf (k + 3) * den') : ℚ) ≤ 2 * num' + 2 ^ scaleOf (k + 2) * den' := by
        exact_mod_cast hlow
      have hnum : (num' : ℚ) = num' / den' * den' := (div_mul_cancel₀ _ hden₂.ne').symm
      rw [hnum] at hcast
      apply le_of_mul_le_mul_right _ hden₂
      linarith
    have hhigh : (2 * (num' / den') : ℚ) ≤ 2 * unitsOf (k + 3) + 2 ^ scaleOf (k + 3) := by
      have hcast : (2 * num' : ℚ) ≤ 2 * (unitsOf (k + 3) * den') + 2 ^ scaleOf (k + 3) * den' := by
        exact_mod_cast hbetween.high
      rw [← mul_div_assoc, div_le_iff₀ hden₂]
      linarith
    have hsize : (2 * unitsOf (k + 3) + 2 ^ scaleOf (k + 3) : ℚ) ≤
        2 * (9007199254740992 + 5) * 2 ^ scaleOf k := by exact_mod_cast two_mul_unitsOf_le k
    have hstep : (0 : ℚ) < 2 ^ scaleOf k := by positivity
    have hbelow : unitsOf k + unitsOf (k + 1) + 4 * 2 ^ scaleOf k + 2 ^ scaleOf (k + 2) ≤
        2 * unitsOf (k + 3) := by
      have hone := Nat.pow_le_pow_right (n := 2) (by decide) (scaleOf_mono (Nat.le_add_right k 1))
      have htwo := Nat.pow_le_pow_right (n := 2) (by decide) (scaleOf_mono (Nat.le_add_right k 2))
      simp only [unitsOf_succ]
      omega
    have hbelow' : (unitsOf k + unitsOf (k + 1) + 4 * 2 ^ scaleOf k + 2 ^ scaleOf (k + 2) : ℚ) ≤
        2 * unitsOf (k + 3) := by exact_mod_cast hbelow
    have hright := hnear.right
    have hlt : (unitsOf k + unitsOf (k + 1) : ℚ) < 2 * (num / den) := by
      generalize (num / den : ℚ) = v at *
      generalize (num' / den' : ℚ) = d at *
      simp only [tolerance, roundoff] at hright
      linarith
    rw [← mul_div_assoc, lt_div_iff₀ hden₁] at hlt
    have hresult := lt_nearest_of_middle_lt (m := k) hden (by exact_mod_cast hlt)
    omega

end Binary64

end RollCall
