import Mathlib.Algebra.Ring.Nat
import Mathlib.Order.Monotone.Basic
import RollCall.Number.Binary64

/-!
# Rounding to doubles

Magnitudes count the finite doubles without a sign in their order, so how far two doubles are
apart is a difference of magnitudes. `unitsOf` gives the value of a magnitude, and from one
magnitude to the next the value grows by the power of two of its scale. A quotient is rounded to
the magnitude whose value is nearest. Rounding is monotone and leaves values of magnitudes as they
are, so a quotient between two values is rounded to a magnitude between theirs.
-/

namespace RollCall

/-! ## Quotients of whole numbers -/

theorem roundHalfEven_mul_right (num den : ℕ) {c : ℕ} (hc : 0 < c) :
    roundHalfEven (num * c) (den * c) = roundHalfEven num den := by
  have hdiv : num * c / (den * c) = num / den := Nat.mul_div_mul_right num den hc
  have hmod : num * c % (den * c) = num % den * c := Nat.mul_mod_mul_right c num den
  have hlt : den * c < 2 * (num % den * c) ↔ den < 2 * (num % den) := by
    rw [← Nat.mul_assoc]
    exact Nat.mul_lt_mul_right hc
  have heq : 2 * (num % den * c) = den * c ↔ 2 * (num % den) = den := by
    rw [← Nat.mul_assoc]
    exact Nat.mul_left_inj (Nat.ne_of_gt hc)
  simp only [roundHalfEven, hdiv, hmod, hlt, heq]

theorem roundHalfEven_le_of_cross {num den num' den' : ℕ} (hden : 0 < den) (hden' : 0 < den')
    (hle : num * den' ≤ num' * den) : roundHalfEven num den ≤ roundHalfEven num' den' := by
  have hmono : roundHalfEven (num * den') (den * den') ≤ roundHalfEven (num' * den) (den * den') :=
    roundHalfEven_mono hle
  rw [roundHalfEven_mul_right num den hden', Nat.mul_comm den den',
    roundHalfEven_mul_right num' den' hden] at hmono
  exact hmono

/-- A quotient between the middles to the neighbours of a number is rounded to it. The middles
themselves are if the number is even. -/
theorem roundHalfEven_eq {num den k : ℕ} (hden : 0 < den)
    (hlow : 2 * (k * den) ≤ 2 * num + den) (hhigh : 2 * num ≤ 2 * (k * den) + den)
    (hodd : k % 2 = 1 → 2 * (k * den) < 2 * num + den ∧ 2 * num < 2 * (k * den) + den) :
    roundHalfEven num den = k := by
  have hdiv := Nat.div_add_mod num den
  have hmod := Nat.mod_lt num hden
  rw [Nat.mul_comm] at hdiv
  simp only [roundHalfEven]
  generalize num / den = q at hdiv ⊢
  generalize num % den = r at hdiv hmod ⊢
  have hcases : k < q ∨ k = q ∨ k = q + 1 ∨ q + 2 ≤ k := by omega
  rcases hcases with hlt | rfl | rfl | hgt
  · have hmul : (k + 1) * den ≤ q * den := Nat.mul_le_mul_right den hlt
    rw [Nat.succ_mul] at hmul
    omega
  · rw [if_neg]
    omega
  · have hmul : (q + 1) * den = q * den + den := Nat.succ_mul q den
    rw [if_pos]
    omega
  · have hmul : (q + 2) * den ≤ k * den := Nat.mul_le_mul_right den hgt
    rw [Nat.add_mul] at hmul
    omega

/-! ## Values of magnitudes -/

namespace Binary64

def scaleOf (m : ℕ) : ℕ := m / hiddenBit - 1

def significandOf (m : ℕ) : ℕ := if m < hiddenBit then m else hiddenBit + m % hiddenBit

/-- The value of a magnitude, counted in the least positive one. -/
def unitsOf (m : ℕ) : ℕ := significandOf m * 2 ^ scaleOf m

theorem units_eq (x : Binary64) : x.units = unitsOf x.magnitude := rfl

theorem hiddenBit_eq : hiddenBit = 4503599627370496 := by decide

theorem scaleOf_mul_add (m : ℕ) : scaleOf m * hiddenBit + significandOf m = m := by
  simp only [scaleOf, significandOf, hiddenBit_eq]
  split
  · omega
  · omega

theorem significandOf_lt (m : ℕ) : significandOf m < 2 * hiddenBit := by
  simp only [significandOf, hiddenBit_eq]
  split
  · omega
  · omega

theorem hiddenBit_le_significandOf {m : ℕ} (h : 0 < scaleOf m) : hiddenBit ≤ significandOf m := by
  simp only [scaleOf, significandOf, hiddenBit_eq] at h ⊢
  split
  · omega
  · omega

section Representation

variable {s k : ℕ} (hs : s = 0 ∨ hiddenBit ≤ k)
include hs

theorem scaleOf_add (hk : k < 2 * hiddenBit) : scaleOf (s * hiddenBit + k) = s := by
  simp only [scaleOf, hiddenBit_eq] at hs hk ⊢
  omega

theorem significandOf_add (hk : k < 2 * hiddenBit) : significandOf (s * hiddenBit + k) = k := by
  have hscale := scaleOf_add hs hk
  have hsum := scaleOf_mul_add (s * hiddenBit + k)
  rw [hscale] at hsum
  exact Nat.add_left_cancel hsum

/-- The value of a magnitude that is given by a scale and a significand. The significand may have
one doubling too many. -/
theorem unitsOf_add (hk : k ≤ 2 * hiddenBit) : unitsOf (s * hiddenBit + k) = k * 2 ^ s := by
  rcases Nat.lt_or_eq_of_le hk with hlt | rfl
  · rw [unitsOf, scaleOf_add hs hlt, significandOf_add hs hlt]
  · have hnext : s * hiddenBit + 2 * hiddenBit = (s + 1) * hiddenBit + hiddenBit := by
      rw [Nat.add_mul]
      omega
    have hlt : hiddenBit < 2 * hiddenBit := by decide
    rw [hnext, unitsOf, scaleOf_add (Or.inr (Nat.le_refl _)) hlt,
      significandOf_add (Or.inr (Nat.le_refl _)) hlt, Nat.pow_succ]
    rw [Nat.mul_comm 2, Nat.mul_assoc, Nat.mul_comm 2]

end Representation

theorem scale_or (m : ℕ) : scaleOf m = 0 ∨ hiddenBit ≤ significandOf m := by
  rcases Nat.eq_zero_or_pos (scaleOf m) with hzero | hpos
  · exact Or.inl hzero
  · exact Or.inr (hiddenBit_le_significandOf hpos)

/-- From one magnitude to the next the value grows by the power of two of its scale. -/
theorem unitsOf_succ (m : ℕ) : unitsOf (m + 1) = unitsOf m + 2 ^ scaleOf m := by
  have hsum := scaleOf_mul_add m
  have hor : scaleOf m = 0 ∨ hiddenBit ≤ significandOf m + 1 :=
    (scale_or m).imp_right Nat.le_succ_of_le
  have hnext : m + 1 = scaleOf m * hiddenBit + (significandOf m + 1) := by omega
  calc unitsOf (m + 1) = (significandOf m + 1) * 2 ^ scaleOf m := by
        rw [hnext]
        exact unitsOf_add hor (significandOf_lt m)
    _ = unitsOf m + 2 ^ scaleOf m := Nat.succ_mul _ _

theorem unitsOf_strictMono : StrictMono unitsOf := by
  apply strictMono_nat_of_lt_succ
  intro m
  rw [unitsOf_succ]
  exact Nat.lt_add_of_pos_right (Nat.two_pow_pos _)

/-! ## The nearest magnitude -/

/-- How often the significand is doubled to which a quotient is rounded. -/
def shiftOf (num den : ℕ) : ℕ := (num / den).log2 - 52

/-- The magnitude nearest to a quotient, finite or not. -/
def nearest (num den : ℕ) : ℕ :=
  shiftOf num den * hiddenBit + roundHalfEven num (den * 2 ^ shiftOf num den)

theorem nearestMagnitude_eq (num den : ℕ) :
    nearestMagnitude num den = min (nearest num den) infinityMagnitude := rfl

/-- Whether a quotient is rounded to a significand that is doubled so often. -/
def Shifts (num den s : ℕ) : Prop :=
  num < 2 * hiddenBit * (den * 2 ^ s) ∧ (s = 0 ∨ hiddenBit * (den * 2 ^ s) ≤ num)

section Shift

variable {num den num' den' s t : ℕ}

theorem shifts_shiftOf (num : ℕ) (hden : 0 < den) : Shifts num den (shiftOf num den) := by
  constructor
  · have hlog : num / den < 2 ^ (num / den).log2.succ := Nat.lt_log2_self
    have hle : (num / den).log2.succ ≤ 53 + shiftOf num den := by
      simp only [shiftOf]
      omega
    have hpow : 2 ^ (num / den).log2.succ ≤ 2 ^ (53 + shiftOf num den) :=
      Nat.pow_le_pow_right (by decide) hle
    have hcross := (Nat.div_lt_iff_lt_mul hden).mp (Nat.lt_of_lt_of_le hlog hpow)
    rw [Nat.pow_add] at hcross
    have htwo : 2 * hiddenBit = 2 ^ 53 := by decide
    rw [htwo, Nat.mul_comm den, ← Nat.mul_assoc]
    exact hcross
  · by_cases hzero : shiftOf num den = 0
    · exact Or.inl hzero
    · right
      have hlog : 52 + shiftOf num den = (num / den).log2 := by
        simp only [shiftOf] at hzero ⊢
        omega
      have hne : num / den ≠ 0 := by
        intro hnone
        rw [shiftOf, hnone] at hzero
        exact hzero rfl
      have hpow : 2 ^ (num / den).log2 ≤ num / den := Nat.log2_self_le hne
      rw [← hlog, Nat.le_div_iff_mul_le hden, Nat.pow_add] at hpow
      have hhidden : hiddenBit = 2 ^ 52 := by decide
      rw [hhidden, Nat.mul_comm den, ← Nat.mul_assoc]
      exact hpow

/-- A larger quotient is not doubled less often. -/
theorem Shifts.le (hs : Shifts num den s) (ht : Shifts num' den' t) (hden : 0 < den)
    (hle : num * den' ≤ num' * den) : s ≤ t := by
  rcases Nat.lt_or_ge t s with hlt | hge
  · obtain ⟨-, hzero | hlow⟩ := hs
    · omega
    · obtain ⟨hhigh, -⟩ := ht
      have hdouble : 2 * (den' * 2 ^ t) ≤ den' * 2 ^ s := by
        have hpow : 2 ^ (t + 1) ≤ 2 ^ s := Nat.pow_le_pow_right (by decide) hlt
        rw [Nat.pow_succ] at hpow
        have hmul := Nat.mul_le_mul_left den' hpow
        rw [← Nat.mul_assoc] at hmul
        omega
      have hnum : num' < hiddenBit * (den' * 2 ^ s) := by
        have hmul := Nat.mul_le_mul_left hiddenBit hdouble
        rw [← Nat.mul_assoc, Nat.mul_comm hiddenBit 2] at hmul
        exact Nat.lt_of_lt_of_le hhigh hmul
      have hcross : hiddenBit * (den * 2 ^ s) * den' < hiddenBit * (den' * 2 ^ s) * den :=
        calc hiddenBit * (den * 2 ^ s) * den' ≤ num * den' := Nat.mul_le_mul_right den' hlow
          _ ≤ num' * den := hle
          _ < hiddenBit * (den' * 2 ^ s) * den := Nat.mul_lt_mul_of_pos_right hnum hden
      have heq : hiddenBit * (den * 2 ^ s) * den' = hiddenBit * (den' * 2 ^ s) * den := by
        simp only [Nat.mul_comm, Nat.mul_left_comm]
      exact absurd hcross (heq ▸ Nat.lt_irrefl _)
  · exact hge

theorem Shifts.shiftOf_eq (hs : Shifts num den s) (hden : 0 < den) : shiftOf num den = s := by
  have hshift := shifts_shiftOf num hden
  exact Nat.le_antisymm (hshift.le hs hden (Nat.le_refl _)) (hs.le hshift hden (Nat.le_refl _))

theorem Shifts.nearest_eq (hs : Shifts num den s) (hden : 0 < den) :
    nearest num den = s * hiddenBit + roundHalfEven num (den * 2 ^ s) := by
  rw [nearest, hs.shiftOf_eq hden]

/-- The significand to which a quotient is rounded. -/
theorem Shifts.significand (hs : Shifts num den s) (hden : 0 < den) :
    roundHalfEven num (den * 2 ^ s) ≤ 2 * hiddenBit ∧
      (s = 0 ∨ hiddenBit ≤ roundHalfEven num (den * 2 ^ s)) := by
  have hpos : 0 < den * 2 ^ s := Nat.mul_pos hden (Nat.two_pow_pos s)
  obtain ⟨hhigh, hlow⟩ := hs
  constructor
  · have hmono : roundHalfEven num (den * 2 ^ s) ≤
        roundHalfEven (2 * hiddenBit * (den * 2 ^ s)) (den * 2 ^ s) :=
      roundHalfEven_mono (Nat.le_of_lt hhigh)
    rwa [roundHalfEven_mul_left hpos] at hmono
  · refine hlow.imp_right fun hle => ?_
    have hmono : roundHalfEven (hiddenBit * (den * 2 ^ s)) (den * 2 ^ s) ≤
        roundHalfEven num (den * 2 ^ s) := roundHalfEven_mono hle
    rwa [roundHalfEven_mul_left hpos] at hmono

end Shift

variable {num den num' den' m : ℕ}

theorem unitsOf_nearest (num : ℕ) (hden : 0 < den) :
    unitsOf (nearest num den) =
      roundHalfEven num (den * 2 ^ shiftOf num den) * 2 ^ shiftOf num den := by
  obtain ⟨hhigh, hlow⟩ := (shifts_shiftOf num hden).significand hden
  exact unitsOf_add hlow hhigh

theorem nearest_unitsOf (m : ℕ) (hden : 0 < den) : nearest (unitsOf m * den) den = m := by
  have hpos : 0 < den * 2 ^ scaleOf m := Nat.mul_pos hden (Nat.two_pow_pos _)
  have hvalue : unitsOf m * den = significandOf m * (den * 2 ^ scaleOf m) := by
    rw [unitsOf, Nat.mul_assoc, Nat.mul_comm den]
  have hshifts : Shifts (unitsOf m * den) den (scaleOf m) := by
    rw [Shifts, hvalue]
    refine ⟨Nat.mul_lt_mul_of_pos_right (significandOf_lt m) hpos, ?_⟩
    exact (scale_or m).imp_right (Nat.mul_le_mul_right _)
  rw [hshifts.nearest_eq hden, hvalue, roundHalfEven_mul_left hpos, scaleOf_mul_add]

theorem nearest_mono (hden : 0 < den) (hden' : 0 < den') (hle : num * den' ≤ num' * den) :
    nearest num den ≤ nearest num' den' := by
  have hs := shifts_shiftOf num hden
  have ht := shifts_shiftOf num' hden'
  obtain ⟨hhigh, -⟩ := hs.significand hden
  obtain ⟨-, hlow⟩ := ht.significand hden'
  rw [nearest, nearest]
  rcases Nat.lt_or_eq_of_le (hs.le ht hden hle) with hlt | heq
  · have hlow' := hlow.resolve_left (by omega)
    have hmul := Nat.mul_le_mul_right hiddenBit hlt
    rw [Nat.succ_mul] at hmul
    omega
  · rw [heq]
    apply Nat.add_le_add_left
    apply roundHalfEven_le_of_cross (Nat.mul_pos hden (Nat.two_pow_pos _))
      (Nat.mul_pos hden' (Nat.two_pow_pos _))
    rw [← Nat.mul_assoc, ← Nat.mul_assoc]
    exact Nat.mul_le_mul_right _ hle

theorem nearest_congr (hden : 0 < den) (hden' : 0 < den') (heq : num * den' = num' * den) :
    nearest num den = nearest num' den' :=
  Nat.le_antisymm (nearest_mono hden hden' (Nat.le_of_eq heq))
    (nearest_mono hden' hden (Nat.le_of_eq heq.symm))

theorem le_nearest (hden : 0 < den) (hle : unitsOf m * den ≤ num) : m ≤ nearest num den := by
  have hmono := nearest_mono hden hden (Nat.mul_le_mul_right den hle)
  rwa [nearest_unitsOf m hden] at hmono

theorem nearest_le (hden : 0 < den) (hle : num ≤ unitsOf m * den) : nearest num den ≤ m := by
  have hmono := nearest_mono hden hden (Nat.mul_le_mul_right den hle)
  rwa [nearest_unitsOf m hden] at hmono

/-! ## Between the middles -/

/-- The distance of a magnitude to the one before it, which is half as far from a power of two. -/
def gapBelow (m : ℕ) : ℕ :=
  if significandOf m = hiddenBit ∧ 0 < scaleOf m then 2 ^ (scaleOf m - 1) else 2 ^ scaleOf m

theorem gapBelow_pos (m : ℕ) : 0 < gapBelow m := by
  unfold gapBelow
  split
  · exact Nat.two_pow_pos _
  · exact Nat.two_pow_pos _

theorem gapBelow_le (m : ℕ) : gapBelow m ≤ 2 ^ scaleOf m := by
  unfold gapBelow
  split
  · exact Nat.pow_le_pow_right (by decide) (Nat.sub_le _ _)
  · exact Nat.le_refl _

/-- Whether a quotient lies between the middles from a magnitude to its neighbours, the middles
included if the significand is even. -/
structure Between (m num den : ℕ) : Prop where
  low : 2 * (unitsOf m * den) ≤ 2 * num + gapBelow m * den
  high : 2 * num ≤ 2 * (unitsOf m * den) + 2 ^ scaleOf m * den
  odd : significandOf m % 2 = 1 → 2 * (unitsOf m * den) < 2 * num + gapBelow m * den ∧
    2 * num < 2 * (unitsOf m * den) + 2 ^ scaleOf m * den

theorem Between.of_lt {m num den : ℕ} (hlow : 2 * (unitsOf m * den) < 2 * num + gapBelow m * den)
    (hhigh : 2 * num < 2 * (unitsOf m * den) + 2 ^ scaleOf m * den) : Between m num den :=
  ⟨Nat.le_of_lt hlow, Nat.le_of_lt hhigh, fun _ => ⟨hlow, hhigh⟩⟩

theorem unitsOf_mul (m den : ℕ) : unitsOf m * den = significandOf m * (den * 2 ^ scaleOf m) := by
  rw [unitsOf, Nat.mul_assoc, Nat.mul_comm den]

/-- A quotient that is doubled as often as a magnitude, and lies within half a step of it, is
rounded to it. -/
theorem nearest_eq_of_step (hden : 0 < den)
    (hlow : 2 * (significandOf m * (den * 2 ^ scaleOf m)) ≤ 2 * num + den * 2 ^ scaleOf m)
    (hhigh : 2 * num ≤ 2 * (significandOf m * (den * 2 ^ scaleOf m)) + den * 2 ^ scaleOf m)
    (hodd : significandOf m % 2 = 1 →
      2 * (significandOf m * (den * 2 ^ scaleOf m)) < 2 * num + den * 2 ^ scaleOf m ∧
        2 * num < 2 * (significandOf m * (den * 2 ^ scaleOf m)) + den * 2 ^ scaleOf m)
    (hshift : scaleOf m = 0 ∨ hiddenBit * (den * 2 ^ scaleOf m) ≤ num) : nearest num den = m := by
  have hpos : 0 < den * 2 ^ scaleOf m := Nat.mul_pos hden (Nat.two_pow_pos _)
  have hmul : (significandOf m + 1) * (den * 2 ^ scaleOf m) ≤
      2 * hiddenBit * (den * 2 ^ scaleOf m) := Nat.mul_le_mul_right _ (significandOf_lt m)
  rw [Nat.succ_mul] at hmul
  have hshifts : Shifts num den (scaleOf m) := ⟨by omega, hshift⟩
  rw [hshifts.nearest_eq hden, roundHalfEven_eq hpos hlow hhigh hodd]
  exact scaleOf_mul_add m

/-- Below a power of two a quotient is doubled once less, and rounded up to that power. -/
theorem Between.nearest_eq_of_below (h : Between m num den) (hden : 0 < den)
    (hhidden : significandOf m = hiddenBit) (hscale : 0 < scaleOf m)
    (hbelow : num < significandOf m * (den * 2 ^ scaleOf m)) : nearest num den = m := by
  have hlow := h.low
  have hsum := scaleOf_mul_add m
  obtain ⟨t, ht⟩ := Nat.exists_eq_add_of_le' hscale
  have hdouble : den * 2 ^ scaleOf m = 2 * (den * 2 ^ t) := by
    rw [ht, Nat.pow_succ]
    simp only [Nat.mul_comm, Nat.mul_left_comm]
  have hgap : gapBelow m * den = den * 2 ^ t := by
    rw [gapBelow, if_pos ⟨hhidden, hscale⟩, ht, Nat.add_sub_cancel, Nat.mul_comm]
  rw [unitsOf_mul, hhidden, hdouble, hgap] at hlow
  rw [hhidden, hdouble] at hbelow
  rw [hhidden, ht] at hsum
  have hshifts : Shifts num den t := by
    simp only [Shifts, hiddenBit_eq] at hlow hbelow ⊢
    omega
  have hrounded : roundHalfEven num (den * 2 ^ t) = 2 * hiddenBit := by
    apply roundHalfEven_eq (Nat.mul_pos hden (Nat.two_pow_pos t))
    · simp only [hiddenBit_eq] at hlow ⊢
      omega
    · simp only [hiddenBit_eq] at hbelow ⊢
      omega
    · simp [hiddenBit_eq]
  rw [hshifts.nearest_eq hden, hrounded]
  simp only [hiddenBit_eq] at hsum ⊢
  omega

/-- A quotient between the middles to the neighbours of a magnitude is rounded to it. -/
theorem Between.nearest_eq (h : Between m num den) (hden : 0 < den) : nearest num den = m := by
  have hlow := h.low
  have hhigh := h.high
  have hodd := h.odd
  rw [unitsOf_mul, Nat.mul_comm (2 ^ scaleOf m)] at hhigh hodd
  rw [unitsOf_mul] at hlow
  by_cases hpower : significandOf m = hiddenBit ∧ 0 < scaleOf m
  · by_cases hbelow : num < significandOf m * (den * 2 ^ scaleOf m)
    · exact h.nearest_eq_of_below hden hpower.1 hpower.2 hbelow
    · refine nearest_eq_of_step hden (by omega) hhigh (fun h => ⟨by omega, (hodd h).2⟩) (Or.inr ?_)
      rw [← hpower.1]
      exact Nat.le_of_not_lt hbelow
  · have hgap : gapBelow m * den = den * 2 ^ scaleOf m := by
      rw [gapBelow, if_neg hpower, Nat.mul_comm]
    rw [hgap] at hlow hodd
    refine nearest_eq_of_step hden hlow hhigh hodd ?_
    by_cases hscale : scaleOf m = 0
    · exact Or.inl hscale
    · right
      have hhidden := hiddenBit_le_significandOf (Nat.pos_of_ne_zero hscale)
      have hne : significandOf m ≠ hiddenBit :=
        fun heq => hpower ⟨heq, Nat.pos_of_ne_zero hscale⟩
      have hmul : (hiddenBit + 1) * (den * 2 ^ scaleOf m) ≤
          significandOf m * (den * 2 ^ scaleOf m) := Nat.mul_le_mul_right _ (by omega)
      rw [Nat.succ_mul] at hmul
      omega

/-! ## Signs -/

section Signs

variable {negative : Bool}

theorem toNat_ofMagnitude (negative : Bool) (hm : m < 2 ^ 63) :
    (ofMagnitude negative m).bits.toNat = (if negative then 2 ^ 63 else 0) + m := by
  cases negative with
  | false => simp only [ofMagnitude, UInt64.toNat_ofNat', Bool.false_eq_true, if_false]; omega
  | true => simp only [ofMagnitude, UInt64.toNat_ofNat', if_true, Nat.pow_eq]; omega

theorem magnitude_ofMagnitude (negative : Bool) (hm : m < 2 ^ 63) :
    (ofMagnitude negative m).magnitude = m := by
  rw [magnitude, toNat_ofMagnitude negative hm, Nat.pow_eq]
  cases negative with
  | false => simp only [Bool.false_eq_true, if_false]; omega
  | true => simp only [if_true]; omega

theorem negative_ofMagnitude (negative : Bool) (hm : m < 2 ^ 63) :
    (ofMagnitude negative m).negative = negative := by
  rw [Binary64.negative, toNat_ofMagnitude negative hm, Nat.pow_eq]
  cases negative with
  | false => simp only [Bool.false_eq_true, if_false, decide_eq_false_iff_not]; omega
  | true => simp only [if_true, decide_eq_true_eq]; omega

theorem ofMagnitude_magnitude (x : Binary64) : ofMagnitude x.negative x.magnitude = x := by
  obtain ⟨bits⟩ := x
  have hlt := bits.toNat_lt
  apply congrArg Binary64.mk
  apply UInt64.toNat_inj.mp
  simp only [Binary64.negative, magnitude, Nat.pow_eq, UInt64.toNat_ofNat', decide_eq_true_eq]
  split
  · omega
  · omega

end Signs

end Binary64

end RollCall
