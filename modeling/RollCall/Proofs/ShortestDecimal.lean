import RollCall.Number.Layout
import RollCall.Proofs.Rounding

/-!
# The shortest decimal of a double

The search for the shortest decimal of a finite double ends with one that is rounded to that
double. A grid of decimals is fine enough if its step is smaller than the way from the middle below
the double to the middle above: then one of the two neighbours of the double on that grid lies
between the middles. Seventeen digits are always enough, and so are the digits down to `10⁻³²⁴`.
-/

namespace RollCall

namespace Text

theorem digitCount_pos (n : ℕ) : 0 < digitCount n := by
  rw [digitCount]
  split
  · exact Nat.one_pos
  · exact Nat.succ_pos _

theorem lt_pow_digitCount (n : ℕ) : n < 10 ^ digitCount n := by
  induction n using Nat.strongRecOn with
  | ind n ih =>
    rw [digitCount]
    split
    · assumption
    · rename_i hn
      have hprev := ih (n / 10) (by omega)
      rw [Nat.pow_succ]
      omega

theorem pow_digitCount_le {n : ℕ} (hn : 0 < n) : 10 ^ (digitCount n - 1) ≤ n := by
  induction n using Nat.strongRecOn with
  | ind n ih =>
    rw [digitCount]
    split
    · exact hn
    · rename_i hten
      have hprev := ih (n / 10) (by omega) (by omega)
      have hsplit : digitCount (n / 10) + 1 - 1 = digitCount (n / 10) - 1 + 1 := by
        have hpos := digitCount_pos (n / 10)
        omega
      rw [hsplit, Nat.pow_succ]
      omega

end Text

/-! ## Quotients of a decimal -/

namespace Decimal

/-- The numerator of ten to an exponent. -/
def upper (e : ℤ) : ℕ := 10 ^ e.toNat

/-- The denominator of ten to an exponent. -/
def lower (e : ℤ) : ℕ := 10 ^ (-e).toNat

theorem ratio_eq (d : Decimal) : d.ratio = (d.digits * upper d.exponent, lower d.exponent) := rfl

theorem upper_pos (e : ℤ) : 0 < upper e := Nat.pow_pos (by decide)

theorem lower_pos (e : ℤ) : 0 < lower e := Nat.pow_pos (by decide)

theorem lower_anti {e f : ℤ} (h : e ≤ f) : lower f ≤ lower e :=
  Nat.pow_le_pow_right (by decide) (by omega)

theorem upper_mono {e f : ℤ} (h : e ≤ f) : upper e ≤ upper f :=
  Nat.pow_le_pow_right (by decide) (by omega)

theorem upper_of_nonpos {e : ℤ} (h : e ≤ 0) : upper e = 1 := by
  have hzero : e.toNat = 0 := by omega
  rw [upper, hzero, Nat.pow_zero]

theorem upper_add (e f : ℤ) :
    upper (e + f) * (lower e * lower f) = upper e * upper f * lower (e + f) := by
  simp only [upper, lower, ← Nat.pow_add]
  congr 1
  omega

end Decimal

namespace Binary64

/-! ## The exponent of the first digit -/

/-- The exponent of the first digit of a quotient says between which powers of ten it lies. -/
theorem leadingExponent_spec {num den : ℕ} (hnum : 0 < num) (hden : 0 < den) :
    let e := leadingExponent num den
    den * Decimal.upper e ≤ num * Decimal.lower e ∧
      num * Decimal.lower (e + 1) < den * Decimal.upper (e + 1) := by
  intro e
  by_cases hle : den ≤ num
  · have hpos : 0 < num / den := Nat.div_pos hle hden
    have he : e = (Text.digitCount (num / den) : ℤ) - 1 := if_pos hle
    have hcount := Text.digitCount_pos (num / den)
    have hlow := Text.pow_digitCount_le hpos
    have hhigh := Text.lt_pow_digitCount (num / den)
    rw [Nat.le_div_iff_mul_le hden] at hlow
    rw [Nat.div_lt_iff_lt_mul hden] at hhigh
    have hupper : e.toNat = Text.digitCount (num / den) - 1 := by omega
    have hlower : (-e).toNat = 0 := by omega
    have hupper' : (e + 1).toNat = Text.digitCount (num / den) := by omega
    have hlower' : (-(e + 1)).toNat = 0 := by omega
    simp only [Decimal.upper, Decimal.lower, hupper, hlower, hupper', hlower']
    rw [Nat.mul_comm den, Nat.mul_comm den]
    omega
  · have he : e = -(Text.digitCount ((den - 1) / num) : ℤ) := if_neg hle
    have hpos : 0 < (den - 1) / num := Nat.div_pos (by omega) hnum
    have hcount := Text.digitCount_pos ((den - 1) / num)
    have hlow := Text.pow_digitCount_le hpos
    have hhigh := Text.lt_pow_digitCount ((den - 1) / num)
    rw [Nat.le_div_iff_mul_le hnum] at hlow
    rw [Nat.div_lt_iff_lt_mul hnum] at hhigh
    have hupper : e.toNat = 0 := by omega
    have hlower : (-e).toNat = Text.digitCount ((den - 1) / num) := by omega
    have hupper' : (e + 1).toNat = 0 := by omega
    have hlower' : (-(e + 1)).toNat = Text.digitCount ((den - 1) / num) - 1 := by omega
    simp only [Decimal.upper, Decimal.lower, hupper, hlower, hupper', hlower']
    rw [Nat.mul_comm num, Nat.mul_comm num]
    omega

/-! ## Decimals that round to a double -/

theorem two_mul_gapBelow (m : ℕ) :
    (if significandOf m = hiddenBit ∧ 0 < scaleOf m then 2 ^ scaleOf m else 2 * 2 ^ scaleOf m) =
      2 * gapBelow m := by
  unfold gapBelow
  split
  · rename_i hpower
    obtain ⟨t, ht⟩ := Nat.exists_eq_add_of_le' hpower.2
    rw [ht, Nat.add_sub_cancel, Nat.pow_succ, Nat.mul_comm]
  · rfl

theorem gap_le_unitsOf {m : ℕ} (hm : 0 < m) : 2 ^ scaleOf m ≤ unitsOf m := by
  have hpos : 0 < significandOf m := by
    have hsum := scaleOf_mul_add m
    rcases scale_or m with hzero | hhidden
    · rw [hzero] at hsum
      omega
    · exact Nat.lt_of_lt_of_le (by decide) hhidden
  exact Nat.le_mul_of_pos_left _ hpos

theorem between_mul_right {m num den c : ℕ} (hc : 0 < c) :
    Between m (num * c) (den * c) ↔ Between m num den := by
  have hassoc : ∀ k, k * (den * c) = k * den * c := fun k => (Nat.mul_assoc k den c).symm
  have hle : ∀ u v w : ℕ, 2 * (u * c) ≤ 2 * (v * c) + w * c ↔ 2 * u ≤ 2 * v + w := by
    intro u v w
    rw [← Nat.mul_assoc, ← Nat.mul_assoc, ← Nat.add_mul]
    exact Nat.mul_le_mul_right_iff hc
  have hlt : ∀ u v w : ℕ, 2 * (u * c) < 2 * (v * c) + w * c ↔ 2 * u < 2 * v + w := by
    intro u v w
    rw [← Nat.mul_assoc, ← Nat.mul_assoc, ← Nat.add_mul]
    exact Nat.mul_lt_mul_right hc
  constructor
  · rintro ⟨hlow, hhigh, hodd⟩
    simp only [hassoc, hle, hlt] at hlow hhigh hodd
    exact ⟨hlow, hhigh, hodd⟩
  · rintro ⟨hlow, hhigh, hodd⟩
    refine ⟨?_, ?_, ?_⟩
    · simpa only [hassoc, hle] using hlow
    · simpa only [hassoc, hle] using hhigh
    · simpa only [hassoc, hlt] using hodd

theorem between_congr {m num den num' den' : ℕ} (hden : 0 < den) (hden' : 0 < den')
    (heq : num * den' = num' * den) : Between m num den ↔ Between m num' den' := by
  rw [← between_mul_right hden', heq, Nat.mul_comm den, between_mul_right hden]

/-- Whether the quotient of a decimal lies between the middles of a double. -/
def Rounds (x : Binary64) (d : Decimal) : Prop :=
  Between x.magnitude (d.digits * Decimal.upper d.exponent * unitsPerOne) (Decimal.lower d.exponent)

theorem roundsFrom_iff {x : Binary64} (hx : 0 < x.magnitude) (d : Decimal) :
    x.roundsFrom d = true ↔ x.Rounds d := by
  have hgap : gapBelow x.magnitude * Decimal.lower d.exponent ≤
      unitsOf x.magnitude * Decimal.lower d.exponent :=
    Nat.mul_le_mul_right _ (Nat.le_trans (gapBelow_le _) (gap_le_unitsOf hx))
  have hscale : x.scale = scaleOf x.magnitude := rfl
  have hsignificand : x.significand = significandOf x.magnitude := rfl
  simp only [roundsFrom, Decimal.ratio_eq, Nat.pow_eq, units_eq, hscale, hsignificand,
    two_mul_gapBelow]
  have hhere : 4 * (d.digits * Decimal.upper d.exponent) * unitsPerOne =
      4 * (d.digits * Decimal.upper d.exponent * unitsPerOne) := Nat.mul_assoc _ _ _
  rw [hhere, Nat.sub_mul, Nat.add_mul, Nat.mul_assoc 4, Nat.mul_assoc 2, Nat.mul_assoc 2]
  constructor
  · intro hrounds
    split at hrounds
    · simp only [Bool.and_eq_true, decide_eq_true_eq] at hrounds
      exact ⟨by omega, by omega, by omega⟩
    · simp only [Bool.and_eq_true, decide_eq_true_eq] at hrounds
      exact ⟨by omega, by omega, by omega⟩
  · rintro ⟨hlow, hhigh, hodd⟩
    split
    · simp only [Bool.and_eq_true, decide_eq_true_eq]
      omega
    · simp only [Bool.and_eq_true, decide_eq_true_eq]
      omega

/-! ## Candidates -/

/-- The exponent of the grid on which the candidate with a number of digits lies. -/
def gridExponent (x : Binary64) (digits : ℕ) : ℤ :=
  leadingExponent x.units unitsPerOne - ((digits : ℤ) - 1)

/-- The digits of the neighbour below a double on that grid. -/
def gridDigits (x : Binary64) (digits : ℕ) : ℕ :=
  x.units * Decimal.lower (x.gridExponent digits) /
    (unitsPerOne * Decimal.upper (x.gridExponent digits))

/-- The neighbour below a double on that grid. -/
def floorDecimal (x : Binary64) (digits : ℕ) : Decimal :=
  ⟨x.gridDigits digits, x.gridExponent digits⟩

def ceilDecimal (x : Binary64) (digits : ℕ) : Decimal :=
  ⟨x.gridDigits digits + 1, x.gridExponent digits⟩

variable {x : Binary64} {tie : TieRule} {n : ℕ} {d : Decimal}

/-- A candidate is a neighbour of the double on the grid that rounds to it, and there is one if
one of them does. -/
theorem candidate?_spec (tie : TieRule) (x : Binary64) (n : ℕ) :
    match candidate? tie x n with
    | none => x.roundsFrom (x.floorDecimal n) = false ∧ x.roundsFrom (x.ceilDecimal n) = false
    | some d => x.roundsFrom d = true ∧ (d = x.floorDecimal n ∨ d = x.ceilDecimal n) := by
  have hfloor : x.floorDecimal n = ⟨x.gridDigits n, x.gridExponent n⟩ := rfl
  have hceil : x.ceilDecimal n = ⟨x.gridDigits n + 1, x.gridExponent n⟩ := rfl
  simp only [gridDigits, gridExponent, Decimal.lower, Decimal.upper] at hfloor hceil
  simp only [candidate?, Nat.pow_eq, ← hfloor, ← hceil]
  generalize x.floorDecimal n = floor
  generalize x.ceilDecimal n = ceil
  by_cases hf : x.roundsFrom floor = true
  · by_cases hc : x.roundsFrom ceil = true
    · simp only [hf, hc]
      split
      · rename_i hnone
        split at hnone
        · cases hnone
        · split at hnone
          · cases hnone
          · split at hnone
            · cases hnone
            · split at hnone <;> cases hnone
      · rename_i d hsome
        have hd : d = floor ∨ d = ceil := by
          split at hsome
          · exact Or.inl (Option.some.inj hsome).symm
          · split at hsome
            · exact Or.inr (Option.some.inj hsome).symm
            · split at hsome
              · exact Or.inr (Option.some.inj hsome).symm
              · split at hsome
                · exact Or.inl (Option.some.inj hsome).symm
                · exact Or.inr (Option.some.inj hsome).symm
        rcases hd with rfl | rfl
        · exact ⟨hf, Or.inl rfl⟩
        · exact ⟨hc, Or.inr rfl⟩
    · simp [hf, hc]
  · by_cases hc : x.roundsFrom ceil = true
    · simp [hf, hc]
    · simp [hf, hc]

theorem units_pos (hx : 0 < x.magnitude) : 0 < x.units :=
  Nat.lt_of_lt_of_le (Nat.two_pow_pos _) (gap_le_unitsOf hx)

theorem unitsPerOne_pos : 0 < unitsPerOne := by decide +kernel

/-- Where the first digit of a double stands on a grid. -/
theorem grid_bounds (hx : 0 < x.magnitude) (n : ℕ) :
    unitsPerOne * Decimal.upper (x.gridExponent (n + 1)) * 10 ^ n ≤
        x.units * Decimal.lower (x.gridExponent (n + 1)) ∧
      x.units * Decimal.lower (x.gridExponent (n + 1)) <
        unitsPerOne * Decimal.upper (x.gridExponent (n + 1)) * 10 ^ (n + 1) := by
  obtain ⟨hlow, hhigh⟩ := leadingExponent_spec (units_pos hx) unitsPerOne_pos
  have hgrid : x.gridExponent (n + 1) = leadingExponent x.units unitsPerOne - n := by
    simp only [gridExponent]
    omega
  rw [hgrid]
  generalize leadingExponent x.units unitsPerOne = e at hlow hhigh
  have hten : ∀ k : ℕ, Decimal.upper (e - n + k) * Decimal.lower (e - n) =
      Decimal.upper (e - n) * 10 ^ k * Decimal.lower (e - n + k) := by
    intro k
    have hadd := Decimal.upper_add (e - n) k
    have hupper : Decimal.upper k = 10 ^ k := by simp [Decimal.upper]
    have hlower : Decimal.lower k = 1 := by simp [Decimal.lower]
    rwa [hupper, hlower, Nat.mul_one] at hadd
  have hn := hten n
  have hn' := hten (n + 1)
  have he : e - n + (n : ℤ) = e := by omega
  have he' : e - n + ((n + 1 : ℕ) : ℤ) = e + 1 := by omega
  rw [he] at hn
  rw [he'] at hn'
  generalize unitsPerOne = one at *
  constructor
  · apply Nat.le_of_mul_le_mul_right _ (Decimal.lower_pos e)
    calc one * Decimal.upper (e - n) * 10 ^ n * Decimal.lower e
        = one * Decimal.upper e * Decimal.lower (e - n) := by
          rw [Nat.mul_assoc one, Nat.mul_assoc one, ← hn, Nat.mul_assoc]
      _ ≤ x.units * Decimal.lower e * Decimal.lower (e - n) := Nat.mul_le_mul_right _ hlow
      _ = x.units * Decimal.lower (e - n) * Decimal.lower e := Nat.mul_right_comm _ _ _
  · apply Nat.lt_of_mul_lt_mul_right (a := Decimal.lower (e + 1))
    calc x.units * Decimal.lower (e - n) * Decimal.lower (e + 1)
        = x.units * Decimal.lower (e + 1) * Decimal.lower (e - n) := Nat.mul_right_comm _ _ _
      _ < one * Decimal.upper (e + 1) * Decimal.lower (e - n) :=
          Nat.mul_lt_mul_of_pos_right hhigh (Decimal.lower_pos _)
      _ = one * Decimal.upper (e - n) * 10 ^ (n + 1) * Decimal.lower (e + 1) := by
          rw [Nat.mul_assoc one, Nat.mul_assoc one (Decimal.upper (e - n)), Nat.mul_assoc one,
            ← hn']

/-- A grid is fine enough for a double if its step is smaller than the way from the middle below
to the middle above. -/
theorem candidate?_ne_none (hx : 0 < x.magnitude) (tie : TieRule) (n : ℕ)
    (hfine : 2 * (unitsPerOne * Decimal.upper (x.gridExponent n)) <
      (gapBelow x.magnitude + 2 ^ scaleOf x.magnitude) * Decimal.lower (x.gridExponent n)) :
    candidate? tie x n ≠ none := by
  intro hnone
  have hspec := candidate?_spec tie x n
  rw [hnone] at hspec
  obtain ⟨hfloor, hceil⟩ := hspec
  rw [← Bool.not_eq_true, roundsFrom_iff hx] at hfloor hceil
  have hgap : 0 < gapBelow x.magnitude * Decimal.lower (x.gridExponent n) :=
    Nat.mul_pos (gapBelow_pos _) (Decimal.lower_pos _)
  have hgap' : 0 < 2 ^ scaleOf x.magnitude * Decimal.lower (x.gridExponent n) :=
    Nat.mul_pos (Nat.two_pow_pos _) (Decimal.lower_pos _)
  have hstep : 0 < unitsPerOne * Decimal.upper (x.gridExponent n) :=
    Nat.mul_pos unitsPerOne_pos (Decimal.upper_pos _)
  have hdiv := Nat.div_add_mod (x.units * Decimal.lower (x.gridExponent n))
    (unitsPerOne * Decimal.upper (x.gridExponent n))
  have hmod := Nat.mod_lt (x.units * Decimal.lower (x.gridExponent n)) hstep
  have hquotient : ∀ q, q * Decimal.upper (x.gridExponent n) * unitsPerOne =
      unitsPerOne * Decimal.upper (x.gridExponent n) * q := by
    intro q
    rw [Nat.mul_comm _ unitsPerOne, Nat.mul_comm q, Nat.mul_assoc]
  rw [Nat.add_mul] at hfine
  by_cases hnear : 2 * (x.units * Decimal.lower (x.gridExponent n) %
      (unitsPerOne * Decimal.upper (x.gridExponent n))) <
      gapBelow x.magnitude * Decimal.lower (x.gridExponent n)
  · apply hfloor
    have hvalue := hquotient (x.gridDigits n)
    rw [gridDigits] at hvalue
    apply Between.of_lt
    · simp only [floorDecimal, gridDigits, hvalue, ← units_eq]
      omega
    · simp only [floorDecimal, gridDigits, hvalue, ← units_eq]
      omega
  · apply hceil
    have hvalue := hquotient (x.gridDigits n + 1)
    rw [gridDigits, Nat.mul_succ] at hvalue
    apply Between.of_lt
    · simp only [ceilDecimal, gridDigits, hvalue, ← units_eq]
      omega
    · simp only [ceilDecimal, gridDigits, hvalue, ← units_eq]
      omega

theorem candidate?_seventeen (hx : 0 < x.magnitude) (tie : TieRule) :
    candidate? tie x 17 ≠ none := by
  apply candidate?_ne_none hx
  obtain ⟨hlow, -⟩ := grid_bounds hx 16
  have hunits : 2 * x.units < (gapBelow x.magnitude + 2 ^ scaleOf x.magnitude) * 10 ^ 16 := by
    have hlt := significandOf_lt x.magnitude
    rw [hiddenBit_eq] at hlt
    rw [units_eq, unitsOf]
    by_cases hpower : significandOf x.magnitude = hiddenBit ∧ 0 < scaleOf x.magnitude
    · obtain ⟨t, ht⟩ := Nat.exists_eq_add_of_le' hpower.2
      have hpos : 0 < 2 ^ t := Nat.two_pow_pos t
      rw [gapBelow, if_pos hpower, hpower.1, hiddenBit_eq, ht, Nat.add_sub_cancel, Nat.pow_succ]
      omega
    · have hmul : significandOf x.magnitude * 2 ^ scaleOf x.magnitude ≤
          9007199254740991 * 2 ^ scaleOf x.magnitude := Nat.mul_le_mul_right _ (by omega)
      have hpos : 0 < 2 ^ scaleOf x.magnitude := Nat.two_pow_pos _
      rw [gapBelow, if_neg hpower]
      omega
  have hlower := Decimal.lower_pos (x.gridExponent 17)
  generalize Decimal.lower (x.gridExponent 17) = b at hlow hlower ⊢
  generalize unitsPerOne * Decimal.upper (x.gridExponent 17) = a at hlow ⊢
  apply Nat.lt_of_mul_lt_mul_right (a := 10 ^ 16)
  calc 2 * a * 10 ^ 16 = 2 * (a * 10 ^ 16) := Nat.mul_assoc _ _ _
    _ ≤ 2 * (x.units * b) := Nat.mul_le_mul_left 2 hlow
    _ = 2 * x.units * b := (Nat.mul_assoc _ _ _).symm
    _ < (gapBelow x.magnitude + 2 ^ scaleOf x.magnitude) * 10 ^ 16 * b :=
        Nat.mul_lt_mul_of_pos_right hunits hlower
    _ = (gapBelow x.magnitude + 2 ^ scaleOf x.magnitude) * b * 10 ^ 16 := Nat.mul_right_comm _ _ _

theorem unitsPerOne_lt : unitsPerOne < Decimal.lower (-324) := by decide +kernel

/-- Every double has a decimal on the grid of step `10⁻³²⁴` that rounds to it. -/
theorem candidate?_finest (hx : 0 < x.magnitude) (tie : TieRule) (hn : x.gridExponent n = -324) :
    candidate? tie x n ≠ none := by
  apply candidate?_ne_none hx
  rw [hn, Decimal.upper_of_nonpos (by decide), Nat.mul_one]
  have hsum : 2 ≤ gapBelow x.magnitude + 2 ^ scaleOf x.magnitude := by
    have hpos : 0 < gapBelow x.magnitude := gapBelow_pos _
    have hpos' : 0 < 2 ^ scaleOf x.magnitude := Nat.two_pow_pos _
    omega
  have hone := unitsPerOne_lt
  generalize Decimal.lower (-324) = finest at hone ⊢
  have hmul := Nat.mul_le_mul_right finest hsum
  omega

theorem le_leadingExponent (hx : 0 < x.magnitude) : -324 ≤ leadingExponent x.units unitsPerOne := by
  obtain ⟨-, hhigh⟩ := leadingExponent_spec (units_pos hx) unitsPerOne_pos
  generalize leadingExponent x.units unitsPerOne = e at hhigh
  by_cases he : -324 ≤ e
  · exact he
  · have hlower : Decimal.lower (-324) ≤ Decimal.lower (e + 1) := Decimal.lower_anti (by omega)
    have hunits : Decimal.lower (e + 1) ≤ x.units * Decimal.lower (e + 1) :=
      Nat.le_mul_of_pos_left _ (units_pos hx)
    rw [Decimal.upper_of_nonpos (by omega), Nat.mul_one] at hhigh
    have hone := unitsPerOne_lt
    omega

/-! ## The shortest decimal -/

/-- The digits of a candidate: not zero, and no more than they should be. -/
theorem gridDigits_bounds (hx : 0 < x.magnitude) (n : ℕ) :
    0 < x.gridDigits (n + 1) ∧ x.gridDigits (n + 1) < 10 ^ (n + 1) := by
  obtain ⟨hlow, hhigh⟩ := grid_bounds hx n
  have hstep : 0 < unitsPerOne * Decimal.upper (x.gridExponent (n + 1)) :=
    Nat.mul_pos unitsPerOne_pos (Decimal.upper_pos _)
  rw [gridDigits]
  constructor
  · apply Nat.div_pos _ hstep
    exact Nat.le_trans (Nat.le_mul_of_pos_right _ (Nat.pow_pos (by decide))) hlow
  · rw [Nat.div_lt_iff_lt_mul hstep, Nat.mul_comm (10 ^ (n + 1))]
    exact hhigh

/-- The search finds a candidate of at most seventeen digits, the first one there is. -/
theorem exists_candidate (hx : 0 < x.magnitude) (tie : TieRule) :
    ∃ n d, n < 17 ∧ candidate? tie x (n + 1) = some d ∧
      (∀ k < n, candidate? tie x (k + 1) = none) ∧ x.shortest tie = d.stripZeros 17 := by
  simp only [shortest]
  cases hfind : (List.range 17).findSome? fun n => candidate? tie x (n + 1) with
  | none =>
    have hnone := List.findSome?_eq_none_iff.mp hfind 16 (by decide)
    exact absurd hnone (candidate?_seventeen hx tie)
  | some d =>
    obtain ⟨before, n, after, hrange, hsome, hnone⟩ := List.findSome?_eq_some_iff.mp hfind
    have hget : (List.range 17)[before.length]? = some n := by
      rw [hrange]
      simp
    obtain ⟨hlength, hn⟩ := List.getElem?_eq_some_iff.mp hget
    rw [List.length_range] at hlength
    rw [List.getElem_range] at hn
    have htake : before = (List.range 17).take before.length := by
      rw [hrange, List.take_left]
    refine ⟨n, d, by omega, hsome, ?_, rfl⟩
    intro k hk
    apply hnone
    rw [htake, List.take_range, List.mem_range]
    omega

/-- Taking zeros off keeps what holds of a decimal and of it without its last zero. -/
theorem stripZeros_keeps {P : Decimal → Prop}
    (hstep : ∀ d : Decimal, d.digits ≠ 0 → d.digits % 10 = 0 → P d →
      P ⟨d.digits / 10, d.exponent + 1⟩)
    (fuel : ℕ) {d : Decimal} (hd : P d) : P (d.stripZeros fuel) := by
  induction fuel generalizing d with
  | zero => exact hd
  | succ fuel ih =>
    rw [Decimal.stripZeros]
    split
    · rename_i hzero
      exact ih (hstep d hzero.1 hzero.2 hd)
    · exact hd

/-- A decimal that may be written for a double: it rounds to it, and its digits and its exponent
are in range. -/
structure Writes (x : Binary64) (d : Decimal) : Prop where
  rounds : x.Rounds d
  digits_pos : 0 < d.digits
  digits_le : d.digits ≤ 10 ^ 17
  exponent_ge : -324 ≤ d.exponent

theorem Writes.strip (h : x.Writes d) (hne : d.digits ≠ 0) (hzero : d.digits % 10 = 0) :
    x.Writes ⟨d.digits / 10, d.exponent + 1⟩ := by
  obtain ⟨digits, e⟩ := d
  obtain ⟨hrounds, hpos, hle, hge⟩ := h
  simp only at hne hzero hpos hle hge ⊢
  obtain ⟨q, rfl⟩ : ∃ q, digits = q * 10 := ⟨digits / 10, by omega⟩
  rw [Nat.mul_div_cancel q (by decide)]
  have hadd : Decimal.upper (e + 1) * Decimal.lower e =
      Decimal.upper e * 10 * Decimal.lower (e + 1) := by
    have hsum := Decimal.upper_add e 1
    have hupper : Decimal.upper 1 = 10 := rfl
    have hlower : Decimal.lower 1 = 1 := rfl
    rwa [hupper, hlower, Nat.mul_one] at hsum
  refine ⟨?_, by simp only; omega, by simp only; omega, by simp only; omega⟩
  refine (between_congr (Decimal.lower_pos e) (Decimal.lower_pos (e + 1)) ?_).mp hrounds
  generalize unitsPerOne = one
  calc q * 10 * Decimal.upper e * one * Decimal.lower (e + 1)
      = q * (Decimal.upper e * 10 * Decimal.lower (e + 1)) * one := by ac_rfl
    _ = q * (Decimal.upper (e + 1) * Decimal.lower e) * one := by rw [hadd]
    _ = q * Decimal.upper (e + 1) * one * Decimal.lower e := by ac_rfl

/-- A decimal of a finite double is not larger than all of them. -/
theorem Writes.exponent_le (h : x.Writes d) (hfinite : x.magnitude < infinityMagnitude) :
    d.exponent ≤ 308 := by
  by_contra hlarge
  have hhigh := h.rounds.high
  have hlower : Decimal.lower d.exponent = 1 := by
    have hzero : (-d.exponent).toNat = 0 := by omega
    rw [Decimal.lower, hzero, Nat.pow_zero]
  rw [hlower, Nat.mul_one, Nat.mul_one] at hhigh
  have hnext : unitsOf (x.magnitude + 1) ≤ unitsOf infinityMagnitude :=
    unitsOf_strictMono.monotone hfinite
  rw [unitsOf_succ] at hnext
  have hstep : 0 < 2 ^ scaleOf x.magnitude := Nat.two_pow_pos _
  have hlimit : unitsOf infinityMagnitude < Decimal.upper 309 * unitsPerOne := by decide +kernel
  have hupper : Decimal.upper 309 * unitsPerOne ≤
      d.digits * Decimal.upper d.exponent * unitsPerOne :=
    Nat.mul_le_mul_right _ (Nat.le_trans (Decimal.upper_mono (by omega))
      (Nat.le_mul_of_pos_left _ h.digits_pos))
  omega

theorem writes_shortest (hx : 0 < x.magnitude) (tie : TieRule) : x.Writes (x.shortest tie) := by
  obtain ⟨n, d, hn, hsome, hfirst, hshortest⟩ := exists_candidate hx tie
  have hspec := candidate?_spec tie x (n + 1)
  rw [hsome] at hspec
  obtain ⟨hrounds, hd⟩ := hspec
  rw [roundsFrom_iff hx] at hrounds
  obtain ⟨hpos, hlt⟩ := gridDigits_bounds hx n
  have hpow : 10 ^ (n + 1) ≤ 10 ^ 17 := Nat.pow_le_pow_right (by decide) (by omega)
  have hdigits : 0 < d.digits ∧ d.digits ≤ 10 ^ 17 := by
    rcases hd with rfl | rfl
    · exact ⟨hpos, by simp only [floorDecimal]; omega⟩
    · exact ⟨Nat.succ_pos _, by simp only [ceilDecimal]; omega⟩
  have hexponent : d.exponent = x.gridExponent (n + 1) := by
    rcases hd with rfl | rfl
    · rfl
    · rfl
  -- An exponent below the finest grid would mean that the search has passed that grid.
  have hge : -324 ≤ d.exponent := by
    rw [hexponent]
    by_cases hfine : -324 ≤ x.gridExponent (n + 1)
    · exact hfine
    · have hlead := le_leadingExponent hx
      have hnonneg : 0 ≤ leadingExponent x.units unitsPerOne + 324 := by omega
      obtain ⟨k, hk⟩ := Int.eq_ofNat_of_zero_le hnonneg
      simp only [gridExponent] at hfine
      have hgrid : x.gridExponent (k + 1) = -324 := by
        simp only [gridExponent]
        omega
      exact absurd (hfirst k (by omega)) (candidate?_finest hx tie hgrid)
  rw [hshortest]
  refine stripZeros_keeps (P := x.Writes) ?_ 17 ⟨hrounds, hdigits.1, hdigits.2, hge⟩
  intro d hne hzero hwrites
  exact hwrites.strip hne hzero

end Binary64

end RollCall
