import Mathlib.Algebra.Order.Field.Rat
import Mathlib.Tactic.Linarith
import Mathlib.Tactic.NormNum
import Mathlib.Tactic.Positivity
import Mathlib.Tactic.Ring
import RollCall.Proofs.GivenDurations

/-!
# Seconds as exact numbers

A finite double is a rational number, which its sign, its exponent and its fraction say. As a number
of seconds it is a duration exactly if it is not negative and below `2⁶⁴`, and the duration is then
the nearest whole number of nanoseconds, of two the even one. Rounding does not blur the upper
limit, since no double lies within half a nanosecond below `2⁶⁴`. It sets the lower limit of an
interval: up to half a nanosecond is rounded to none.
-/

namespace RollCall

/-! ## The nearest whole number -/

/-- The whole number nearest to a rational, and the even one if there are two. -/
structure IsNearest (n : ℕ) (q : ℚ) : Prop where
  within_half : |(n : ℚ) - q| ≤ 1 / 2
  even_of_tie : |(n : ℚ) - q| = 1 / 2 → Even n

theorem even_roundHalfEven_of_tie {num den : ℕ} (hden : 0 < den)
    (htie : 2 * (roundHalfEven num den * den) = 2 * num + den ∨
      2 * num = 2 * (roundHalfEven num den * den) + den) : Even (roundHalfEven num den) := by
  have hdiv := Nat.div_add_mod num den
  have hmod := Nat.mod_lt num hden
  rw [Nat.mul_comm] at hdiv
  rw [Nat.even_iff]
  simp only [roundHalfEven] at htie ⊢
  generalize num / den = q at hdiv htie ⊢
  generalize num % den = r at hdiv hmod htie ⊢
  split
  · rename_i hup
    rw [if_pos hup, Nat.add_mul] at htie
    omega
  · rename_i hdown
    rw [if_neg hdown] at htie
    omega

theorem isNearest_roundHalfEven (num : ℕ) {den : ℕ} (hden : 0 < den) :
    IsNearest (roundHalfEven num den) (num / den) := by
  have hpos : (0 : ℚ) < den := Nat.cast_pos.mpr hden
  have hhigh : (2 * (roundHalfEven num den * den) : ℚ) ≤ 2 * num + den :=
    mod_cast two_mul_roundHalfEven_le hden
  have hlow : (2 * num : ℚ) ≤ 2 * (roundHalfEven num den * den) + den :=
    mod_cast two_mul_le_roundHalfEven hden
  have hdistance : ((roundHalfEven num den : ℚ) - num / den) =
      (roundHalfEven num den * den - num) / den := by
    field_simp
  constructor
  · rw [hdistance, abs_div, abs_of_pos hpos, div_le_iff₀ hpos, abs_le]
    constructor
    · linarith
    · linarith
  · intro htie
    rw [hdistance, abs_div, abs_of_pos hpos, div_eq_iff hpos.ne'] at htie
    apply even_roundHalfEven_of_tie hden
    rcases abs_cases (roundHalfEven num den * den - num : ℚ) with ⟨habs, -⟩ | ⟨habs, -⟩
    · left
      have hcast : (2 * (roundHalfEven num den * den) : ℚ) = 2 * num + den := by linarith
      exact_mod_cast hcast
    · right
      have hcast : (2 * num : ℚ) = 2 * (roundHalfEven num den * den) + den := by linarith
      exact_mod_cast hcast

/-- Exactly the numbers up to one half are rounded to zero. -/
theorem IsNearest.pos_iff {n : ℕ} {q : ℚ} (hnearest : IsNearest n q) : 0 < n ↔ 1 / 2 < q := by
  obtain ⟨hwithin, heven⟩ := hnearest
  obtain ⟨hlow, hhigh⟩ := abs_le.mp hwithin
  constructor
  · intro hpos
    have hone : (1 : ℚ) ≤ n := Nat.one_le_cast.mpr hpos
    rcases lt_or_eq_of_le (show 1 / 2 ≤ q by linarith) with hlt | heq
    · exact hlt
    · have hn : (n : ℚ) = 1 := by linarith
      have htie : |(n : ℚ) - q| = 1 / 2 := by
        rw [hn, ← heq]
        norm_num
      rw [Nat.cast_eq_one.mp hn] at heven
      rw [hn] at htie
      exact absurd (heven (by simpa using htie)) (by decide)
  · intro hq
    rcases Nat.eq_zero_or_pos n with rfl | hpos
    · rw [Nat.cast_zero] at hlow
      linarith
    · exact hpos

/-! ## The value of a double -/

namespace Binary64

/-- The eleven bits of the exponent. All ones stand for what is not finite. -/
def storedExponent (x : Binary64) : ℕ := x.bits.toNat / 2 ^ 52 % 2 ^ 11

/-- The fifty-two bits of the fraction. -/
def storedFraction (x : Binary64) : ℕ := x.bits.toNat % 2 ^ 52

/-- The value of a finite double without its sign. -/
def absValue (x : Binary64) : ℚ :=
  if x.storedExponent = 0 then x.storedFraction / 2 ^ 52 * 2 ^ (-1022 : ℤ)
  else (1 + x.storedFraction / 2 ^ 52) * 2 ^ ((x.storedExponent : ℤ) - 1023)

def value (x : Binary64) : ℚ := if 2 ^ 63 ≤ x.bits.toNat then -x.absValue else x.absValue

theorem magnitude_eq (x : Binary64) :
    x.magnitude = x.storedExponent * hiddenBit + x.storedFraction := by
  have hlt := x.bits.toNat_lt
  simp only [magnitude, storedExponent, storedFraction, hiddenBit_eq, Nat.pow_eq]
  omega

theorem isFinite_iff (x : Binary64) : x.isFinite = true ↔ x.storedExponent ≠ 2047 := by
  have hfraction : x.storedFraction < 2 ^ 52 := Nat.mod_lt _ (by decide)
  have hexponent : x.storedExponent < 2 ^ 11 := Nat.mod_lt _ (by decide)
  simp only [isFinite, infinityMagnitude, magnitude_eq, hiddenBit_eq, decide_eq_true_eq]
  omega

theorem units_fields (x : Binary64) :
    x.units = if x.storedExponent = 0 then x.storedFraction
      else (2 ^ 52 + x.storedFraction) * 2 ^ (x.storedExponent - 1) := by
  have hfraction : x.storedFraction < hiddenBit := Nat.mod_lt _ (by decide)
  have hhidden : hiddenBit = 2 ^ 52 := by decide
  have hpos : 0 < hiddenBit := by decide
  have hexponent : x.magnitude / hiddenBit = x.storedExponent := by
    rw [magnitude_eq, Nat.mul_comm, Nat.mul_add_div hpos, Nat.div_eq_of_lt hfraction, Nat.add_zero]
  have hrest : x.magnitude % hiddenBit = x.storedFraction := by
    rw [magnitude_eq, Nat.mul_comm, Nat.mul_add_mod, Nat.mod_eq_of_lt hfraction]
  simp only [units, significand, scale, hexponent, hrest, Nat.pow_eq]
  split
  · rename_i hsmall
    have hzero : x.storedExponent = 0 := by
      rw [← hexponent, Nat.div_eq_of_lt hsmall]
    rw [if_pos hzero, hzero, Nat.zero_sub, Nat.pow_zero, Nat.mul_one, magnitude_eq, hzero,
      Nat.zero_mul, Nat.zero_add]
  · rename_i hlarge
    have hpositive : 0 < x.storedExponent := by
      rw [← hexponent]
      exact Nat.div_pos (Nat.le_of_not_lt hlarge) hpos
    rw [if_neg hpositive.ne', hhidden]

/-- A finite magnitude counts the least positive one, which is `2⁻¹⁰⁷⁴`. -/
theorem absValue_eq (x : Binary64) : x.absValue = x.units / unitsPerOne := by
  have hone : (unitsPerOne : ℚ) = 2 ^ (1074 : ℤ) := by
    rw [unitsPerOne_eq, Nat.cast_pow, ← zpow_natCast]
    rfl
  rw [absValue, units_fields, hone]
  split
  · have hshift : (2 : ℚ) ^ (-1022 : ℤ) = 2 ^ 52 / 2 ^ (1074 : ℤ) :=
      zpow_sub₀ two_ne_zero (52 : ℕ) 1074
    rw [hshift]
    generalize (2 : ℚ) ^ (1074 : ℤ) = one
    ring
  · rename_i hexponent
    obtain ⟨e, he⟩ := Nat.exists_eq_succ_of_ne_zero hexponent
    have hshift : (2 : ℚ) ^ ((x.storedExponent : ℤ) - 1023) =
        2 ^ e * 2 ^ 52 / 2 ^ (1074 : ℤ) := by
      have hsplit : (x.storedExponent : ℤ) - 1023 = ((e + 52 : ℕ) : ℤ) - 1074 := by omega
      rw [hsplit, zpow_sub₀ two_ne_zero, zpow_natCast, pow_add]
    rw [hshift, he, Nat.succ_sub_one]
    generalize (2 : ℚ) ^ (1074 : ℤ) = one
    push_cast
    ring

theorem units_eq_zero_iff (x : Binary64) : x.units = 0 ↔ x.isZero = true := by
  have hzero : unitsOf 0 = 0 := by decide
  rw [units_eq, ← hzero, unitsOf_strictMono.injective.eq_iff, isZero, decide_eq_true_eq]

/-- A number of seconds that is a duration. -/
structure Usable (x : Binary64) : Prop where
  /-- Neither infinite nor no number. -/
  finite : x.storedExponent ≠ 2047
  nonneg : 0 ≤ x.value
  lt : x.value < 2 ^ 64

theorem value_eq (x : Binary64) :
    x.value = if x.negative then -(x.units / unitsPerOne : ℚ) else x.units / unitsPerOne := by
  simp only [value, absValue_eq, negative, Nat.pow_eq, decide_eq_true_eq]

theorem value_of_unsigned {x : Binary64} (hsign : (!x.negative || x.isZero) = true) :
    x.value = x.units / unitsPerOne := by
  rw [value_eq]
  split
  · rename_i hnegative
    have hzero : x.isZero = true := by simpa [hnegative] using hsign
    rw [(units_eq_zero_iff x).mpr hzero, Nat.cast_zero, zero_div, neg_zero]
  · rfl

theorem value_nonneg_iff (x : Binary64) :
    0 ≤ x.value ↔ (!x.negative || x.isZero) = true := by
  constructor
  · intro hvalue
    rw [value_eq] at hvalue
    cases hnegative : x.negative with
    | false => rfl
    | true =>
      rw [hnegative, if_pos rfl, neg_nonneg, div_le_iff₀ cast_unitsPerOne_pos, zero_mul] at hvalue
      have hunits : x.units = 0 := Nat.cast_eq_zero.mp (le_antisymm hvalue (Nat.cast_nonneg _))
      exact (units_eq_zero_iff x).mp hunits
  · intro hsign
    rw [value_of_unsigned hsign]
    positivity

theorem usable_iff (x : Binary64) :
    x.Usable ↔
      x.isFinite = true ∧ (!x.negative || x.isZero) = true ∧ x.units < 2 ^ 64 * unitsPerOne := by
  have hlt (hsign : (!x.negative || x.isZero) = true) :
      x.value < 2 ^ 64 ↔ x.units < 2 ^ 64 * unitsPerOne := by
    rw [value_of_unsigned hsign, div_lt_iff₀ cast_unitsPerOne_pos]
    exact_mod_cast Iff.rfl
  constructor
  · rintro ⟨hfinite, hnonneg, hvalue⟩
    have hsign := (value_nonneg_iff x).mp hnonneg
    exact ⟨(isFinite_iff x).mpr hfinite, hsign, (hlt hsign).mp hvalue⟩
  · rintro ⟨hfinite, hsign, hunits⟩
    exact ⟨(isFinite_iff x).mp hfinite, (value_nonneg_iff x).mpr hsign, (hlt hsign).mpr hunits⟩

end Binary64

/-! ## Durations of seconds -/

namespace Duration

open Binary64

variable {x y : Binary64} {d e : Duration}

/-- No double is so little below `2⁶⁴` that it would be rounded up to it. -/
theorem nanos_lt_iff (x : Binary64) :
    roundHalfEven (x.units * nanosPerSecond) unitsPerOne < 2 ^ 64 * nanosPerSecond ↔
      x.units < 2 ^ 64 * unitsPerOne := by
  constructor
  · intro hnanos
    by_contra hle
    have hscaled : 2 ^ 64 * nanosPerSecond * unitsPerOne ≤ x.units * nanosPerSecond := by
      rw [Nat.mul_right_comm]
      exact Nat.mul_le_mul_right _ (Nat.le_of_not_lt hle)
    have hrounded : roundHalfEven (2 ^ 64 * nanosPerSecond * unitsPerOne) unitsPerOne ≤
        roundHalfEven (x.units * nanosPerSecond) unitsPerOne := roundHalfEven_mono hscaled
    rw [roundHalfEven_mul_left unitsPerOne_pos] at hrounded
    exact Nat.not_lt_of_le hrounded hnanos
  · intro hunits
    have hmagnitude : x.magnitude < lastBelow + 1 := by
      apply unitsOf_strictMono.lt_iff_lt.mp
      rwa [unitsOf_succ_lastBelow, ← units_eq]
    have hlast : nanosOf lastBelow < 2 ^ 64 * nanosPerSecond := by decide +kernel
    have hle : nanosOf x.magnitude ≤ nanosOf lastBelow := by
      apply nanosOf_mono
      exact Nat.le_of_lt_add_one hmagnitude
    rw [units_eq, ← nanosOf]
    exact Nat.lt_of_le_of_lt hle hlast

theorem ofSeconds?_eq_some_iff :
    ofSeconds? x = some d ↔
      x.Usable ∧ d.nanos = roundHalfEven (x.units * nanosPerSecond) unitsPerOne := by
  rw [usable_iff, ← nanos_lt_iff]
  simp only [ofSeconds?, Option.ite_none_right_eq_some, Bool.and_eq_true, ofNanos?_eq_some_iff]
  constructor
  · rintro ⟨⟨hfinite, hsign⟩, hnanos⟩
    exact ⟨⟨hfinite, hsign, hnanos ▸ d.nanos_lt⟩, hnanos⟩
  · rintro ⟨⟨hfinite, hsign, -⟩, hnanos⟩
    exact ⟨⟨hfinite, hsign⟩, hnanos⟩

/-- A number of seconds is a duration exactly if it is usable. -/
theorem exists_ofSeconds?_iff : (∃ d, ofSeconds? x = some d) ↔ x.Usable := by
  constructor
  · rintro ⟨d, hd⟩
    exact (ofSeconds?_eq_some_iff.mp hd).1
  · intro husable
    obtain ⟨-, -, hunits⟩ := (usable_iff x).mp husable
    have hnanos := (nanos_lt_iff x).mpr hunits
    refine ⟨⟨_, hnanos⟩, ofSeconds?_eq_some_iff.mpr ⟨husable, ?_⟩⟩
    dsimp only

theorem isNearest_of_ofSeconds? (hx : ofSeconds? x = some d) :
    IsNearest d.nanos (x.value * 10 ^ 9) := by
  obtain ⟨husable, hnanos⟩ := ofSeconds?_eq_some_iff.mp hx
  have hnearest := isNearest_roundHalfEven (x.units * nanosPerSecond) unitsPerOne_pos
  have hsecond : (nanosPerSecond : ℚ) = 10 ^ 9 := by norm_num [nanosPerSecond]
  rw [value_of_unsigned ((value_nonneg_iff x).mp husable.nonneg), div_mul_eq_mul_div, hnanos]
  rwa [Nat.cast_mul, hsecond] at hnearest

theorem ofSeconds?_mono_value (hx : ofSeconds? x = some d) (hy : ofSeconds? y = some e)
    (hxy : x.value ≤ y.value) : d.nanos ≤ e.nanos := by
  obtain ⟨hxusable, -⟩ := ofSeconds?_eq_some_iff.mp hx
  obtain ⟨hyusable, -⟩ := ofSeconds?_eq_some_iff.mp hy
  rw [value_of_unsigned ((value_nonneg_iff x).mp hxusable.nonneg),
    value_of_unsigned ((value_nonneg_iff y).mp hyusable.nonneg),
    div_le_div_iff_of_pos_right cast_unitsPerOne_pos, Nat.cast_le] at hxy
  exact ofSeconds?_mono hx hy hxy

/-- An interval is empty exactly if it is at most half a nanosecond. -/
theorem nanos_pos_iff (hx : ofSeconds? x = some d) : 0 < d.nanos ↔ 5 / 10 ^ 10 < x.value := by
  rw [(isNearest_of_ofSeconds? hx).pos_iff, ← div_lt_iff₀ (by norm_num)]
  norm_num

end Duration

/-! ## The check of settings -/

namespace Settings

open Binary64 Duration

variable {s t : Settings} {span other : Span} {d e : Duration}

theorem exists_duration (husable : (s.seconds span).Usable) : ∃ d, s.duration span = .ok d := by
  obtain ⟨d, hd⟩ := exists_ofSeconds?_iff.mpr husable
  exact ⟨d, duration_eq_ok_iff.mpr hd⟩

theorem duration_of_not_usable (hunusable : ¬ (s.seconds span).Usable) :
    s.duration span = .error (.notADuration span (s.seconds span)) := by
  cases hd : ofSeconds? (s.seconds span) with
  | none => simp only [duration, hd]
  | some d => exact absurd (exists_ofSeconds?_iff.mp ⟨d, hd⟩) hunusable

theorem check_of_empty (htimeout : s.duration .timeout = .ok d)
    (hinterval : s.duration .interval = .ok e) (hempty : e.nanos = 0) :
    s.check = .error .emptyInterval := by
  simp only [check, durations, htimeout, hinterval, hempty, if_true, Except.map]

/-- The check looks at the timeout, then at the interval, then whether the interval is empty. -/
theorem check_cases (s : Settings) :
    (¬ s.timeout.Usable ∧ s.check = .error (.notADuration .timeout s.timeout)) ∨
    (s.timeout.Usable ∧ ¬ s.interval.Usable ∧
      s.check = .error (.notADuration .interval s.interval)) ∨
    (s.timeout.Usable ∧ s.interval.Usable ∧ s.interval.value ≤ 5 / 10 ^ 10 ∧
      s.check = .error .emptyInterval) ∨
    (s.timeout.Usable ∧ s.interval.Usable ∧ 5 / 10 ^ 10 < s.interval.value ∧
      s.check = .ok ()) := by
  by_cases htimeout : s.timeout.Usable
  · obtain ⟨d, hd⟩ : ∃ d, s.duration .timeout = .ok d := exists_duration htimeout
    by_cases hinterval : s.interval.Usable
    · obtain ⟨e, he⟩ : ∃ e, s.duration .interval = .ok e := exists_duration hinterval
      have hpos := nanos_pos_iff (duration_eq_ok_iff.mp he)
      by_cases hempty : e.nanos = 0
      · have hshort := not_lt.mp (mt hpos.mpr (Nat.not_lt_of_le (Nat.le_of_eq hempty)))
        exact Or.inr (Or.inr (Or.inl
          ⟨htimeout, hinterval, hshort, check_of_empty hd he hempty⟩))
      · have hlong := Nat.pos_of_ne_zero hempty
        exact Or.inr (Or.inr (Or.inr
          ⟨htimeout, hinterval, hpos.mp hlong, check_of_ok hd he hlong⟩))
    · have hnone : s.duration .interval = .error (.notADuration .interval s.interval) :=
        duration_of_not_usable hinterval
      exact Or.inr (Or.inl ⟨htimeout, hinterval, check_of_interval_error hd hnone⟩)
  · have hnone : s.duration .timeout = .error (.notADuration .timeout s.timeout) :=
      duration_of_not_usable htimeout
    exact Or.inl ⟨htimeout, check_of_timeout_error hnone⟩

/-- Settings pass their check exactly if the timeout and the interval are not negative and below
`2⁶⁴` and the interval is more than half a nanosecond; the first of these that fails is the error.
A span that is not negative and below `2⁶⁴` is the nearest whole number of nanoseconds, and a
larger one is no shorter duration. -/
theorem check_by_value (s : Settings) :
    (s.check = .ok () ↔
      s.timeout.Usable ∧ s.interval.Usable ∧ 5 / 10 ^ 10 < s.interval.value) ∧
    (∀ cause, s.check = .error cause ↔
      (¬ s.timeout.Usable ∧ cause = .notADuration .timeout s.timeout) ∨
      (s.timeout.Usable ∧ ¬ s.interval.Usable ∧ cause = .notADuration .interval s.interval) ∨
      (s.timeout.Usable ∧ s.interval.Usable ∧ s.interval.value ≤ 5 / 10 ^ 10 ∧
        cause = .emptyInterval)) ∧
    (∀ span, (s.seconds span).Usable →
      ∃ d, s.duration span = .ok d ∧ IsNearest d.nanos ((s.seconds span).value * 10 ^ 9)) ∧
    (∀ (t : Settings) (span other : Span) (d e : Duration),
      s.duration span = .ok d → t.duration other = .ok e →
        (s.seconds span).value ≤ (t.seconds other).value → d.nanos ≤ e.nanos) := by
  refine ⟨?_, ?_, ?_, ?_⟩
  · rcases check_cases s with ⟨ht, hcheck⟩ | ⟨ht, hi, hcheck⟩ | ⟨ht, hi, hv, hcheck⟩ |
      ⟨ht, hi, hv, hcheck⟩
    · simp [ht, hcheck]
    · simp [hi, hcheck]
    · simp [hcheck, not_lt.mpr hv]
    · simp only [ht, hi, hv, hcheck, and_self]
  · intro cause
    rcases check_cases s with ⟨ht, hcheck⟩ | ⟨ht, hi, hcheck⟩ | ⟨ht, hi, hv, hcheck⟩ |
      ⟨ht, hi, hv, hcheck⟩
    · simp [ht, hcheck, eq_comm]
    · simp [ht, hi, hcheck, eq_comm]
    · simp [ht, hi, hv, hcheck, eq_comm]
    · simp [ht, hi, hcheck, not_le.mpr hv]
  · intro span husable
    obtain ⟨d, hd⟩ := exists_duration husable
    exact ⟨d, hd, isNearest_of_ofSeconds? (duration_eq_ok_iff.mp hd)⟩
  · intro t span other d e hd he hle
    exact ofSeconds?_mono_value (duration_eq_ok_iff.mp hd) (duration_eq_ok_iff.mp he) hle

/-- The least interval, with the zero that has a sign as its timeout: one place less is refused. -/
theorem least_interval_accepted :
    let s : Settings := ⟨Binary64.zero true, ⟨0x3e012e0be826d695⟩, Identity.defaultStem⟩
    let t : Settings := { s with interval := ⟨0x3e012e0be826d694⟩ }
    s.timeout.Usable ∧ s.interval.Usable ∧ 5 / 10 ^ 10 < s.interval.value ∧ s.check = .ok () ∧
      t.interval.Usable ∧ t.interval.value ≤ 5 / 10 ^ 10 ∧ t.check = .error .emptyInterval := by
  intro s t
  have htimeout : s.timeout.Usable := (usable_iff _).mpr (by decide +kernel)
  have hinterval : s.interval.Usable := (usable_iff _).mpr (by decide +kernel)
  have hless : t.interval.Usable := (usable_iff _).mpr (by decide +kernel)
  have hlong : 5 / 10 ^ 10 < s.interval.value := by
    have hunits : 5 * unitsPerOne < s.interval.units * 10 ^ 10 := by decide +kernel
    rw [value_of_unsigned (by decide +kernel), div_lt_div_iff₀ (by norm_num) cast_unitsPerOne_pos]
    exact_mod_cast hunits
  have hshort : t.interval.value ≤ 5 / 10 ^ 10 := by
    have hunits : t.interval.units * 10 ^ 10 ≤ 5 * unitsPerOne := by decide +kernel
    rw [value_of_unsigned (by decide +kernel), div_le_div_iff₀ cast_unitsPerOne_pos (by norm_num)]
    exact_mod_cast hunits
  have hempty := (check_by_value t).2.1 .emptyInterval
  exact ⟨htimeout, hinterval, hlong, (check_by_value s).1.mpr ⟨htimeout, hinterval, hlong⟩, hless,
    hshort, hempty.mpr (Or.inr (Or.inr ⟨htimeout, hless, hshort, rfl⟩))⟩

end Settings

end RollCall
