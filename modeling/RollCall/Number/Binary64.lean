/-!
# Doubles

A double is its 64 bits: a sign and a magnitude. Every finite magnitude is a whole number of
the least positive one, 2⁻¹⁰⁷⁴, and `units` counts them, so that rounding, order and arithmetic
are arithmetic on natural numbers. A result is the exact one rounded to the nearest double, and
a result half way between two goes to the one whose last bit is zero.

Main statements: `roundHalfEven` is within half a unit and monotone.
-/

namespace RollCall

/-- The whole number nearest to a quotient; a half goes to the even neighbour. -/
def roundHalfEven (num den : Nat) : Nat :=
  let q := num / den
  let twice := 2 * (num % den)
  if den < twice ∨ (twice = den ∧ q % 2 = 1) then q + 1 else q

theorem two_mul_roundHalfEven_le {num den : Nat} (h : 0 < den) :
    2 * (roundHalfEven num den * den) ≤ 2 * num + den := by
  have hq := Nat.div_add_mod num den
  have hr := Nat.mod_lt num h
  have hc : num / den * den = den * (num / den) := Nat.mul_comm _ _
  simp only [roundHalfEven]
  split
  · rw [Nat.add_mul]
    omega
  · omega

theorem two_mul_le_roundHalfEven {num den : Nat} (h : 0 < den) :
    2 * num ≤ 2 * (roundHalfEven num den * den) + den := by
  have hq := Nat.div_add_mod num den
  have hr := Nat.mod_lt num h
  have hc : num / den * den = den * (num / den) := Nat.mul_comm _ _
  simp only [roundHalfEven]
  split
  · rw [Nat.add_mul]
    omega
  · omega

theorem roundHalfEven_mul_left {n den : Nat} (h : 0 < den) : roundHalfEven (n * den) den = n := by
  have hd : n * den / den = n := Nat.mul_div_cancel n h
  have hm : n * den % den = 0 := Nat.mul_mod_left n den
  simp only [roundHalfEven, hd, hm]
  rw [if_neg]
  omega

theorem roundHalfEven_mono {a b den : Nat} (hab : a ≤ b) :
    roundHalfEven a den ≤ roundHalfEven b den := by
  rcases Nat.eq_zero_or_pos den with rfl | h
  · simp only [roundHalfEven, Nat.div_zero, Nat.mod_zero]
    split <;> split <;> omega
  · have hdiv : a / den ≤ b / den := Nat.div_le_div_right hab
    rcases Nat.lt_or_eq_of_le hdiv with hlt | heq
    · simp only [roundHalfEven]
      split <;> split <;> omega
    · have ha := Nat.div_add_mod a den
      have hb := Nat.div_add_mod b den
      rw [heq] at ha
      simp only [roundHalfEven, heq]
      split <;> split <;> omega

/-- A double: a sign bit, eleven bits of exponent, fifty-two bits of fraction. -/
structure Binary64 where
  bits : UInt64
  deriving DecidableEq

namespace Binary64

/-- The bit of a significand that is not stored. -/
def hiddenBit : Nat := Nat.pow 2 52

/-- The magnitudes from here on are not finite: this one is infinity, the others are no numbers. -/
def infinityMagnitude : Nat := 2047 * hiddenBit

def negative (x : Binary64) : Bool := Nat.pow 2 63 ≤ x.bits.toNat

def magnitude (x : Binary64) : Nat := x.bits.toNat % Nat.pow 2 63

def isNaN (x : Binary64) : Bool := infinityMagnitude < x.magnitude

def isInfinite (x : Binary64) : Bool := x.magnitude = infinityMagnitude

def isFinite (x : Binary64) : Bool := x.magnitude < infinityMagnitude

def isZero (x : Binary64) : Bool := x.magnitude = 0

/-- How often the significand is doubled: zero for the smallest magnitudes. -/
def scale (x : Binary64) : Nat := x.magnitude / hiddenBit - 1

/-- The fraction, with the leading one that magnitudes from 2⁻¹⁰²² on leave out. -/
def significand (x : Binary64) : Nat :=
  if x.magnitude < hiddenBit then x.magnitude else hiddenBit + x.magnitude % hiddenBit

/-- One is this many times the least positive magnitude. -/
def unitsPerOne : Nat := Nat.pow 2 1074

/-- A finite magnitude, counted in the least positive one. -/
def units (x : Binary64) : Nat := x.significand * Nat.pow 2 x.scale

/-- The magnitude nearest to a quotient of counts of the least positive magnitude. What is too
large for a finite magnitude is infinity. -/
def nearestMagnitude (num den : Nat) : Nat :=
  let shift := (num / den).log2 - 52
  min (shift * hiddenBit + roundHalfEven num (den * Nat.pow 2 shift)) infinityMagnitude

def ofMagnitude (negative : Bool) (magnitude : Nat) : Binary64 :=
  ⟨UInt64.ofNat (if negative then Nat.pow 2 63 + magnitude else magnitude)⟩

/-- The double nearest to a quotient of natural numbers, with a sign. -/
def ofRatio (negative : Bool) (num den : Nat) : Binary64 :=
  ofMagnitude negative (nearestMagnitude (num * unitsPerOne) den)

def ofNat (n : Nat) : Binary64 := ofRatio false n 1

def infinity (negative : Bool) : Binary64 := ofMagnitude negative infinityMagnitude

def notANumber : Binary64 := ofMagnitude false (infinityMagnitude + Nat.pow 2 51)

def zero (negative : Bool) : Binary64 := ofMagnitude negative 0

def neg (x : Binary64) : Binary64 := ofMagnitude (!x.negative) x.magnitude

/-- The rounded sum of two finite doubles without a sign. -/
def add (x y : Binary64) : Binary64 := ofMagnitude false (nearestMagnitude (x.units + y.units) 1)

/-- The rounded product of two finite doubles without a sign. -/
def mul (x y : Binary64) : Binary64 :=
  ofMagnitude false (nearestMagnitude (x.units * y.units) unitsPerOne)

/-- The rounded quotient of two finite doubles without a sign, the second not zero. -/
def div (x y : Binary64) : Binary64 := ofRatio false x.units y.units

/-- Equality of values: no number equals anything, and the two zeros are equal. -/
def sameValue (x y : Binary64) : Bool :=
  !x.isNaN && !y.isNaN && (x == y || (x.isZero && y.isZero))

end Binary64

end RollCall
