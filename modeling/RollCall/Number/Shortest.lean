import RollCall.Number.Binary64
import RollCall.Text.Numeral

/-!
# The shortest decimal of a double

The decimal with the fewest digits among those that round to a given double, and of these the
one nearest to it. Candidates are searched grid by grid, one digit more each time; on each grid
only the two neighbours of the value can lie among the numbers that round to it.
-/

namespace RollCall

/-- The number `digits · 10 ^ exponent`. -/
structure Decimal where
  digits : Nat
  exponent : Int
  deriving DecidableEq

namespace Decimal

def ratio (d : Decimal) : Nat × Nat :=
  (d.digits * Nat.pow 10 d.exponent.toNat, Nat.pow 10 (-d.exponent).toNat)

/-- Takes zeros off the end of the digits; at most as many as `fuel`. -/
def stripZeros : Nat → Decimal → Decimal
  | 0, d => d
  | fuel + 1, d =>
    if d.digits ≠ 0 ∧ d.digits % 10 = 0 then stripZeros fuel ⟨d.digits / 10, d.exponent + 1⟩
    else d

end Decimal

/-- Which of two equally near candidates is taken. -/
inductive TieRule
  | up
  | toEven
  deriving DecidableEq

namespace Binary64

/-- The exponent of the first digit of `num / den`: the largest `e` with `10 ^ e ≤ num / den`. -/
def leadingExponent (num den : Nat) : Int :=
  if den ≤ num then (Text.digitCount (num / den) : Int) - 1
  else -(Text.digitCount ((den - 1) / num) : Int)

/-- Whether a decimal lies among the numbers that round to a finite positive double: between the
middles to its neighbours, the middles included when the last bit is zero. The neighbour below a
power of two is half as far away. -/
def roundsFrom (x : Binary64) (d : Decimal) : Bool :=
  let gap := Nat.pow 2 x.scale
  let below := if x.significand = hiddenBit ∧ 0 < x.scale then gap else 2 * gap
  let (num, den) := d.ratio
  let here := 4 * num * unitsPerOne
  let low := (4 * x.units - below) * den
  let high := (4 * x.units + 2 * gap) * den
  if x.significand % 2 = 0 then low ≤ here && here ≤ high else low < here && here < high

/-- The candidate with a given number of digits, if one of the two neighbours on that grid rounds
to the double. -/
def candidate? (tie : TieRule) (x : Binary64) (digits : Nat) : Option Decimal :=
  let exponent := leadingExponent x.units unitsPerOne - ((digits : Int) - 1)
  let num := x.units * Nat.pow 10 (-exponent).toNat
  let den := unitsPerOne * Nat.pow 10 exponent.toNat
  let lower : Decimal := ⟨num / den, exponent⟩
  let upper : Decimal := ⟨num / den + 1, exponent⟩
  match x.roundsFrom lower, x.roundsFrom upper with
  | true, false => some lower
  | false, true => some upper
  | false, false => none
  | true, true =>
    let twice := 2 * (num % den)
    if twice < den then some lower
    else if den < twice then some upper
    else
      match tie with
      | .up => some upper
      | .toEven => if lower.digits % 2 = 0 then some lower else some upper

/-- The shortest decimal that rounds to a finite positive double. Seventeen digits always
suffice. -/
def shortest (tie : TieRule) (x : Binary64) : Decimal :=
  match (List.range 17).findSome? fun n => candidate? tie x (n + 1) with
  | some d => d.stripZeros 17
  | none => ⟨0, 0⟩

end Binary64

end RollCall
