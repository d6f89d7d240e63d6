import RollCall.Number.Shortest

/-!
# Doubles as text

Two layouts of the shortest decimal of a double. The plain layout never uses an exponent and
leaves whole numbers without a point. The layout of data documents keeps a point in whole numbers
and turns to an exponent outside `10⁻⁵ … 10¹⁶`.
-/

namespace RollCall.Binary64

def zeros (n : Nat) : List Char := List.replicate n '0'

/-- Digits with a point after the first `point` of them; a point left of all digits is reached
through zeros. -/
def withPoint (digits : List Char) (point : Int) : List Char :=
  if 0 < point then digits.take point.toNat ++ '.' :: digits.drop point.toNat
  else ['0', '.'] ++ zeros (-point).toNat ++ digits

def signText (x : Binary64) : List Char := if x.negative then ['-'] else []

/-- A finite magnitude without an exponent and without a point in whole numbers. -/
def plainMagnitude (x : Binary64) : List Char :=
  if x.isZero then ['0']
  else
    let d := x.shortest .up
    let digits := Text.numeral d.digits
    if 0 ≤ d.exponent then digits ++ zeros d.exponent.toNat
    else withPoint digits (digits.length + d.exponent)

/-- The plain layout, which also names the values that are not finite. -/
def plainText (x : Binary64) : String :=
  if x.isNaN then "NaN"
  else if x.isInfinite then String.ofList (x.signText ++ ['i', 'n', 'f'])
  else String.ofList (x.signText ++ x.plainMagnitude)

/-- A finite magnitude in a data document. The first digit stands at `10 ^ leading`. -/
def documentMagnitude (x : Binary64) : List Char :=
  if x.isZero then ['0', '.', '0']
  else
    let d := x.shortest .toEven
    let digits := Text.numeral d.digits
    let leading : Int := digits.length + d.exponent - 1
    if -5 ≤ leading ∧ leading ≤ 15 then
      if 0 ≤ d.exponent then digits ++ zeros d.exponent.toNat ++ ['.', '0']
      else withPoint digits (leading + 1)
    else
      let mantissa := if digits.length = 1 then digits else withPoint digits 1
      let sign := if leading < 0 then '-' else '+'
      mantissa ++ 'e' :: sign :: Text.numeral leading.natAbs

def documentText (x : Binary64) : String := String.ofList (x.signText ++ x.documentMagnitude)

end RollCall.Binary64
