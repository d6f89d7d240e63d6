import RollCall.Number.Binary64
import RollCall.Text.Numeral

/-!
# Doubles read from text

The grammar is an optional sign, then `inf`, `infinity` or `nan` in any case, or digits with an
optional point (at least one digit on one of its sides) and an optional exponent. The value is
the double nearest to the decimal, so what is too large becomes infinity and what is too small
becomes zero.
-/

namespace RollCall.Binary64

open Text (takeSign spanDigits)

/-- The double nearest to `digits · 10 ^ exponent`. Far outside the range of doubles the power of
ten is not computed. -/
def ofDecimal (negative : Bool) (digits : Nat) (exponent : Int) : Binary64 :=
  if digits = 0 then zero negative
  else
    let point : Int := Text.digitCount digits + exponent
    if 320 < point then infinity negative
    else if point < -340 then zero negative
    else ofRatio negative (digits * Nat.pow 10 exponent.toNat) (Nat.pow 10 (-exponent).toNat)

/-- An exponent is a sign and at least one digit, and ends the text. -/
def readExponent? (cs : List Char) : Option Int :=
  let (negative, cs) := takeSign cs
  let (digits, rest) := spanDigits cs
  if digits.isEmpty || !rest.isEmpty then none
  else if negative then some (-(Text.value digits : Int)) else some (Text.value digits)

def readTail? : List Char → Option Int
  | [] => some 0
  | c :: cs => if c = 'e' ∨ c = 'E' then readExponent? cs else none

/-- A decimal without its sign. -/
def readDecimal? (negative : Bool) (cs : List Char) : Option Binary64 :=
  let (whole, rest) := spanDigits cs
  let (fraction, rest) :=
    match rest with
    | '.' :: rest => spanDigits rest
    | rest => ([], rest)
  if whole.isEmpty && fraction.isEmpty then none
  else (readTail? rest).map fun exponent =>
    ofDecimal negative (Text.value (whole ++ fraction)) (exponent - fraction.length)

def ofText? (text : List Char) : Option Binary64 :=
  let (negative, cs) := takeSign text
  let word := cs.map Char.toLower
  if word = ['i', 'n', 'f'] ∨ word = ['i', 'n', 'f', 'i', 'n', 'i', 't', 'y'] then
    some (infinity negative)
  else if word = ['n', 'a', 'n'] then
    some (if negative then notANumber.neg else notANumber)
  else readDecimal? negative cs

end RollCall.Binary64
