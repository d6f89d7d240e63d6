import RollCall.Json.Fault
import RollCall.Number.Layout

/-!
# Numbers of a document

A number that is read keeps the digits that fit sixty-four bits and scales them by a double power
of ten, rounding at each step; the digits beyond only move the scale. A whole number without
fraction and exponent that fits sixty-four bits is kept exactly. A number that is only passed
over may be of any size.

Main statements: `takeNumber_length` and `passNumber_length` (something is always taken).
-/

namespace RollCall.Json

open Text (takeSign takeSign_length spanDigits spanDigits_length)

inductive Number
  /-- A whole number below 2⁶⁴, written without sign, fraction and exponent. -/
  | natural (n : Nat)
  | real (x : Binary64)

namespace Number

def toBinary64 : Number → Binary64
  | natural n => Binary64.ofNat n
  | real x => x

end Number

/-- Takes digits into a significand as long as it fits sixty-four bits. The result is the
significand and the number of digits left out. -/
def absorb (significand : Nat) : List Char → Nat × Nat
  | [] => (significand, 0)
  | d :: ds =>
    let next := 10 * significand + Text.digitValue d
    if next < Nat.pow 2 64 then absorb next ds else (significand, ds.length + 1)

def powerOfTen (n : Nat) : Binary64 := Binary64.ofNat (Nat.pow 10 n)

/-- A significand scaled by a power of ten, rounded after each step; a scale below `10⁻³⁰⁸` takes
two steps. There is none for what is too large for a double. -/
def scaled? (significand : Nat) (exponent : Int) : Option Binary64 :=
  let f := Binary64.ofNat significand
  if significand = 0 then some f
  else if 308 < exponent then none
  else if 0 ≤ exponent then
    let x := f.mul (powerOfTen exponent.toNat)
    if x.isInfinite then none else some x
  else if -308 ≤ exponent then some (f.div (powerOfTen (-exponent).toNat))
  else if exponent < -616 then some (Binary64.zero false)
  else some ((f.div (powerOfTen 308)).div (powerOfTen (-exponent - 308).toNat))

def realOf (negative : Bool) (significand : Nat) (exponent : Int) : Except Fault Number :=
  match scaled? significand exponent with
  | none => .error .malformed
  | some x => .ok (.real (if negative then x.neg else x))

def takeExponent (negative : Bool) (significand : Nat) (exponent : Int) (cs : List Char) :
    Taken Number :=
  let (down, cs) := takeSign cs
  match cs with
  | [] => .error .ended
  | c :: _ =>
    if Text.isDigit c then
      let shift : Int := Text.value (spanDigits cs).1
      (realOf negative significand (if down then exponent - shift else exponent + shift)).map
        (·, (spanDigits cs).2)
    else .error .malformed

theorem takeExponent_length {negative : Bool} {significand : Nat} {exponent : Int}
    {cs rest : List Char} {n : Number}
    (h : takeExponent negative significand exponent cs = .ok (n, rest)) :
    rest.length ≤ cs.length := by
  simp only [takeExponent] at h
  split at h
  · cases h
  · rename_i hcs
    split at h
    · obtain ⟨x, -, hx⟩ := exists_of_map_eq_ok h
      cases hx
      have hs := spanDigits_length (takeSign cs).2
      have ht := takeSign_length cs
      omega
    · cases h

def takeScale (negative : Bool) (significand : Nat) (exponent : Int) (cs : List Char) :
    Taken Number :=
  match cs with
  | 'e' :: rest => takeExponent negative significand exponent rest
  | 'E' :: rest => takeExponent negative significand exponent rest
  | cs => (realOf negative significand exponent).map (·, cs)

theorem takeScale_length {negative : Bool} {significand : Nat} {exponent : Int}
    {cs rest : List Char} {n : Number}
    (h : takeScale negative significand exponent cs = .ok (n, rest)) :
    rest.length ≤ cs.length := by
  unfold takeScale at h
  split at h
  · exact Nat.le_succ_of_le (takeExponent_length h)
  · exact Nat.le_succ_of_le (takeExponent_length h)
  · obtain ⟨x, -, hx⟩ := exists_of_map_eq_ok h
    cases hx
    exact Nat.le_refl _

def takeFraction (negative : Bool) (significand : Nat) (exponent : Int) (cs : List Char) :
    Taken Number :=
  let (digits, rest) := spanDigits cs
  if digits.isEmpty then
    if rest.isEmpty then .error .ended else .error .malformed
  else
    let (significand, left) := absorb significand digits
    takeScale negative significand (exponent - (digits.length - left : Nat)) rest

theorem takeFraction_length {negative : Bool} {significand : Nat} {exponent : Int}
    {cs rest : List Char} {n : Number}
    (h : takeFraction negative significand exponent cs = .ok (n, rest)) :
    rest.length ≤ cs.length := by
  simp only [takeFraction] at h
  split at h
  · split at h <;> cases h
  · have hs := spanDigits_length cs
    have := takeScale_length h
    omega

def takeAfterWhole (negative : Bool) (whole : List Char) (cs : List Char) : Taken Number :=
  let (significand, left) := absorb 0 whole
  match cs with
  | '.' :: rest => takeFraction negative significand left rest
  | 'e' :: rest => takeExponent negative significand left rest
  | 'E' :: rest => takeExponent negative significand left rest
  | cs =>
    if left ≠ 0 then (realOf negative significand left).map (·, cs)
    else if negative then .ok (.real (Binary64.ofNat significand).neg, cs)
    else .ok (.natural significand, cs)

theorem takeAfterWhole_length {negative : Bool} {whole cs rest : List Char} {n : Number}
    (h : takeAfterWhole negative whole cs = .ok (n, rest)) : rest.length ≤ cs.length := by
  simp only [takeAfterWhole] at h
  split at h
  · exact Nat.le_succ_of_le (takeFraction_length h)
  · exact Nat.le_succ_of_le (takeExponent_length h)
  · exact Nat.le_succ_of_le (takeExponent_length h)
  · split at h
    · obtain ⟨x, -, hx⟩ := exists_of_map_eq_ok h
      cases hx
      exact Nat.le_refl _
    · split at h
      · cases h
        exact Nat.le_refl _
      · cases h
        exact Nat.le_refl _

/-- A number after its sign. A zero in front is followed by no other digit. -/
def takeDigits (negative : Bool) (cs : List Char) : Taken Number :=
  match cs with
  | [] => .error .ended
  | c :: tail =>
    if c = '0' then
      if (tail.head?.map Text.isDigit).getD false then .error .malformed
      else takeAfterWhole negative ['0'] tail
    else if Text.isDigit c then
      takeAfterWhole negative (c :: (spanDigits tail).1) (spanDigits tail).2
    else .error .malformed

theorem takeDigits_length {negative : Bool} {cs rest : List Char} {n : Number}
    (h : takeDigits negative cs = .ok (n, rest)) : rest.length < cs.length := by
  unfold takeDigits at h
  split at h
  · cases h
  · rename_i c tail
    split at h
    · split at h
      · cases h
      · exact Nat.lt_succ_of_le (takeAfterWhole_length h)
    · split at h
      · have hs := spanDigits_length tail
        have := takeAfterWhole_length h
        simp only [List.length_cons]
        omega
      · cases h

def takeNumber : List Char → Taken Number
  | '-' :: cs => takeDigits true cs
  | cs => takeDigits false cs

theorem takeNumber_length {cs rest : List Char} {n : Number} (h : takeNumber cs = .ok (n, rest)) :
    rest.length < cs.length := by
  unfold takeNumber at h
  split at h
  · exact Nat.lt_succ_of_lt (takeDigits_length h)
  · exact takeDigits_length h

def passExponent (cs : List Char) : Except Fault (List Char) :=
  let (_, cs) := takeSign cs
  if (spanDigits cs).1.isEmpty then .error .malformed else .ok (spanDigits cs).2

def passAfterWhole : List Char → Except Fault (List Char)
  | '.' :: cs =>
    if (spanDigits cs).1.isEmpty then .error .malformed
    else
      match (spanDigits cs).2 with
      | 'e' :: rest => passExponent rest
      | 'E' :: rest => passExponent rest
      | rest => .ok rest
  | 'e' :: cs => passExponent cs
  | 'E' :: cs => passExponent cs
  | cs => .ok cs

def passDigits : List Char → Except Fault (List Char)
  | [] => .error .malformed
  | c :: tail =>
    if c = '0' then
      if (tail.head?.map Text.isDigit).getD false then .error .malformed else passAfterWhole tail
    else if Text.isDigit c then passAfterWhole (spanDigits tail).2
    else .error .malformed

def passNumber : List Char → Except Fault (List Char)
  | '-' :: cs => passDigits cs
  | cs => passDigits cs

theorem passExponent_length {cs rest : List Char} (h : passExponent cs = .ok rest) :
    rest.length ≤ cs.length := by
  simp only [passExponent] at h
  split at h
  · cases h
  · cases h
    have hs := spanDigits_length (takeSign cs).2
    have ht := takeSign_length cs
    omega

theorem passAfterWhole_length {cs rest : List Char} (h : passAfterWhole cs = .ok rest) :
    rest.length ≤ cs.length := by
  unfold passAfterWhole at h
  split at h
  · rename_i cs
    have hs := spanDigits_length cs
    split at h
    · cases h
    · split at h
      · rename_i hr
        have := passExponent_length h
        rw [hr] at hs
        simp only [List.length_cons] at hs ⊢
        omega
      · rename_i hr
        have := passExponent_length h
        rw [hr] at hs
        simp only [List.length_cons] at hs ⊢
        omega
      · cases h
        simp only [List.length_cons]
        omega
  · exact Nat.le_succ_of_le (passExponent_length h)
  · exact Nat.le_succ_of_le (passExponent_length h)
  · cases h
    exact Nat.le_refl _

theorem passDigits_length {cs rest : List Char} (h : passDigits cs = .ok rest) :
    rest.length < cs.length := by
  unfold passDigits at h
  split at h
  · cases h
  · rename_i c tail
    split at h
    · split at h
      · cases h
      · exact Nat.lt_succ_of_le (passAfterWhole_length h)
    · split at h
      · have hs := spanDigits_length tail
        have := passAfterWhole_length h
        simp only [List.length_cons]
        omega
      · cases h

theorem passNumber_length {cs rest : List Char} (h : passNumber cs = .ok rest) :
    rest.length < cs.length := by
  unfold passNumber at h
  split at h
  · exact Nat.lt_succ_of_lt (passDigits_length h)
  · exact passDigits_length h

/-- A double as it is written; there is no number for what is not finite. -/
def writtenNumber (x : Binary64) : List Char :=
  if x.isFinite then x.documentText.toList else ['n', 'u', 'l', 'l']

end RollCall.Json
