/-!
# Decimal numerals

A natural number as its decimal digits, the number that a row of digits stands for, and the sign
and the digits at the front of a text. Main statements: `value_numeral` (reading undoes writing),
`numeral_all_digits`, `takeSign_append` and `spanDigits_append`.
-/

namespace RollCall.Text

def isDigit (c : Char) : Bool := 48 ≤ c.toNat && c.toNat ≤ 57

def digitValue (c : Char) : Nat := c.toNat - 48

def digitChar (n : Nat) : Char := Char.ofNat (48 + n)

/-- The number that a row of digits stands for; the empty row stands for zero. -/
def value (cs : List Char) : Nat := cs.foldl (fun n c => 10 * n + digitValue c) 0

/-- The decimal digits of a number, without leading zeros. -/
def numeral (n : Nat) : List Char :=
  if n < 10 then [digitChar n] else numeral (n / 10) ++ [digitChar (n % 10)]
termination_by n
decreasing_by omega

def numeralText (n : Nat) : String := String.ofList (numeral n)

def digitCount (n : Nat) : Nat := if n < 10 then 1 else digitCount (n / 10) + 1
termination_by n
decreasing_by omega

/-- Splits a text after its leading digits. -/
def spanDigits (cs : List Char) : List Char × List Char :=
  (cs.takeWhile isDigit, cs.dropWhile isDigit)

/-- Takes an optional sign off a text; true for a minus. -/
def takeSign : List Char → Bool × List Char
  | '-' :: cs => (true, cs)
  | '+' :: cs => (false, cs)
  | cs => (false, cs)

theorem digitChar_toNat {n : Nat} (h : n < 10) : (digitChar n).toNat = 48 + n := by
  have hv : (48 + n).isValidChar := Or.inl (by omega)
  have hchar : digitChar n = Char.ofNatAux (48 + n) hv := by
    rw [digitChar, Char.ofNat, dif_pos hv]
  rw [hchar]
  rfl

theorem digitValue_digitChar {n : Nat} (h : n < 10) : digitValue (digitChar n) = n := by
  rw [digitValue, digitChar_toNat h]
  omega

theorem isDigit_digitChar {n : Nat} (h : n < 10) : isDigit (digitChar n) = true := by
  simp only [isDigit, digitChar_toNat h, Bool.and_eq_true, decide_eq_true_eq]
  omega

theorem value_append_digit (cs : List Char) (c : Char) :
    value (cs ++ [c]) = 10 * value cs + digitValue c := by
  simp [value, List.foldl_append]

@[simp] theorem value_numeral (n : Nat) : value (numeral n) = n := by
  induction n using Nat.strongRecOn with
  | ind n ih =>
      rw [numeral]
      split
      · rename_i h
        simp [value, digitValue_digitChar h]
      · rename_i h
        rw [value_append_digit, ih (n / 10) (by omega),
          digitValue_digitChar (Nat.mod_lt n (by omega))]
        omega

theorem numeral_all_digits (n : Nat) : (numeral n).all isDigit = true := by
  induction n using Nat.strongRecOn with
  | ind n ih =>
      rw [numeral]
      split
      · rename_i h
        simp [isDigit_digitChar h]
      · rename_i h
        simp [ih (n / 10) (by omega), isDigit_digitChar (Nat.mod_lt n (by omega : 0 < 10))]

theorem isDigit_of_mem_numeral {n : Nat} {c : Char} (hc : c ∈ numeral n) : isDigit c = true :=
  List.all_eq_true.mp (numeral_all_digits n) c hc

theorem numeral_ne_nil (n : Nat) : numeral n ≠ [] := by
  rw [numeral]
  split <;> simp

theorem length_numeral (n : Nat) : (numeral n).length = digitCount n := by
  induction n using Nat.strongRecOn with
  | ind n ih =>
      rw [numeral, digitCount]
      split
      · rfl
      · rename_i h
        simp [ih (n / 10) (by omega)]

/-! ## What is at the front of a text -/

theorem spanDigits_join (cs : List Char) : (spanDigits cs).1 ++ (spanDigits cs).2 = cs :=
  List.takeWhile_append_dropWhile

theorem spanDigits_length (cs : List Char) :
    (spanDigits cs).1.length + (spanDigits cs).2.length = cs.length := by
  rw [← List.length_append, spanDigits_join]

theorem isDigit_of_mem_spanDigits {cs : List Char} {c : Char} (hc : c ∈ (spanDigits cs).1) :
    isDigit c = true :=
  List.all_eq_true.mp List.all_takeWhile c hc

/-- All digits that are in front are split off. -/
theorem spanDigits_append {digits rest : List Char} (hdigits : ∀ c ∈ digits, isDigit c = true)
    (hrest : ∀ c, rest.head? = some c → isDigit c = false) :
    spanDigits (digits ++ rest) = (digits, rest) := by
  have hspan : rest.takeWhile isDigit = [] ∧ rest.dropWhile isDigit = rest := by
    cases rest with
    | nil => exact ⟨rfl, rfl⟩
    | cons c cs =>
      have hc := hrest c rfl
      simp [hc]
  rw [spanDigits, List.takeWhile_append_of_pos hdigits, List.dropWhile_append_of_pos hdigits,
    hspan.1, hspan.2, List.append_nil]

/-- A sign, which may be left out, and whether it is a minus. -/
inductive IsSign : List Char → Bool → Prop
  | absent : IsSign [] false
  | plus : IsSign ['+'] false
  | minus : IsSign ['-'] true

theorem exists_sign (cs : List Char) :
    ∃ sign, IsSign sign (takeSign cs).1 ∧ cs = sign ++ (takeSign cs).2 := by
  unfold takeSign
  split
  · exact ⟨['-'], .minus, rfl⟩
  · exact ⟨['+'], .plus, rfl⟩
  · exact ⟨[], .absent, rfl⟩

theorem takeSign_length (cs : List Char) : (takeSign cs).2.length ≤ cs.length := by
  unfold takeSign
  split <;> simp

/-- A text that begins with no sign. -/
def Unsigned (cs : List Char) : Prop := ∀ c, cs.head? = some c → c ≠ '-' ∧ c ≠ '+'

theorem ne_sign_of_isDigit {c : Char} (hdigit : isDigit c = true) : c ≠ '-' ∧ c ≠ '+' := by
  constructor
  · rintro rfl
    exact absurd hdigit (by decide)
  · rintro rfl
    exact absurd hdigit (by decide)

theorem takeSign_append {sign body : List Char} {negative : Bool} (hsign : IsSign sign negative)
    (hbody : Unsigned body) : takeSign (sign ++ body) = (negative, body) := by
  cases hsign with
  | plus => rfl
  | minus => rfl
  | absent =>
    cases body with
    | nil => rfl
    | cons c cs =>
      obtain ⟨hminus, hplus⟩ := hbody c rfl
      rw [List.nil_append, takeSign]
      · rintro rest ⟨⟩
        exact hminus rfl
      · rintro rest ⟨⟩
        exact hplus rfl

end RollCall.Text
