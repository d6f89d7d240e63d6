import RollCall.Proofs.WrittenNumber

/-!
# The grammar of documents

What a document may look like, apart from what it is read for. A value is a word, a number, a
string, a list of values or an object of named values, to any depth, with blanks wherever they may
stand. A string is first a row of characters and escapes; whether it spells a text is another
matter, for an escape may be half of a surrogate pair.

Every value is passed over as one, whatever it is and wherever it stands.
-/

namespace RollCall.Json

/-! ## Parts of a value -/

structure Gap where
  text : List Char
  blank : ∀ c ∈ text, isBlank c = true

/-- Four hexadecimal digits and the number that they stand for. -/
inductive IsHex : List Char → ℕ → Prop
  | digits {a b c d : Char} {i j k l : ℕ} :
      hexValue? a = some i → hexValue? b = some j → hexValue? c = some k → hexValue? d = some l →
        IsHex [a, b, c, d] (((i * 16 + j) * 16 + k) * 16 + l)

/-- What may stand between the quotes of a string. -/
inductive IsChars : List Char → Prop
  | nil : IsChars []
  | plain {c : Char} {cs : List Char} :
      c ≠ '"' → c ≠ '\\' → 0x20 ≤ c.toNat → IsChars cs → IsChars (c :: cs)
  | short {c : Char} {cs : List Char} :
      (shortEscape? c).isSome = true → IsChars cs → IsChars ('\\' :: c :: cs)
  | unit {digits cs : List Char} {n : ℕ} :
      IsHex digits n → IsChars cs → IsChars ('\\' :: 'u' :: (digits ++ cs))

/-- A surrogate that begins a pair. -/
def IsHigh (n : ℕ) : Prop := 0xd800 ≤ n ∧ n ≤ 0xdbff

/-- A surrogate that ends a pair. -/
def IsLow (n : ℕ) : Prop := 0xdc00 ≤ n ∧ n ≤ 0xdfff

instance (n : ℕ) : Decidable (IsHigh n) := inferInstanceAs (Decidable (_ ∧ _))

instance (n : ℕ) : Decidable (IsLow n) := inferInstanceAs (Decidable (_ ∧ _))

theorem IsHigh.not_low {n : ℕ} (hhigh : IsHigh n) : ¬ IsLow n := by
  rintro ⟨hge, -⟩
  obtain ⟨-, hle⟩ := hhigh
  omega

/-- What stands between the quotes of a string spells a text: every escape stands for a character,
and only two surrogates together for one. -/
inductive Spells : List Char → List Char → Prop
  | nil : Spells [] []
  | plain {c : Char} {cs text : List Char} :
      c ≠ '"' → c ≠ '\\' → 0x20 ≤ c.toNat → Spells cs text → Spells (c :: cs) (c :: text)
  | short {c e : Char} {cs text : List Char} :
      shortEscape? c = some e → Spells cs text → Spells ('\\' :: c :: cs) (e :: text)
  | unit {digits cs text : List Char} {n : ℕ} :
      IsHex digits n → ¬ IsHigh n → ¬ IsLow n → Spells cs text →
        Spells ('\\' :: 'u' :: (digits ++ cs)) (Char.ofNat n :: text)
  | pair {digits digits' cs text : List Char} {high low : ℕ} :
      IsHex digits high → IsHigh high → IsHex digits' low → IsLow low → Spells cs text →
        Spells ('\\' :: 'u' :: (digits ++ '\\' :: 'u' :: (digits' ++ cs)))
          (Char.ofNat (0x10000 + (high - 0xd800) * 0x400 + (low - 0xdc00)) :: text)

theorem Spells.isChars {cs text : List Char} (hspells : Spells cs text) : IsChars cs := by
  induction hspells with
  | nil => exact .nil
  | plain hquote hback hlow _ ih => exact .plain hquote hback hlow ih
  | short hc _ ih => exact .short (by rw [hc]; rfl) ih
  | unit hdigits _ _ _ ih => exact .unit hdigits ih
  | pair hdigits _ hdigits' _ _ ih => exact .unit hdigits (.unit hdigits' ih)

def isPlain (c : Char) : Bool := c != '"' && c != '\\' && decide (0x20 ≤ c.toNat)

theorem spells_plain {text : List Char} (htext : text.all isPlain = true) : Spells text text := by
  induction text with
  | nil => exact .nil
  | cons c text ih =>
    simp only [List.all_cons, isPlain, Bool.and_eq_true, bne_iff_ne, decide_eq_true_eq] at htext
    obtain ⟨⟨⟨hquote, hback⟩, hlow⟩, htext⟩ := htext
    exact .plain hquote hback hlow (ih htext)

/-- A point and the digits behind it, which may be left out together. -/
inductive IsFraction : List Char → Prop
  | absent : IsFraction []
  | given {digits : List Char} :
      digits ≠ [] → (∀ d ∈ digits, Text.isDigit d = true) → IsFraction ('.' :: digits)

/-- A power of ten, which may be left out. -/
inductive IsExponent : List Char → Prop
  | absent : IsExponent []
  | given {c : Char} {sign digits : List Char} {negative : Bool} :
      c = 'e' ∨ c = 'E' → Text.IsSign sign negative →
        digits ≠ [] → (∀ d ∈ digits, Text.isDigit d = true) → IsExponent (c :: (sign ++ digits))

inductive IsNumber : List Char → Prop
  | parts {sign whole fraction exponent : List Char} :
      sign = [] ∨ sign = ['-'] → Whole whole → IsFraction fraction → IsExponent exponent →
        IsNumber (sign ++ (whole ++ (fraction ++ exponent)))

/-! ## Values -/

/-- An element of a list as it stands in a document. -/
structure Slot where
  before : Gap
  value : List Char
  after : Gap

def Slot.text (s : Slot) : List Char := s.before.text ++ (s.value ++ s.after.text)

/-- A member of an object as it stands in a document. -/
structure Entry where
  before : Gap
  /-- What stands between the quotes of the name. -/
  spelling : List Char
  spelled : IsChars spelling
  beforeColon : Gap
  beforeValue : Gap
  value : List Char
  after : Gap

/-- What stands behind the opening quote of the name. -/
def Entry.rest (e : Entry) : List Char :=
  e.spelling ++ '"' :: (e.beforeColon.text ++ ':' :: (e.beforeValue.text ++
    (e.value ++ e.after.text)))

def Entry.text (e : Entry) : List Char := e.before.text ++ '"' :: e.rest

def listText (slots : List Slot) (last : Gap) : List Char :=
  '[' :: ([','].intercalate (slots.map Slot.text) ++ (last.text ++ [']']))

def objectText (entries : List Entry) (last : Gap) : List Char :=
  '\x7b' :: ([','].intercalate (entries.map Entry.text) ++ (last.text ++ ['\x7d']))

/-- A well-formed value, without blanks around it. -/
inductive IsValue : List Char → Prop
  | null : IsValue ['n', 'u', 'l', 'l']
  | true : IsValue ['t', 'r', 'u', 'e']
  | false : IsValue ['f', 'a', 'l', 's', 'e']
  | number {text : List Char} : IsNumber text → IsValue text
  | string {cs : List Char} : IsChars cs → IsValue ('"' :: (cs ++ ['"']))
  | list {slots : List Slot} (last : Gap) :
      (∀ s ∈ slots, IsValue s.value) → IsValue (listText slots last)
  | object {entries : List Entry} (last : Gap) :
      (∀ e ∈ entries, IsValue e.value) → IsValue (objectText entries last)

/-- What may follow a value: blanks, and then the next part of a list or an object, or the end. -/
def Ends (rest : List Char) : Prop :=
  ∀ c, (skipBlanks rest).head? = some c → c = ',' ∨ c = ']' ∨ c = '\x7d'

/-! ## Blanks -/

theorem skipBlanks_gap (g : Gap) (cs : List Char) : skipBlanks (g.text ++ cs) = skipBlanks cs :=
  List.dropWhile_append_of_pos g.blank

theorem skipBlanks_gap_cons (g : Gap) {c : Char} (hc : isBlank c = false) (cs : List Char) :
    skipBlanks (g.text ++ c :: cs) = c :: cs := by
  rw [skipBlanks_gap, skipBlanks_of_not_blank hc]

theorem ends_nil : Ends [] := by
  intro c hc
  cases hc

theorem ends_gap (g : Gap) {cs : List Char} (hcs : Ends cs) : Ends (g.text ++ cs) := by
  intro c hc
  rw [skipBlanks_gap] at hc
  exact hcs c hc

theorem ends_cons {c : Char} (hc : c = ',' ∨ c = ']' ∨ c = '\x7d') (cs : List Char) :
    Ends (c :: cs) := by
  intro d hd
  have hblank : isBlank c = false := by
    rcases hc with rfl | rfl | rfl <;> rfl
  rw [skipBlanks_of_not_blank hblank] at hd
  cases hd
  exact hc

theorem Ends.head {rest : List Char} (hrest : Ends rest) {c : Char} (hc : rest.head? = some c) :
    isBlank c = true ∨ c = ',' ∨ c = ']' ∨ c = '\x7d' := by
  by_cases hblank : isBlank c = true
  · exact Or.inl hblank
  · right
    obtain ⟨cs, rfl⟩ := List.head?_eq_some_iff.mp hc
    apply hrest c
    rw [skipBlanks_of_not_blank (eq_false_of_ne_true hblank)]
    rfl

theorem Ends.ne {rest : List Char} (hrest : Ends rest) {d : Char} (hblank : isBlank d = false)
    (hd : d ≠ ',' ∧ d ≠ ']' ∧ d ≠ '\x7d') : rest.head? ≠ some d := by
  intro hhead
  rcases hrest.head hhead with h | h | h | h
  · rw [hblank] at h
    cases h
  · exact hd.1 h
  · exact hd.2.1 h
  · exact hd.2.2 h

end RollCall.Json
