import Mathlib.Data.List.TakeDrop
import Mathlib.Data.List.TakeWhile
import RollCall.Number.Reading
import RollCall.Proofs.ShortestDecimal
import RollCall.Text.Blank

/-!
# Numbers as text

A number is a sign, which may be left out, and behind it a word for infinity or for what is no
number, or a decimal. The text between the blanks at the ends of another is determined by it, and
so is the number that a text shows: a text is read as a double exactly if it shows that double. A
decimal shows the double nearest to its exact value, however many digits it has and however large
or small its power of ten.
-/

namespace RollCall

namespace Text

/-- What is left of a text without the blanks at its two ends. -/
structure Trims (cs trimmed : List Char) : Prop where
  split : ∃ lead trail, cs = lead ++ (trimmed ++ trail) ∧ (∀ c ∈ lead, isBlank c = true) ∧
    ∀ c ∈ trail, isBlank c = true
  head : ∀ c, trimmed.head? = some c → isBlank c = false
  last : ∀ c, trimmed.getLast? = some c → isBlank c = false

theorem trims_trimBlanks (cs : List Char) : Trims cs (trimBlanks cs) := by
  refine ⟨?_, fun _ => trimBlanks_head, fun _ => trimBlanks_getLast⟩
  have hback : (cs.dropWhile isBlank) =
      trimBlanks cs ++ ((cs.dropWhile isBlank).reverse.takeWhile isBlank).reverse := by
    rw [trimBlanks, ← List.reverse_append, List.takeWhile_append_dropWhile, List.reverse_reverse]
  refine ⟨cs.takeWhile isBlank, ((cs.dropWhile isBlank).reverse.takeWhile isBlank).reverse,
    ?_, ?_, ?_⟩
  · rw [← hback, List.takeWhile_append_dropWhile]
  · intro c hc
    exact List.mem_takeWhile_imp hc
  · intro c hc
    exact List.mem_takeWhile_imp (List.mem_reverse.mp hc)

theorem dropWhile_append_of_head {p : Char → Bool} {lead cs : List Char}
    (hlead : ∀ c ∈ lead, p c = true) (hhead : ∀ c, cs.head? = some c → p c = false) :
    (lead ++ cs).dropWhile p = cs := by
  rw [List.dropWhile_append_of_pos hlead]
  cases cs with
  | nil => rfl
  | cons c cs =>
    have hc := hhead c rfl
    simp [hc]

theorem Trims.eq_trimBlanks {cs trimmed : List Char} (h : Trims cs trimmed) :
    trimmed = trimBlanks cs := by
  obtain ⟨⟨lead, trail, rfl, hlead, htrail⟩, hhead, hlast⟩ := h
  cases trimmed with
  | nil =>
    have hblank : ∀ c ∈ lead ++ trail, isBlank c = true := by
      intro c hc
      exact (List.mem_append.mp hc).elim (hlead c) (htrail c)
    have hnone : (lead ++ trail).dropWhile isBlank = [] := List.dropWhile_eq_nil_iff.mpr hblank
    rw [List.nil_append, trimBlanks, hnone]
    rfl
  | cons c cs =>
    have hfront : (lead ++ (c :: cs ++ trail)).dropWhile isBlank = c :: cs ++ trail :=
      dropWhile_append_of_head hlead hhead
    have hback : (trail.reverse ++ (c :: cs).reverse).dropWhile isBlank = (c :: cs).reverse := by
      apply dropWhile_append_of_head
      · intro d hd
        exact htrail d (List.mem_reverse.mp hd)
      · intro d hd
        exact hlast d (by rwa [List.head?_reverse] at hd)
    rw [trimBlanks, hfront, List.reverse_append, hback, List.reverse_reverse]

end Text

namespace Binary64

open Text (IsSign Unsigned takeSign spanDigits exists_sign takeSign_append spanDigits_append
  spanDigits_join)

/-! ## The grammar -/

def AllDigits (cs : List Char) : Prop := ∀ c ∈ cs, Text.isDigit c = true

/-- The power of ten behind a decimal, which may be left out. -/
inductive IsPower : List Char → ℤ → Prop
  | absent : IsPower [] 0
  | given {c : Char} {sign digits : List Char} {negative : Bool} :
      c = 'e' ∨ c = 'E' → IsSign sign negative → AllDigits digits → digits ≠ [] →
        IsPower (c :: (sign ++ digits))
          (if negative then -(Text.value digits : ℤ) else Text.value digits)

/-- Digits, with a point before, between or behind them or without one, and a power of ten: the
number of the digits and the exponent of its last one. -/
inductive IsDecimal : List Char → ℕ → ℤ → Prop
  | whole {digits power : List Char} {exponent : ℤ} :
      AllDigits digits → digits ≠ [] → IsPower power exponent →
        IsDecimal (digits ++ power) (Text.value digits) exponent
  | pointed {whole fraction power : List Char} {exponent : ℤ} :
      AllDigits whole → AllDigits fraction → whole ++ fraction ≠ [] → IsPower power exponent →
        IsDecimal (whole ++ '.' :: (fraction ++ power)) (Text.value (whole ++ fraction))
          (exponent - fraction.length)

/-- The word is infinity, in full or shortened, in capitals or not. -/
def IsInfinityWord (word : List Char) : Prop :=
  word.map Char.toLower = ['i', 'n', 'f'] ∨
    word.map Char.toLower = ['i', 'n', 'f', 'i', 'n', 'i', 't', 'y']

/-- The word for what is no number, in capitals or not. -/
def IsNaNWord (word : List Char) : Prop := word.map Char.toLower = ['n', 'a', 'n']

/-- The text shows the double: a decimal the one nearest to its exact value. -/
inductive Shows : List Char → Binary64 → Prop
  | infinite {sign word : List Char} {negative : Bool} :
      IsSign sign negative → IsInfinityWord word → Shows (sign ++ word) (infinity negative)
  | noNumber {sign word : List Char} {negative : Bool} :
      IsSign sign negative → IsNaNWord word →
        Shows (sign ++ word) (if negative then notANumber.neg else notANumber)
  | decimal {sign body : List Char} {negative : Bool} {digits : ℕ} {exponent : ℤ} :
      IsSign sign negative → IsDecimal body digits exponent →
        Shows (sign ++ body)
          (ofRatio negative (digits * 10 ^ exponent.toNat) (10 ^ (-exponent).toNat))

/-! ## The nearest double without shortcuts -/

theorem nearestMagnitude_of_huge {digits : ℕ} {exponent : ℤ} (hdigits : digits ≠ 0)
    (hhuge : 320 < Text.digitCount digits + exponent) :
    nearestMagnitude (digits * 10 ^ exponent.toNat * unitsPerOne) (10 ^ (-exponent).toNat) =
      infinityMagnitude := by
  have hfirst : 10 ^ (Text.digitCount digits - 1) ≤ digits :=
    Text.pow_digitCount_le (Nat.pos_of_ne_zero hdigits)
  have hcount := Text.digitCount_pos digits
  have hpower : 10 ^ 320 * 10 ^ (-exponent).toNat ≤ digits * 10 ^ exponent.toNat := by
    refine Nat.le_trans ?_ (Nat.mul_le_mul_right _ hfirst)
    rw [← Nat.pow_add, ← Nat.pow_add]
    exact Nat.pow_le_pow_right (by decide) (by omega)
  have hinfinite : unitsOf infinityMagnitude ≤ 10 ^ 320 * unitsPerOne := by decide +kernel
  rw [nearestMagnitude_eq, Nat.min_eq_right]
  apply le_nearest (Nat.pow_pos (by decide))
  refine Nat.le_trans (Nat.mul_le_mul_right _ hinfinite) ?_
  rw [Nat.mul_right_comm]
  exact Nat.mul_le_mul_right _ hpower

theorem nearestMagnitude_of_tiny {digits : ℕ} {exponent : ℤ}
    (htiny : Text.digitCount digits + exponent < -340) :
    nearestMagnitude (digits * 10 ^ exponent.toNat * unitsPerOne) (10 ^ (-exponent).toNat) = 0 := by
  have hnonpos : exponent.toNat = 0 := by omega
  have hlt : digits < 10 ^ Text.digitCount digits := Text.lt_pow_digitCount digits
  have hunits : 2 * unitsPerOne ≤ 10 ^ 325 := by decide +kernel
  have hscale : 0 < 10 ^ 325 := Nat.lt_of_lt_of_le (Nat.mul_pos (by decide) unitsPerOne_pos) hunits
  have hpower : 10 ^ Text.digitCount digits * 10 ^ 325 ≤ 10 ^ (-exponent).toNat := by
    rw [← Nat.pow_add]
    exact Nat.pow_le_pow_right (by decide) (by omega)
  have hhalf : 2 * (digits * unitsPerOne) < 10 ^ (-exponent).toNat :=
    calc 2 * (digits * unitsPerOne) = digits * (2 * unitsPerOne) := Nat.mul_left_comm _ _ _
      _ ≤ digits * 10 ^ 325 := Nat.mul_le_mul_left _ hunits
      _ < 10 ^ Text.digitCount digits * 10 ^ 325 :=
        Nat.mul_lt_mul_of_pos_right hlt hscale
      _ ≤ 10 ^ (-exponent).toNat := hpower
  have hzero : nearest (digits * unitsPerOne) (10 ^ (-exponent).toNat) = 0 := by
    refine Between.nearest_eq ?_ (Nat.pow_pos (by decide))
    have hunit : unitsOf 0 = 0 := rfl
    have hgap : gapBelow 0 = 1 := rfl
    have hscale : scaleOf 0 = 0 := rfl
    apply Between.of_lt
    · rw [hunit, hgap]
      omega
    · rw [hunit, hscale]
      omega
  rw [hnonpos, Nat.pow_zero, Nat.mul_one, nearestMagnitude_eq, hzero, Nat.zero_min]

/-- A decimal is read as the double nearest to its exact value. -/
theorem ofDecimal_eq (negative : Bool) (digits : ℕ) (exponent : ℤ) :
    ofDecimal negative digits exponent =
      ofRatio negative (digits * 10 ^ exponent.toNat) (10 ^ (-exponent).toNat) := by
  unfold ofDecimal
  split
  · rename_i hzero
    have hnone : ∀ den, nearestMagnitude 0 den = 0 := by
      intro den
      simp [nearestMagnitude, roundHalfEven]
    rw [hzero, Nat.zero_mul, ofRatio, Nat.zero_mul, hnone, zero]
  · rename_i hdigits
    simp only
    split
    · rename_i hhuge
      rw [ofRatio, nearestMagnitude_of_huge hdigits hhuge, infinity]
    · split
      · rename_i htiny
        rw [ofRatio, nearestMagnitude_of_tiny htiny, zero]
      · rfl

/-! ## Reading -/

theorem allDigits_spanDigits (cs : List Char) : AllDigits (spanDigits cs).1 :=
  fun _ => Text.isDigit_of_mem_spanDigits

theorem AllDigits.unsigned {digits : List Char} (hdigits : AllDigits digits) : Unsigned digits :=
  fun c hc => Text.ne_sign_of_isDigit (hdigits c (List.mem_of_mem_head? hc))

theorem readExponent?_eq_some_iff {cs : List Char} {exponent : ℤ} :
    readExponent? cs = some exponent ↔
      ∃ sign digits negative, IsSign sign negative ∧ AllDigits digits ∧ digits ≠ [] ∧
        cs = sign ++ digits ∧
        exponent = if negative then -(Text.value digits : ℤ) else Text.value digits := by
  constructor
  · intro hread
    obtain ⟨sign, hsign, hcs⟩ := exists_sign cs
    rcases htaken : takeSign cs with ⟨negative, body⟩
    rcases hspan : spanDigits body with ⟨digits, rest⟩
    have hdigits := allDigits_spanDigits body
    have hsplit := spanDigits_join body
    rw [htaken] at hsign hcs
    rw [hspan] at hdigits hsplit
    simp only [readExponent?, htaken, hspan, Bool.or_eq_true, List.isEmpty_iff,
      Bool.not_eq_true', List.isEmpty_eq_false_iff] at hread
    split at hread
    · cases hread
    · rename_i hfull
      obtain ⟨hne, hrest⟩ := not_or.mp hfull
      rw [not_not.mp hrest, List.append_nil] at hsplit
      refine ⟨sign, digits, negative, hsign, hdigits, hne, by rw [hcs, ← hsplit], ?_⟩
      cases negative with
      | true => exact (Option.some.inj hread).symm
      | false => exact (Option.some.inj hread).symm
  · rintro ⟨sign, digits, negative, hsign, hdigits, hne, rfl, rfl⟩
    have hspan : spanDigits (digits ++ []) = (digits, []) :=
      spanDigits_append hdigits (by simp)
    rw [List.append_nil] at hspan
    simp only [readExponent?, takeSign_append hsign hdigits.unsigned, hspan]
    cases negative <;> simp [hne]

/-- What is behind a decimal is read as a power of ten exactly if it is one. -/
theorem readTail?_eq_some_iff {cs : List Char} {exponent : ℤ} :
    readTail? cs = some exponent ↔ IsPower cs exponent := by
  constructor
  · intro hread
    cases cs with
    | nil =>
      cases hread
      exact .absent
    | cons c cs =>
      rw [readTail?] at hread
      split at hread
      · rename_i hc
        obtain ⟨sign, digits, negative, hsign, hdigits, hne, rfl, rfl⟩ :=
          readExponent?_eq_some_iff.mp hread
        exact .given hc hsign hdigits hne
      · cases hread
  · intro hpower
    cases hpower with
    | absent => rfl
    | given hc hsign hdigits hne =>
      rw [readTail?, if_pos hc]
      exact readExponent?_eq_some_iff.mpr ⟨_, _, _, hsign, hdigits, hne, rfl, rfl⟩

theorem IsPower.head {power : List Char} {exponent : ℤ} (hpower : IsPower power exponent) (c : Char)
    (hc : power.head? = some c) : Text.isDigit c = false ∧ c ≠ '.' := by
  cases hpower with
  | absent => cases hc
  | given hletter =>
    cases hc
    rcases hletter with rfl | rfl
    · decide
    · decide

theorem readDecimal?_of_point {negative : Bool} {cs whole tail : List Char}
    (hspan : spanDigits cs = (whole, '.' :: tail)) :
    readDecimal? negative cs =
      if whole ++ (spanDigits tail).1 = [] then none
      else (readTail? (spanDigits tail).2).map fun exponent =>
        ofDecimal negative (Text.value (whole ++ (spanDigits tail).1))
          (exponent - (spanDigits tail).1.length) := by
  simp [readDecimal?, hspan]

theorem readDecimal?_of_no_point {negative : Bool} {cs whole rest : List Char}
    (hspan : spanDigits cs = (whole, rest)) (hrest : ∀ c, rest.head? = some c → c ≠ '.') :
    readDecimal? negative cs =
      if whole = [] then none
      else (readTail? rest).map fun exponent => ofDecimal negative (Text.value whole) exponent := by
  simp only [readDecimal?, hspan]
  split
  · exact absurd rfl (hrest '.' rfl)
  · simp

theorem exists_isDecimal {negative : Bool} {cs : List Char} {x : Binary64}
    (hread : readDecimal? negative cs = some x) :
    ∃ digits exponent, IsDecimal cs digits exponent ∧ ofDecimal negative digits exponent = x := by
  rcases hspan : spanDigits cs with ⟨whole, rest⟩
  have hwhole := allDigits_spanDigits cs
  have hsplit := spanDigits_join cs
  rw [hspan] at hwhole hsplit
  subst hsplit
  by_cases hpoint : ∃ tail, rest = '.' :: tail
  · obtain ⟨tail, rfl⟩ := hpoint
    rcases htail : spanDigits tail with ⟨fraction, power⟩
    have hfraction := allDigits_spanDigits tail
    have hsplit := spanDigits_join tail
    rw [htail] at hfraction hsplit
    rw [readDecimal?_of_point hspan, htail] at hread
    subst hsplit
    split at hread
    · cases hread
    · rename_i hne
      obtain ⟨exponent, hpower, rfl⟩ := Option.map_eq_some_iff.mp hread
      exact ⟨_, _, .pointed hwhole hfraction hne (readTail?_eq_some_iff.mp hpower), rfl⟩
  · have hrest : ∀ c, rest.head? = some c → c ≠ '.' := by
      rintro c hc rfl
      exact hpoint (List.head?_eq_some_iff.mp hc)
    rw [readDecimal?_of_no_point hspan hrest] at hread
    split at hread
    · cases hread
    · rename_i hne
      obtain ⟨exponent, hpower, rfl⟩ := Option.map_eq_some_iff.mp hread
      exact ⟨_, _, .whole hwhole hne (readTail?_eq_some_iff.mp hpower), rfl⟩

theorem IsDecimal.readDecimal? {cs : List Char} {digits : ℕ} {exponent : ℤ}
    (hdecimal : IsDecimal cs digits exponent) (negative : Bool) :
    readDecimal? negative cs = some (ofDecimal negative digits exponent) := by
  cases hdecimal with
  | whole hdigits hne hpower =>
    have hspan := spanDigits_append hdigits fun c hc => (hpower.head c hc).1
    rw [readDecimal?_of_no_point hspan fun c hc => (hpower.head c hc).2, if_neg hne,
      readTail?_eq_some_iff.mpr hpower]
    rfl
  | @pointed whole fraction power exponent hwhole hfraction hne hpower =>
    have hpoint : ∀ c, ('.' :: (fraction ++ power)).head? = some c → Text.isDigit c = false := by
      rintro c ⟨⟩
      decide
    have hspan := spanDigits_append hwhole hpoint
    have hspan' := spanDigits_append hfraction fun c hc => (hpower.head c hc).1
    rw [readDecimal?_of_point hspan, hspan', if_neg hne, readTail?_eq_some_iff.mpr hpower]
    rfl

theorem IsDecimal.head {cs : List Char} {digits : ℕ} {exponent : ℤ}
    (hdecimal : IsDecimal cs digits exponent) :
    ∃ c, cs.head? = some c ∧ (Text.isDigit c = true ∨ c = '.') := by
  cases hdecimal with
  | @whole digits power _ hdigits hne _ =>
    obtain ⟨c, rest, rfl⟩ := List.exists_cons_of_ne_nil hne
    exact ⟨c, rfl, Or.inl (hdigits c List.mem_cons_self)⟩
  | @pointed whole fraction power _ hwhole _ _ _ =>
    cases whole with
    | nil => exact ⟨'.', rfl, Or.inr rfl⟩
    | cons c rest => exact ⟨c, rfl, Or.inl (hwhole c List.mem_cons_self)⟩

theorem toLower_of_isDigit {c : Char} (hc : Text.isDigit c = true) : c.toLower = c := by
  simp only [Text.isDigit, Bool.and_eq_true, decide_eq_true_eq] at hc
  delta Char.toLower
  rw [dif_neg]
  rintro ⟨hcapital, -⟩
  have hle : 65 ≤ c.toNat := hcapital
  omega

/-- A word that begins with a letter is no decimal. -/
theorem IsDecimal.map_toLower_ne {cs word : List Char} {digits : ℕ} {exponent : ℤ} {letter : Char}
    (hdecimal : IsDecimal cs digits exponent) (hletter : Text.isDigit letter = false)
    (hpoint : letter ≠ '.') : cs.map Char.toLower ≠ letter :: word := by
  obtain ⟨c, hc, hkind⟩ := hdecimal.head
  obtain ⟨rest, rfl⟩ := List.head?_eq_some_iff.mp hc
  intro heq
  obtain ⟨heq, -⟩ := List.cons.inj heq
  rcases hkind with hdigit | rfl
  · rw [toLower_of_isDigit hdigit] at heq
    rw [← heq, hdigit] at hletter
    cases hletter
  · exact hpoint heq.symm

theorem unsigned_of_map_toLower {cs word : List Char} {letter : Char}
    (hcs : cs.map Char.toLower = letter :: word) (hminus : letter ≠ '-') (hplus : letter ≠ '+') :
    Unsigned cs := by
  intro c hc
  obtain ⟨rest, rfl⟩ := List.head?_eq_some_iff.mp hc
  obtain ⟨heq, -⟩ := List.cons.inj hcs
  constructor
  · rintro rfl
    exact hminus heq.symm
  · rintro rfl
    exact hplus heq.symm

theorem IsInfinityWord.unsigned {word : List Char} (hword : IsInfinityWord word) :
    Unsigned word := by
  rcases hword with hword | hword
  · exact unsigned_of_map_toLower hword (by decide) (by decide)
  · exact unsigned_of_map_toLower hword (by decide) (by decide)

theorem IsDecimal.unsigned {cs : List Char} {digits : ℕ} {exponent : ℤ}
    (hdecimal : IsDecimal cs digits exponent) : Unsigned cs := by
  obtain ⟨c, hc, hkind⟩ := hdecimal.head
  intro d hd
  obtain rfl := Option.some.inj (hc.symm.trans hd)
  rcases hkind with hdigit | rfl
  · exact Text.ne_sign_of_isDigit hdigit
  · decide

/-- A text is read as a double exactly if it shows that double. -/
theorem ofText?_eq_some_iff {cs : List Char} {x : Binary64} :
    ofText? cs = some x ↔ Shows cs x := by
  constructor
  · intro hread
    obtain ⟨sign, hsign, hcs⟩ := exists_sign cs
    simp only [ofText?] at hread
    rw [hcs]
    split at hread
    · rename_i hword
      cases hread
      exact .infinite hsign hword
    · split at hread
      · rename_i hword
        cases hread
        exact .noNumber hsign hword
      · obtain ⟨digits, exponent, hdecimal, rfl⟩ := exists_isDecimal hread
        rw [ofDecimal_eq]
        exact .decimal hsign hdecimal
  · intro hshows
    cases hshows with
    | infinite hsign hword =>
      simp only [ofText?, takeSign_append hsign hword.unsigned]
      exact if_pos hword
    | @noNumber sign word negative hsign hword =>
      have hunsigned := unsigned_of_map_toLower hword (by decide) (by decide)
      have hlower : word.map Char.toLower = ['n', 'a', 'n'] := hword
      simp [ofText?, takeSign_append hsign hunsigned, hlower]
    | @decimal sign body negative digits exponent hsign hdecimal =>
      have hi : ∀ word, body.map Char.toLower ≠ 'i' :: word := fun _ =>
        hdecimal.map_toLower_ne (by decide) (by decide)
      have hn : ∀ word, body.map Char.toLower ≠ 'n' :: word := fun _ =>
        hdecimal.map_toLower_ne (by decide) (by decide)
      simp only [ofText?, takeSign_append hsign hdecimal.unsigned, hi, hn, or_self, if_false,
        ← ofDecimal_eq]
      exact hdecimal.readDecimal? negative

end Binary64

end RollCall
