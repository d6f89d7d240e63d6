import Mathlib.Data.List.Induction
import RollCall.Proofs.Document
import RollCall.Proofs.ShortestDecimal

/-!
# Numbers in a document

The digits of a number that is written in a document all fit the significand into which they are
read. So a double is read as the significand and the exponent of its shortest decimal, whichever of
its layouts it has; only a whole number, which is written with a zero behind its point, brings that
zero along. A natural number below `2⁶⁴` is read as itself.
-/

namespace RollCall

/-! ## Rows of digits -/

namespace Text

theorem value_append (cs ds : List Char) :
    value (cs ++ ds) = value cs * 10 ^ ds.length + value ds := by
  induction ds using List.reverseRecOn with
  | nil => simp [value]
  | append_singleton ds d ih =>
    rw [← List.append_assoc, value_append_digit, ih, value_append_digit, List.length_append,
      List.length_singleton, Nat.pow_succ, Nat.mul_add, Nat.add_assoc, Nat.mul_left_comm,
      Nat.mul_comm 10]

theorem value_le_append (cs ds : List Char) : value cs ≤ value (cs ++ ds) := by
  rw [value_append]
  exact Nat.le_add_right_of_le (Nat.le_mul_of_pos_right _ (Nat.pow_pos (by decide)))

theorem head?_numeral {n : ℕ} (hn : 0 < n) : ∃ c, (numeral n).head? = some c ∧ c ≠ '0' := by
  induction n using Nat.strongRecOn with
  | ind n ih =>
    rw [numeral]
    split
    · rename_i hten
      refine ⟨digitChar n, rfl, ?_⟩
      intro hzero
      have hvalue := digitValue_digitChar hten
      rw [hzero] at hvalue
      exact absurd hvalue (Nat.ne_of_lt hn)
    · obtain ⟨c, hc, hne⟩ := ih (n / 10) (by omega) (by omega)
      exact ⟨c, by rw [List.head?_append, hc]; rfl, hne⟩

end Text

namespace Binary64

theorem value_zeros (n : ℕ) : Text.value (zeros n) = 0 := by
  induction n with
  | zero => rfl
  | succ n ih =>
    have hsucc : zeros (n + 1) = ['0'] ++ zeros n := rfl
    have hzero : Text.value ['0'] = 0 := rfl
    rw [hsucc, Text.value_append, ih, hzero, Nat.zero_mul]

theorem length_zeros (n : ℕ) : (zeros n).length = n := List.length_replicate

theorem isDigit_of_mem_zeros {n : ℕ} {c : Char} (hc : c ∈ zeros n) : Text.isDigit c = true := by
  rw [List.eq_of_mem_replicate hc]
  rfl

end Binary64

namespace Json

open Binary64
open Text (takeSign spanDigits spanDigits_append)

/-- A text that does not go on with a digit. -/
def NoDigit (rest : List Char) : Prop := ∀ c, rest.head? = some c → Text.isDigit c = false

theorem noDigit_cons {c : Char} (hc : Text.isDigit c = false) (cs : List Char) :
    NoDigit (c :: cs) := by
  intro d hd
  cases hd
  exact hc

theorem Follows.noDigit {rest : List Char} (hrest : Follows rest) : NoDigit rest := by
  intro c hc
  rcases hrest c hc with rfl | rfl | rfl
  all_goals rfl

/-- Digits whose number fits the significand are all taken into it. -/
theorem absorb_value (before : List Char) {digits : List Char}
    (hfit : Text.value (before ++ digits) < 2 ^ 64) :
    absorb (Text.value before) digits = (Text.value (before ++ digits), 0) := by
  induction digits generalizing before with
  | nil => rw [absorb, List.append_nil]
  | cons d digits ih =>
    have happend : before ++ d :: digits = before ++ [d] ++ digits := by simp
    rw [happend] at hfit ⊢
    have hnext := Text.value_le_append (before ++ [d]) digits
    rw [absorb, ← Text.value_append_digit, Nat.pow_eq, if_pos (by omega)]
    exact ih _ hfit

theorem absorb_whole (whole : List Char) (hfit : Text.value whole < 2 ^ 64) :
    absorb 0 whole = (Text.value whole, 0) :=
  absorb_value [] hfit

/-! ## The parts of a number -/

/-- The digits before the point: a zero alone, or digits of which the first is not zero. -/
inductive Whole : List Char → Prop
  | zero : Whole ['0']
  | digits {c : Char} {tail : List Char} (hne : c ≠ '0')
      (hdigits : ∀ d ∈ c :: tail, Text.isDigit d = true) : Whole (c :: tail)

theorem whole_of_head? {cs : List Char} {c : Char} (hhead : cs.head? = some c) (hne : c ≠ '0')
    (hdigits : ∀ d ∈ cs, Text.isDigit d = true) : Whole cs := by
  obtain ⟨tail, rfl⟩ := List.head?_eq_some_iff.mp hhead
  exact Whole.digits hne hdigits

theorem whole_numeral (n : ℕ) : Whole (Text.numeral n) := by
  rcases Nat.eq_zero_or_pos n with rfl | hn
  · have hzero : Text.numeral 0 = ['0'] := by
      rw [Text.numeral]
      rfl
    rw [hzero]
    exact Whole.zero
  · obtain ⟨c, hc, hne⟩ := Text.head?_numeral hn
    exact whole_of_head? hc hne fun d => Text.isDigit_of_mem_numeral

variable {negative : Bool} {whole fraction rest : List Char} {significand : ℕ} {exponent : ℤ}

theorem Whole.takeDigits (hwhole : Whole whole) (hrest : NoDigit rest) :
    takeDigits negative (whole ++ rest) = takeAfterWhole negative whole rest := by
  cases hwhole with
  | zero =>
    have hhead : (rest.head?.map Text.isDigit).getD false = false := by
      cases hrest' : rest.head? with
      | none => rfl
      | some c => exact hrest c hrest'
    simp [Json.takeDigits, hhead]
  | @digits c tail hne hdigits =>
    have hspan := spanDigits_append (fun d hd => hdigits d (List.mem_cons_of_mem c hd)) hrest
    have hc : Text.isDigit c = true := hdigits c List.mem_cons_self
    simp only [Json.takeDigits, List.cons_append, if_neg hne, if_pos hc, hspan]

/-- The digits behind the point are taken into the significand and lower the exponent. -/
theorem takeAfterWhole_fraction (hdigits : ∀ c ∈ fraction, Text.isDigit c = true)
    (hne : fraction ≠ []) (hfit : Text.value (whole ++ fraction) < 2 ^ 64)
    (hrest : NoDigit rest) :
    takeAfterWhole negative whole ('.' :: (fraction ++ rest)) =
      takeScale negative (Text.value (whole ++ fraction)) (-(fraction.length : ℤ)) rest := by
  have hwhole := absorb_whole whole (Nat.lt_of_le_of_lt (Text.value_le_append whole fraction) hfit)
  have hempty : fraction.isEmpty = false := List.isEmpty_eq_false_iff.mpr hne
  simp [takeAfterWhole, takeFraction, hwhole, spanDigits_append hdigits hrest, hempty,
    absorb_value whole hfit]

theorem takeDigits_fraction (negative : Bool) (fraction : List Char) (hwhole : Whole whole)
    (hdigits : ∀ c ∈ fraction, Text.isDigit c = true) (hne : fraction ≠ [])
    (hfit : Text.value (whole ++ fraction) < 2 ^ 64) (hrest : NoDigit rest) :
    takeDigits negative (whole ++ '.' :: fraction ++ rest) =
      takeScale negative (Text.value (whole ++ fraction)) (-(fraction.length : ℤ)) rest := by
  rw [List.append_assoc, List.cons_append, hwhole.takeDigits (noDigit_cons rfl _),
    takeAfterWhole_fraction hdigits hne hfit hrest]

/-- The number that is scaled, with what follows it. -/
def takenReal (negative : Bool) (significand : ℕ) (exponent : ℤ) (rest : List Char) :
    Taken Number :=
  (realOf negative significand exponent).map (·, rest)

theorem takeScale_end (hrest : Follows rest) :
    takeScale negative significand exponent rest =
      takenReal negative significand exponent rest := by
  unfold takeScale
  split
  · exact absurd (hrest 'e' rfl) (by decide)
  · exact absurd (hrest 'E' rfl) (by decide)
  · rfl

/-- The text of an exponent behind its letter. -/
def exponentText (shift : ℤ) : List Char :=
  (if shift < 0 then '-' else '+') :: Text.numeral shift.natAbs

theorem takeExponent_written (shift : ℤ) (hrest : NoDigit rest) :
    takeExponent negative significand exponent (exponentText shift ++ rest) =
      takenReal negative significand (exponent + shift) rest := by
  have hspan := spanDigits_append (fun _ => Text.isDigit_of_mem_numeral (n := shift.natAbs)) hrest
  obtain ⟨c, tail, hnumeral⟩ := List.exists_cons_of_ne_nil (Text.numeral_ne_nil shift.natAbs)
  have hc : Text.isDigit c = true := by
    apply Text.isDigit_of_mem_numeral (n := shift.natAbs)
    rw [hnumeral]
    exact List.mem_cons_self
  have hvalue := Text.value_numeral shift.natAbs
  rw [hnumeral] at hspan hvalue
  by_cases hneg : shift < 0
  · have hsum : exponent - (shift.natAbs : ℤ) = exponent + shift := by omega
    rw [List.cons_append] at hspan
    simp only [exponentText, hneg, if_true, List.cons_append, hnumeral, takeExponent, takeSign, hc,
      hspan, hvalue, hsum, takenReal]
  · have hsum : exponent + (shift.natAbs : ℤ) = exponent + shift := by omega
    rw [List.cons_append] at hspan
    simp only [exponentText, hneg, if_false, List.cons_append, hnumeral, takeExponent, takeSign, hc,
      if_true, hspan, hvalue, Bool.false_eq_true, hsum, takenReal]

/-! ## Layouts of a decimal -/

variable {digits : ℕ}

/-- A whole number that is written with zeros behind its digits and a zero behind its point. -/
theorem takeDigits_zeros (hpos : 0 < digits) (n : ℕ) (hfit : digits * 10 ^ (n + 1) < 2 ^ 64)
    (hrest : Follows rest) :
    takeDigits negative (Text.numeral digits ++ zeros n ++ ['.', '0'] ++ rest) =
      takenReal negative (digits * 10 ^ (n + 1)) (-1) rest := by
  obtain ⟨c, hc, hne⟩ := Text.head?_numeral hpos
  have hwhole : Whole (Text.numeral digits ++ zeros n) := by
    apply whole_of_head? (c := c) _ hne
    · intro d hd
      rcases List.mem_append.mp hd with hd | hd
      · exact Text.isDigit_of_mem_numeral hd
      · exact isDigit_of_mem_zeros hd
    · rw [List.head?_append, hc]
      rfl
  have hzero : zeros 1 = ['0'] := rfl
  have hvalue : Text.value (Text.numeral digits ++ zeros n ++ zeros 1) = digits * 10 ^ (n + 1) := by
    rw [Text.value_append, Text.value_append, Text.value_numeral, value_zeros, value_zeros,
      length_zeros, length_zeros, Nat.add_zero, Nat.add_zero, Nat.mul_assoc, ← Nat.pow_add]
  have htake := takeDigits_fraction negative (zeros 1) hwhole
    (fun _ => isDigit_of_mem_zeros) (by decide) (by rw [hvalue]; exact hfit) hrest.noDigit
  rw [hvalue, length_zeros, takeScale_end hrest, hzero] at htake
  exact htake

/-- Digits with a point among them or before them. -/
theorem takeDigits_withPoint (hpos : 0 < digits) (hfit : digits < 2 ^ 64) {point : ℤ}
    (hpoint : point < Text.digitCount digits) (hrest : NoDigit rest) :
    takeDigits negative (withPoint (Text.numeral digits) point ++ rest) =
      takeScale negative digits (point - Text.digitCount digits) rest := by
  have hlength := Text.length_numeral digits
  by_cases hinside : 0 < point
  · obtain ⟨c, hc, hne⟩ := Text.head?_numeral hpos
    have hwhole : Whole ((Text.numeral digits).take point.toNat) := by
      apply whole_of_head? (c := c) _ hne
      · exact fun d hd => Text.isDigit_of_mem_numeral (List.mem_of_mem_take hd)
      · rw [List.head?_take, if_neg (by omega), hc]
    have hdrop : ((Text.numeral digits).drop point.toNat).length =
        Text.digitCount digits - point.toNat := by rw [List.length_drop, hlength]
    have hvalue : Text.value ((Text.numeral digits).take point.toNat ++
        (Text.numeral digits).drop point.toNat) = digits := by
      rw [List.take_append_drop, Text.value_numeral]
    have hexponent : -((Text.digitCount digits - point.toNat : ℕ) : ℤ) =
        point - Text.digitCount digits := by omega
    have htake := takeDigits_fraction negative _ hwhole
      (fun d hd => Text.isDigit_of_mem_numeral (List.mem_of_mem_drop hd))
      (by rw [← List.length_pos_iff, hdrop]; omega) (by rw [hvalue]; exact hfit) hrest
    rw [hvalue, hdrop, hexponent] at htake
    rw [withPoint, if_pos hinside]
    exact htake
  · have hvalue : Text.value (['0'] ++ (zeros (-point).toNat ++ Text.numeral digits)) = digits := by
      have hzero : Text.value ['0'] = 0 := rfl
      rw [Text.value_append, Text.value_append, Text.value_numeral, value_zeros, hzero,
        Nat.zero_mul, Nat.zero_mul, Nat.zero_add, Nat.zero_add]
    have hexponent : -((zeros (-point).toNat ++ Text.numeral digits).length : ℤ) =
        point - Text.digitCount digits := by
      rw [List.length_append, length_zeros, hlength]
      omega
    have htake := takeDigits_fraction negative
      (zeros (-point).toNat ++ Text.numeral digits) Whole.zero
      (fun d hd => (List.mem_append.mp hd).elim isDigit_of_mem_zeros Text.isDigit_of_mem_numeral)
      (List.append_ne_nil_of_right_ne_nil _ (Text.numeral_ne_nil digits))
      (by rw [hvalue]; exact hfit) hrest
    rw [hvalue, hexponent] at htake
    rw [withPoint, if_neg hinside]
    simpa only [List.append_assoc, List.cons_append, List.nil_append] using htake

/-- Digits with a point behind the first of them, if there are more, and an exponent. -/
theorem takeDigits_exponent (negative : Bool) (hpos : 0 < digits) (hfit : digits < 2 ^ 64)
    (leading : ℤ) (hrest : NoDigit rest) :
    takeDigits negative
        ((if (Text.numeral digits).length = 1 then Text.numeral digits
          else withPoint (Text.numeral digits) 1) ++ 'e' :: exponentText leading ++ rest) =
      takenReal negative digits (leading + 1 - Text.digitCount digits) rest := by
  have hcount := Text.digitCount_pos digits
  have hletter : NoDigit ('e' :: (exponentText leading ++ rest)) := noDigit_cons rfl _
  rw [Text.length_numeral, List.append_assoc, List.cons_append]
  split
  · rename_i hone
    have hwhole := absorb_whole (Text.numeral digits) (by rw [Text.value_numeral]; exact hfit)
    rw [(whole_numeral digits).takeDigits hletter]
    simp only [takeAfterWhole, hwhole, Text.value_numeral, takeExponent_written leading hrest]
    congr 1
    omega
  · rw [takeDigits_withPoint hpos hfit (by omega) hletter]
    simp only [takeScale, takeExponent_written leading hrest]
    congr 1
    omega

end Json

/-! ## Doubles in a document -/

namespace Binary64

/-- The decimal that a reader takes from the text of a double. -/
def writtenDecimal (x : Binary64) : Decimal :=
  if x.isZero then ⟨0, -1⟩
  else
    let d := x.shortest .toEven
    if 0 ≤ d.exponent ∧ Text.digitCount d.digits + d.exponent ≤ 16 then
      ⟨d.digits * 10 ^ (d.exponent.toNat + 1), -1⟩
    else d

theorem digits_mul_pow_lt {d : Decimal} (hnonneg : 0 ≤ d.exponent)
    (hleading : Text.digitCount d.digits + d.exponent ≤ 16) :
    d.digits * 10 ^ (d.exponent.toNat + 1) < 10 ^ 17 := by
  have hdigits := Text.lt_pow_digitCount d.digits
  have hpow : 10 ^ (Text.digitCount d.digits + (d.exponent.toNat + 1)) ≤ 10 ^ 17 :=
    Nat.pow_le_pow_right (by decide) (by omega)
  rw [Nat.pow_add] at hpow
  exact Nat.lt_of_lt_of_le (Nat.mul_lt_mul_of_pos_right hdigits (Nat.pow_pos (by decide))) hpow

theorem writes_writtenDecimal {x : Binary64} (hx : 0 < x.magnitude) :
    x.Writes x.writtenDecimal := by
  have hwrites := writes_shortest hx .toEven
  have hzero : ¬ x.isZero = true := by
    rw [isZero, decide_eq_true_eq]
    exact Nat.ne_of_gt hx
  rw [writtenDecimal, if_neg hzero]
  generalize x.shortest .toEven = d at hwrites ⊢
  simp only
  split
  · rename_i hwhole
    have hlt := digits_mul_pow_lt hwhole.1 hwhole.2
    refine ⟨?_, Nat.mul_pos hwrites.digits_pos (Nat.pow_pos (by decide)), Nat.le_of_lt hlt,
      by simp only; omega⟩
    refine (between_congr (Decimal.lower_pos d.exponent) (Decimal.lower_pos (-1)) ?_).mp
      hwrites.rounds
    have hlower : Decimal.lower d.exponent = 1 := by
      have hneg : (-d.exponent).toNat = 0 := by omega
      rw [Decimal.lower, hneg, Nat.pow_zero]
    have htenth : Decimal.lower (-1) = 10 := rfl
    have hone : Decimal.upper (-1) = 1 := rfl
    rw [hlower, htenth, hone, Decimal.upper, Nat.pow_succ]
    generalize unitsPerOne = one
    ac_rfl
  · exact hwrites

end Binary64

namespace Json

open Binary64

variable {negative : Bool} {rest : List Char}

/-- A finite double is read as its decimal. -/
theorem takeDigits_documentMagnitude (x : Binary64) (hrest : Follows rest) :
    takeDigits negative (x.documentMagnitude ++ rest) =
      takenReal negative x.writtenDecimal.digits x.writtenDecimal.exponent rest := by
  by_cases hzero : x.isZero = true
  · have htake := takeDigits_fraction negative ['0'] Whole.zero
      (fun _ => isDigit_of_mem_zeros (n := 1)) (by decide) (by decide) hrest.noDigit
    rw [takeScale_end hrest] at htake
    rw [documentMagnitude, writtenDecimal, if_pos hzero, if_pos hzero]
    exact htake
  · have hpos : 0 < x.magnitude := by
      simp only [isZero, decide_eq_true_eq] at hzero
      exact Nat.pos_of_ne_zero hzero
    have hwrites := writes_shortest hpos .toEven
    rw [documentMagnitude, writtenDecimal, if_neg hzero, if_neg hzero]
    generalize x.shortest .toEven = d at hwrites ⊢
    obtain ⟨-, hdigits, hle, -⟩ := hwrites
    have hfit : d.digits < 2 ^ 64 := Nat.lt_of_le_of_lt hle (by decide)
    have hcount := Text.digitCount_pos d.digits
    simp only [Text.length_numeral]
    split
    · split
      · rw [if_pos (by omega)]
        have hlt := digits_mul_pow_lt (d := d) (by omega) (by omega)
        exact takeDigits_zeros hdigits _ (Nat.lt_trans hlt (by decide)) hrest
      · rw [if_neg (by omega), takeDigits_withPoint hdigits hfit (by omega) hrest.noDigit,
          takeScale_end hrest]
        congr 1
        omega
    · have hleading : ¬ (0 ≤ d.exponent ∧ Text.digitCount d.digits + d.exponent ≤ 16) := by omega
      have htake := takeDigits_exponent negative hdigits hfit
        (Text.digitCount d.digits + d.exponent - 1) hrest.noDigit
      have hexponent :
          (Text.digitCount d.digits + d.exponent - 1 + 1 - Text.digitCount d.digits : ℤ) =
            d.exponent := by omega
      rw [Text.length_numeral, hexponent] at htake
      rw [if_neg hleading]
      exact htake

/-! ## Readers of numbers -/

/-- What a number begins with. -/
def Leads (c : Char) : Prop := c = '-' ∨ Text.isDigit c = true

theorem Leads.not_blank {c : Char} (hc : Leads c) : isBlank c = false ∧ c ≠ ']' := by
  rcases hc with rfl | hdigit
  · exact ⟨rfl, by decide⟩
  · have hne : ∀ d, Text.isDigit d = false → c ≠ d := by
      rintro d hd rfl
      rw [hdigit] at hd
      cases hd
    refine ⟨?_, hne ']' rfl⟩
    simp [isBlank, hne ' ' rfl, hne '\n' rfl, hne '\t' rfl, hne '\r' rfl]

theorem exists_digit_of_takeDigits {cs : List Char} {n : Number}
    (htake : takeDigits negative cs = .ok (n, rest)) :
    ∃ c tail, cs = c :: tail ∧ Text.isDigit c = true := by
  unfold takeDigits at htake
  split at htake
  · cases htake
  · rename_i c tail
    refine ⟨c, tail, rfl, ?_⟩
    split at htake
    · rename_i hzero
      rw [hzero]
      rfl
    · split at htake
      · assumption
      · cases htake

theorem takeNumber_digit {c : Char} (hc : Text.isDigit c = true) (cs : List Char) :
    takeNumber (c :: cs) = takeDigits false (c :: cs) := by
  unfold takeNumber
  split
  · rename_i heq
    cases heq
    cases hc
  · rfl

theorem number_reads {text : List Char} {n : Number}
    (hbegins : ∃ c tail, text = c :: tail ∧ Leads c)
    (htake : ∀ rest, Follows rest → takeNumber (text ++ rest) = .ok (n, rest)) :
    Reader.number.Reads text n := by
  obtain ⟨c, tail, rfl, hc⟩ := hbegins
  obtain ⟨hblank, hend⟩ := hc.not_blank
  refine ⟨⟨c, tail, rfl, hblank, hend⟩, ?_⟩
  intro rest hrest
  have htaken := htake rest hrest
  rw [List.cons_append] at htaken
  rw [Leads] at hc
  simp only [Reader.number, List.cons_append, skipBlanks_of_not_blank hblank, if_pos hc]
  exact htaken

/-- A natural number below `2⁶⁴` is read from its digits. -/
theorem reads_numeral {n : ℕ} (hn : n < 2 ^ 64) : Reader.natural.Reads (Text.numeral n) n := by
  have hwhole := absorb_whole (Text.numeral n) (by rw [Text.value_numeral]; exact hn)
  rw [Text.value_numeral] at hwhole
  have htake : ∀ rest, Follows rest →
      takeDigits false (Text.numeral n ++ rest) = .ok (.natural n, rest) := by
    intro rest hrest
    rw [(whole_numeral n).takeDigits hrest.noDigit]
    simp only [takeAfterWhole, hwhole]
    split
    · exact absurd (hrest '.' rfl) (by decide)
    · exact absurd (hrest 'e' rfl) (by decide)
    · exact absurd (hrest 'E' rfl) (by decide)
    · rfl
  have hfirst := htake [] follows_nil
  rw [List.append_nil] at hfirst
  obtain ⟨c, tail, htext, hc⟩ := exists_digit_of_takeDigits hfirst
  have hreads : Reader.number.Reads (Text.numeral n) (.natural n) := by
    refine number_reads ⟨c, tail, htext, Or.inr hc⟩ ?_
    intro rest hrest
    have htaken := htake rest hrest
    rw [htext, List.cons_append] at htaken ⊢
    rw [takeNumber_digit hc]
    exact htaken
  exact hreads.filterMap rfl

/-- A finite double is read as its decimal scaled, with its sign. -/
theorem reads_writtenNumber {x y : Binary64} (hx : x.isFinite = true)
    (hscaled : scaled? x.writtenDecimal.digits x.writtenDecimal.exponent = some y) :
    Reader.real.Reads (writtenNumber x) (if x.negative then y.neg else y) := by
  have hwritten : writtenNumber x = x.signText ++ x.documentMagnitude := by
    rw [writtenNumber, if_pos hx, documentText, String.toList_ofList]
  have htake : ∀ negative rest, Follows rest →
      takeDigits negative (x.documentMagnitude ++ rest) =
        .ok (.real (if negative then y.neg else y), rest) := by
    intro negative rest hrest
    rw [takeDigits_documentMagnitude x hrest, takenReal, realOf, hscaled]
    rfl
  have hfirst := htake x.negative [] follows_nil
  rw [List.append_nil] at hfirst
  obtain ⟨c, tail, htext, hc⟩ := exists_digit_of_takeDigits hfirst
  have hreads : Reader.number.Reads (writtenNumber x)
      (.real (if x.negative then y.neg else y)) := by
    rw [hwritten, signText]
    by_cases hnegative : x.negative = true
    · rw [if_pos hnegative, if_pos hnegative]
      refine number_reads ⟨'-', _, rfl, Or.inl rfl⟩ ?_
      intro rest hrest
      have htaken := htake true rest hrest
      rw [if_pos rfl] at htaken
      exact htaken
    · rw [if_neg hnegative, if_neg hnegative, List.nil_append]
      refine number_reads ⟨c, tail, htext, Or.inr hc⟩ ?_
      intro rest hrest
      have htaken := htake false rest hrest
      rw [htext, List.cons_append] at htaken ⊢
      rw [takeNumber_digit hc]
      exact htaken
  exact hreads.map Number.toBinary64

end Json

end RollCall
