import RollCall.Proofs.Grammar

/-!
# Passing over values

A value of any shape is passed over as a whole: behind it the reading goes on, whatever brackets are
open around it. The induction is on the value, and its hypothesis is used for the elements of a list
and for the members of an object while their bracket is open.
-/

namespace RollCall.Json

/-! ## Strings -/

theorem takeHex_append {digits : List Char} {n : ℕ} (hdigits : IsHex digits n) (rest : List Char) :
    takeHex (digits ++ rest) = .ok (n, rest) := by
  cases hdigits with
  | digits ha hb hc hd => simp only [List.cons_append, List.nil_append, takeHex, ha, hb, hc, hd]

theorem ne_u_of_shortEscape? {c : Char} (hc : (shortEscape? c).isSome = true) : c ≠ 'u' := by
  rintro rfl
  exact absurd hc (by decide)

theorem passEscape_short {c : Char} (hc : (shortEscape? c).isSome = true) (cs : List Char) :
    passEscape (c :: cs) = .ok cs := by
  rw [passEscape, if_pos hc]
  exact fun h => ne_u_of_shortEscape? hc h

theorem passEscape_unit {digits : List Char} {n : ℕ} (hdigits : IsHex digits n) (cs : List Char) :
    passEscape ('u' :: (digits ++ cs)) = .ok cs := by
  rw [passEscape, takeHex_append hdigits]
  rfl

theorem passString_plain {c : Char} (hquote : c ≠ '"') (hback : c ≠ '\\') (hlow : 0x20 ≤ c.toNat)
    (cs : List Char) : passString (c :: cs) = passString cs := by
  rw [passString.eq_4 c cs hquote hback, if_neg (Nat.not_lt.mpr hlow)]

theorem passString_escape {cs rest : List Char} (h : passEscape cs = .ok rest) :
    passString ('\\' :: cs) = passString rest := by
  rw [passString.eq_3]
  grind

/-- A string is passed over behind its opening quote. -/
theorem passString_append {cs : List Char} (hcs : IsChars cs) (rest : List Char) :
    passString (cs ++ '"' :: rest) = .ok rest := by
  induction hcs with
  | nil => rw [List.nil_append, passString.eq_2]
  | plain hquote hback hlow _ ih => rw [List.cons_append, passString_plain hquote hback hlow, ih]
  | short hc _ ih =>
    rw [List.cons_append, List.cons_append, passString_escape (passEscape_short hc _), ih]
  | unit hdigits _ ih =>
    rw [List.cons_append, List.cons_append, List.append_assoc,
      passString_escape (passEscape_unit hdigits _), ih]

/-! ## Numbers -/

/-- A text that does not go on with a part of a number. -/
structure Stops (rest : List Char) : Prop where
  digit : NoDigit rest
  point : rest.head? ≠ some '.'
  small : rest.head? ≠ some 'e'
  capital : rest.head? ≠ some 'E'

theorem Ends.stops {rest : List Char} (hrest : Ends rest) : Stops rest := by
  refine ⟨?_, hrest.ne rfl (by decide), hrest.ne rfl (by decide), hrest.ne rfl (by decide)⟩
  intro c hc
  rcases hrest.head hc with hblank | rfl | rfl | rfl
  · simp only [isBlank, Bool.or_eq_true, decide_eq_true_eq, or_assoc] at hblank
    rcases hblank with rfl | rfl | rfl | rfl <;> rfl
  · rfl
  · rfl
  · rfl

theorem unsigned_digits {digits : List Char} (hne : digits ≠ [])
    (hdigits : ∀ d ∈ digits, Text.isDigit d = true) (rest : List Char) :
    Text.Unsigned (digits ++ rest) := by
  obtain ⟨c, tail, rfl⟩ := List.exists_cons_of_ne_nil hne
  rintro _ ⟨⟩
  exact Text.ne_sign_of_isDigit (hdigits c List.mem_cons_self)

theorem noDigit_exponent {exponent rest : List Char} (hexponent : IsExponent exponent)
    (hrest : Stops rest) : NoDigit (exponent ++ rest) := by
  cases hexponent with
  | absent => exact hrest.digit
  | given hc =>
    rcases hc with rfl | rfl
    · exact noDigit_cons rfl _
    · exact noDigit_cons rfl _

theorem noDigit_fraction {fraction exponent rest : List Char} (hfraction : IsFraction fraction)
    (hexponent : IsExponent exponent) (hrest : Stops rest) :
    NoDigit (fraction ++ (exponent ++ rest)) := by
  cases hfraction with
  | absent =>
    rw [List.nil_append]
    exact noDigit_exponent hexponent hrest
  | given => exact noDigit_cons rfl _

theorem passExponent_append {sign digits rest : List Char} {negative : Bool}
    (hsign : Text.IsSign sign negative) (hne : digits ≠ [])
    (hdigits : ∀ d ∈ digits, Text.isDigit d = true) (hrest : Stops rest) :
    passExponent (sign ++ (digits ++ rest)) = .ok rest := by
  have hempty : digits.isEmpty = false := List.isEmpty_eq_false_iff.mpr hne
  simp only [passExponent, Text.takeSign_append hsign (unsigned_digits hne hdigits rest),
    Text.spanDigits_append hdigits hrest.digit, hempty, Bool.false_eq_true, if_false]

theorem passAfterWhole_stops {rest : List Char} (hrest : Stops rest) :
    passAfterWhole rest = .ok rest := by
  unfold passAfterWhole
  split
  · exact absurd rfl hrest.point
  · exact absurd rfl hrest.small
  · exact absurd rfl hrest.capital
  · rfl

theorem passAfterWhole_exponent {exponent rest : List Char} (hexponent : IsExponent exponent)
    (hrest : Stops rest) : passAfterWhole (exponent ++ rest) = .ok rest := by
  cases hexponent with
  | absent => exact passAfterWhole_stops hrest
  | given hc hsign hne hdigits =>
    rw [List.cons_append, List.append_assoc]
    rcases hc with rfl | rfl
    · exact passExponent_append hsign hne hdigits hrest
    · exact passExponent_append hsign hne hdigits hrest

theorem passAfterWhole_append {fraction exponent rest : List Char} (hfraction : IsFraction fraction)
    (hexponent : IsExponent exponent) (hrest : Stops rest) :
    passAfterWhole (fraction ++ (exponent ++ rest)) = .ok rest := by
  cases hfraction with
  | absent => exact passAfterWhole_exponent hexponent hrest
  | @given digits hne hdigits =>
    have hspan := Text.spanDigits_append hdigits (noDigit_exponent hexponent hrest)
    have hempty : digits.isEmpty = false := List.isEmpty_eq_false_iff.mpr hne
    -- Behind the digits of a fraction only an exponent is looked for.
    have hafter := passAfterWhole_exponent hexponent hrest
    simp only [List.cons_append, passAfterWhole, hspan, hempty, Bool.false_eq_true, if_false]
    split
    · rename_i heq
      rwa [heq] at hafter
    · rename_i heq
      rwa [heq] at hafter
    · cases hexponent with
      | absent => rfl
      | given hc =>
        rename_i hsmall hcapital
        rcases hc with rfl | rfl
        · exact absurd rfl (hsmall _)
        · exact absurd rfl (hcapital _)

theorem Whole.passDigits {whole rest : List Char} (hwhole : Whole whole) (hrest : NoDigit rest) :
    passDigits (whole ++ rest) = passAfterWhole rest := by
  cases hwhole with
  | zero =>
    have hhead : (rest.head?.map Text.isDigit).getD false = false := by
      cases hrest' : rest.head? with
      | none => rfl
      | some c => exact hrest c hrest'
    simp [Json.passDigits, hhead]
  | @digits c tail hne hdigits =>
    have hspan := Text.spanDigits_append (fun d hd => hdigits d (List.mem_cons_of_mem c hd)) hrest
    have hc : Text.isDigit c = true := hdigits c List.mem_cons_self
    simp only [Json.passDigits, List.cons_append, if_neg hne, if_pos hc, hspan]

theorem Whole.head {whole : List Char} (hwhole : Whole whole) :
    ∃ c tail, whole = c :: tail ∧ Text.isDigit c = true := by
  cases hwhole with
  | zero => exact ⟨'0', [], rfl, rfl⟩
  | @digits c tail hne hdigits => exact ⟨c, tail, rfl, hdigits c List.mem_cons_self⟩

theorem ne_minus_of_isDigit {c : Char} (hc : Text.isDigit c = true) : c ≠ '-' := by
  rintro rfl
  cases hc

theorem passNumber_append {text rest : List Char} (htext : IsNumber text) (hrest : Stops rest) :
    passNumber (text ++ rest) = .ok rest := by
  cases htext with
  | @parts sign whole fraction exponent hsign hwhole hfraction hexponent =>
    have hpass := hwhole.passDigits (noDigit_fraction hfraction hexponent hrest)
    rw [passAfterWhole_append hfraction hexponent hrest] at hpass
    rcases hsign with rfl | rfl
    · obtain ⟨c, tail, rfl, hc⟩ := hwhole.head
      simp only [List.nil_append, List.append_assoc, List.cons_append] at hpass ⊢
      rw [passNumber]
      · exact hpass
      · rintro cs ⟨⟩
        exact ne_minus_of_isDigit hc rfl
    · simpa only [List.nil_append, List.append_assoc, List.cons_append, passNumber] using hpass

/-! ## Values -/

/-- A number begins with a minus or a digit. -/
theorem IsNumber.leads {text : List Char} (htext : IsNumber text) :
    ∃ c tail, text = c :: tail ∧ Leads c := by
  cases htext with
  | parts hsign hwhole _ _ =>
    rcases hsign with rfl | rfl
    · obtain ⟨c, tail, rfl, hc⟩ := hwhole.head
      exact ⟨c, _, rfl, Or.inr hc⟩
    · exact ⟨'-', _, rfl, Or.inl rfl⟩

theorem Leads.ne {c d : Char} (hc : Leads c) (hminus : d ≠ '-') (hdigit : Text.isDigit d = false) :
    c ≠ d := by
  rintro rfl
  rcases hc with rfl | hc
  · exact hminus rfl
  · rw [hdigit] at hc
    cases hc

theorem passScalar?_number {c : Char} (hc : Leads c) (cs : List Char) :
    passScalar? (c :: cs) = some (passNumber (c :: cs)) := by
  unfold passScalar?
  split
  · rename_i heq
    exact absurd (List.cons.inj heq).1 (hc.ne (by decide) rfl)
  · rename_i heq
    exact absurd (List.cons.inj heq).1 (hc.ne (by decide) rfl)
  · rename_i heq
    exact absurd (List.cons.inj heq).1 (hc.ne (by decide) rfl)
  · rename_i heq
    exact absurd (List.cons.inj heq).1 (hc.ne (by decide) rfl)
  · rename_i heq
    cases heq
    exact if_pos hc
  · rename_i heq
    cases heq

/-- A value begins neither with a blank nor like the end of a list. -/
theorem IsValue.begins {v : List Char} (hv : IsValue v) : Begins v := by
  cases hv with
  | null => exact ⟨'n', _, rfl, rfl, by decide⟩
  | true => exact ⟨'t', _, rfl, rfl, by decide⟩
  | false => exact ⟨'f', _, rfl, rfl, by decide⟩
  | number htext =>
    obtain ⟨c, tail, rfl, hc⟩ := htext.leads
    exact ⟨c, tail, rfl, hc.not_blank⟩
  | string => exact ⟨'"', _, rfl, rfl, by decide⟩
  | list => exact ⟨'[', _, rfl, rfl, by decide⟩
  | object => exact ⟨'\x7b', _, rfl, rfl, by decide⟩

theorem IsValue.string_of_head {tail : List Char} (hv : IsValue ('"' :: tail)) :
    ∃ cs, IsChars cs ∧ tail = cs ++ ['"'] := by
  generalize hv' : '"' :: tail = v at hv
  cases hv with
  | @string cs hcs => exact ⟨cs, hcs, (List.cons.inj hv').2⟩
  | number htext =>
    obtain ⟨c, cs, rfl, hc⟩ := htext.leads
    exact absurd (List.cons.inj hv').1.symm (hc.ne (by decide) rfl)
  | _ => exact absurd (List.cons.inj hv').1 (by decide)

theorem IsValue.list_of_head {tail : List Char} (hv : IsValue ('[' :: tail)) :
    ∃ slots last, (∀ s ∈ slots, IsValue s.value) ∧ '[' :: tail = listText slots last := by
  generalize hv' : '[' :: tail = v at hv
  cases hv with
  | @list slots last hslots => exact ⟨slots, last, hslots, rfl⟩
  | number htext =>
    obtain ⟨c, cs, rfl, hc⟩ := htext.leads
    exact absurd (List.cons.inj hv').1.symm (hc.ne (by decide) rfl)
  | _ => exact absurd (List.cons.inj hv').1 (by decide)

theorem IsValue.object_of_head {tail : List Char} (hv : IsValue ('\x7b' :: tail)) :
    ∃ entries last, (∀ e ∈ entries, IsValue e.value) ∧
      '\x7b' :: tail = objectText entries last := by
  generalize hv' : '\x7b' :: tail = v at hv
  cases hv with
  | @object entries last hentries => exact ⟨entries, last, hentries, rfl⟩
  | number htext =>
    obtain ⟨c, cs, rfl, hc⟩ := htext.leads
    exact absurd (List.cons.inj hv').1.symm (hc.ne (by decide) rfl)
  | _ => exact absurd (List.cons.inj hv').1 (by decide)

theorem IsValue.number_of_head {c : Char} {tail : List Char} (hv : IsValue (c :: tail))
    (hc : Leads c) : IsNumber (c :: tail) := by
  generalize hv' : c :: tail = v at hv
  cases hv with
  | number htext => exact htext
  | _ => exact absurd (List.cons.inj hv').1 (hc.ne (by decide) rfl)

def Gap.none : Gap := ⟨[], fun _ hc => absurd hc List.not_mem_nil⟩

/-- Between the parts of a list or an object, and at its end, a value may end. -/
theorem ends_parts (parts : List (List Char)) (last : Gap) {closing : Char}
    (hclosing : closing = ']' ∨ closing = '\x7d') (rest : List Char) :
    Ends (parts.flatMap (',' :: ·) ++ (last.text ++ closing :: rest)) := by
  cases parts with
  | nil => exact ends_gap last (ends_cons (Or.inr hclosing) rest)
  | cons part parts => exact ends_cons (Or.inl rfl) _

namespace Pending

variable {brackets : List Bracket} {rest : List Char}

theorem pass_step {p q : Pending} (h : p.step = .ok (.inl q)) : p.pass = q.pass := by
  rw [pass.eq_def]
  grind

theorem pass_end (rest : List Char) : pass ⟨.closed, [], rest⟩ = .ok rest := by
  rw [pass.eq_def]
  rfl

/-- Behind a value inside of a bracket, blanks are of no consequence. -/
theorem pass_closed_gap (g : Gap) (bracket : Bracket) (cs : List Char) :
    pass ⟨.closed, bracket :: brackets, g.text ++ cs⟩ =
      pass ⟨.closed, bracket :: brackets, cs⟩ := by
  have hstep : step ⟨.closed, bracket :: brackets, g.text ++ cs⟩ =
      step ⟨.closed, bracket :: brackets, cs⟩ := by simp only [step, skipBlanks_gap]
  rw [pass.eq_def, pass.eq_def ⟨.closed, bracket :: brackets, cs⟩]
  grind

theorem pass_scalar (g : Gap) {c : Char} {cs : List Char} (hblank : isBlank c = false)
    (hsquare : c ≠ '[') (hcurly : c ≠ '\x7b') (hpass : passScalar? (c :: cs) = some (.ok rest)) :
    pass ⟨.value, brackets, g.text ++ c :: cs⟩ = pass ⟨.closed, brackets, rest⟩ := by
  apply pass_step
  simp only [step, skipBlanks_gap_cons g hblank]
  rw [enterValue, hpass]
  · rfl
  · exact List.cons_ne_nil c cs
  · rintro tail ⟨⟩
    exact hsquare rfl
  · rintro tail ⟨⟩
    exact hcurly rfl

/-- Whether a text is passed over as a value, whatever stands around it. -/
def Passes (v : List Char) : Prop :=
  ∀ (g : Gap) (brackets : List Bracket) (rest : List Char), Ends rest →
    pass ⟨.value, brackets, g.text ++ (v ++ rest)⟩ = pass ⟨.closed, brackets, rest⟩

/-! ### Lists -/

theorem pass_list_end (last : Gap) :
    pass ⟨.closed, .square :: brackets, last.text ++ ']' :: rest⟩ =
      pass ⟨.closed, brackets, rest⟩ := by
  rw [pass_closed_gap]
  exact pass_step rfl

theorem pass_slots {slots : List Slot} (hslots : ∀ s ∈ slots, Passes s.value) (last : Gap) :
    pass ⟨.closed, .square :: brackets,
        (slots.map Slot.text).flatMap (',' :: ·) ++ (last.text ++ ']' :: rest)⟩ =
      pass ⟨.closed, brackets, rest⟩ := by
  induction slots with
  | nil => exact pass_list_end last
  | cons s slots ih =>
    obtain ⟨hs, hslots⟩ := List.forall_mem_cons.mp hslots
    have hends := ends_parts (slots.map Slot.text) last (Or.inl rfl) rest
    have hcomma : ∀ cs, pass ⟨.closed, .square :: brackets, ',' :: cs⟩ =
        pass ⟨.value, .square :: brackets, cs⟩ := fun _ => pass_step rfl
    simp only [List.map_cons, List.flatMap_cons, List.cons_append, Slot.text, List.append_assoc]
    rw [hcomma, hs s.before _ _ (ends_gap s.after hends), pass_closed_gap, ih hslots]

theorem passes_list {slots : List Slot} (hbegins : ∀ s ∈ slots, Begins s.value)
    (hslots : ∀ s ∈ slots, Passes s.value) (last : Gap) : Passes (listText slots last) := by
  intro g brackets rest _
  have hopen : ∀ cs, pass ⟨.value, brackets, g.text ++ '[' :: cs⟩ =
      pass ⟨.opened, .square :: brackets, cs⟩ := by
    intro cs
    apply pass_step
    simp only [step, skipBlanks_gap_cons g (c := '[') rfl]
    rfl
  simp only [listText, List.cons_append, List.append_assoc, List.nil_append]
  rw [hopen]
  cases slots with
  | nil =>
    apply pass_step
    simp only [List.map_nil, List.intercalate_nil, List.nil_append, step,
      skipBlanks_gap_cons last (c := ']') rfl]
    rfl
  | cons s slots =>
    obtain ⟨hs, hslots⟩ := List.forall_mem_cons.mp hslots
    obtain ⟨c, tail, hvalue, hblank, hend⟩ := hbegins s List.mem_cons_self
    have hends := ends_parts (slots.map Slot.text) last (Or.inl rfl) rest
    have hfirst : ∀ cs, pass ⟨.opened, .square :: brackets, s.before.text ++ (s.value ++ cs)⟩ =
        pass ⟨.value, .square :: brackets, s.value ++ cs⟩ := by
      intro cs
      apply pass_step
      rw [hvalue, List.cons_append]
      simp only [step, skipBlanks_gap_cons s.before hblank]
      rw [enterBracket]
      · rfl
      · simp
      · rintro tail' ⟨⟩
        exact hend rfl
    rw [List.map_cons, intercalate_cons]
    simp only [Slot.text, List.append_assoc]
    rw [hfirst]
    have hpass := hs Gap.none (.square :: brackets) _ (ends_gap s.after hends)
    rw [Gap.none, List.nil_append] at hpass
    rw [hpass, pass_closed_gap, pass_slots hslots]

/-! ### Objects -/

theorem passKey_entry (e : Entry) (cs : List Char) :
    passKey (e.before.text ++ '"' :: (e.rest ++ cs)) =
      .ok (e.beforeValue.text ++ (e.value ++ (e.after.text ++ cs))) := by
  have hskip := skipBlanks_gap_cons e.before (c := '"') rfl
  simp only [passKey, hskip, Entry.rest, List.append_assoc, List.cons_append,
    passString_append e.spelled, Except.bind, takeColon,
    skipBlanks_gap_cons e.beforeColon (c := ':') rfl]

theorem pass_object_end (last : Gap) :
    pass ⟨.closed, .curly :: brackets, last.text ++ '\x7d' :: rest⟩ =
      pass ⟨.closed, brackets, rest⟩ := by
  rw [pass_closed_gap]
  exact pass_step rfl

theorem pass_entries {entries : List Entry} (hentries : ∀ e ∈ entries, Passes e.value)
    (last : Gap) :
    pass ⟨.closed, .curly :: brackets,
        (entries.map Entry.text).flatMap (',' :: ·) ++ (last.text ++ '\x7d' :: rest)⟩ =
      pass ⟨.closed, brackets, rest⟩ := by
  induction entries with
  | nil => exact pass_object_end last
  | cons e entries ih =>
    obtain ⟨he, hentries⟩ := List.forall_mem_cons.mp hentries
    have hends := ends_parts (entries.map Entry.text) last (Or.inr rfl) rest
    have hcomma : ∀ cs, pass ⟨.closed, .curly :: brackets,
          ',' :: (e.before.text ++ '"' :: (e.rest ++ cs))⟩ =
        pass ⟨.value, .curly :: brackets,
          e.beforeValue.text ++ (e.value ++ (e.after.text ++ cs))⟩ := by
      intro cs
      apply pass_step
      simp only [step, skipBlanks_of_not_blank (c := ',') rfl, leaveValue, passKey_entry]
      rfl
    simp only [List.map_cons, List.flatMap_cons, List.cons_append, Entry.text, List.append_assoc]
    rw [hcomma, he e.beforeValue _ _ (ends_gap e.after hends), pass_closed_gap, ih hentries]

theorem passes_object {entries : List Entry} (hentries : ∀ e ∈ entries, Passes e.value)
    (last : Gap) : Passes (objectText entries last) := by
  intro g brackets rest _
  have hopen : ∀ cs, pass ⟨.value, brackets, g.text ++ '\x7b' :: cs⟩ =
      pass ⟨.opened, .curly :: brackets, cs⟩ := by
    intro cs
    apply pass_step
    simp only [step, skipBlanks_gap_cons g (c := '\x7b') rfl]
    rfl
  simp only [objectText, List.cons_append, List.append_assoc, List.nil_append]
  rw [hopen]
  cases entries with
  | nil =>
    apply pass_step
    simp only [List.map_nil, List.intercalate_nil, List.nil_append, step,
      skipBlanks_gap_cons last (c := '\x7d') rfl]
    rfl
  | cons e entries =>
    obtain ⟨he, hentries⟩ := List.forall_mem_cons.mp hentries
    have hends := ends_parts (entries.map Entry.text) last (Or.inr rfl) rest
    have hfirst : ∀ cs, pass ⟨.opened, .curly :: brackets,
          e.before.text ++ '"' :: (e.rest ++ cs)⟩ =
        pass ⟨.value, .curly :: brackets,
          e.beforeValue.text ++ (e.value ++ (e.after.text ++ cs))⟩ := by
      intro cs
      apply pass_step
      have hkey : passKey ('"' :: (e.rest ++ cs)) = _ :=
        passKey_entry { e with before := Gap.none } cs
      simp only [step, skipBlanks_gap_cons e.before (c := '"') rfl]
      rw [enterBracket, hkey]
      · rfl
      · exact List.cons_ne_nil _ _
      · rintro tail ⟨⟩
    rw [List.map_cons, intercalate_cons]
    simp only [Entry.text, List.append_assoc, List.cons_append]
    rw [hfirst, he e.beforeValue _ _ (ends_gap e.after hends), pass_closed_gap,
      pass_entries hentries]

/-- Every value is passed over, whatever stands around it. -/
theorem passes {v : List Char} (hv : IsValue v) : Passes v := by
  induction hv with
  | null => exact fun g _ _ _ => pass_scalar g rfl (by decide) (by decide) rfl
  | true => exact fun g _ _ _ => pass_scalar g rfl (by decide) (by decide) rfl
  | false => exact fun g _ _ _ => pass_scalar g rfl (by decide) (by decide) rfl
  | number htext =>
    intro g brackets rest hrest
    obtain ⟨c, tail, rfl, hc⟩ := htext.leads
    have hpass : passNumber (c :: (tail ++ rest)) = .ok rest := passNumber_append htext hrest.stops
    apply pass_scalar g hc.not_blank.1 (hc.ne (by decide) rfl) (hc.ne (by decide) rfl)
    exact (passScalar?_number hc _).trans (congrArg some hpass)
  | @string cs hcs =>
    intro g brackets rest _
    have hpass := passString_append hcs rest
    apply pass_scalar g rfl (by decide) (by decide)
    simpa [passScalar?] using hpass
  | list last hvalues ih => exact passes_list (fun s hs => (hvalues s hs).begins) ih last
  | object last _ ih => exact passes_object ih last

end Pending

/-- A value is passed over, with blanks before it. -/
theorem passValue_append (g : Gap) {v rest : List Char} (hv : IsValue v) (hrest : Ends rest) :
    passValue (g.text ++ (v ++ rest)) = .ok rest := by
  rw [passValue, Pending.passes hv g [] rest hrest, Pending.pass_end]

end RollCall.Json
