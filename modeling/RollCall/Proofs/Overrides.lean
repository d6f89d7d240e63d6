import RollCall.Proofs.NumberText
import RollCall.Settings

/-!
# What the environment overrides

The value of a variable is a row of bytes. It says a number if it is a text that shows the number
between its blanks. An override is heeded if every variable that is set has replaced its span by the
number it says, or if the error names a variable that says none.

Not every override is: a value that is no text counts as not set, so its span is kept. That is
noticed only if the other variable is a text that says no number.
-/

namespace RollCall

namespace Settings

/-- The number that the text of a variable shows, without the blanks around it. -/
def number? (text : String) : Option Binary64 := Binary64.ofText? (Text.trimBlanks text.toList)

/-- The text of the variable of a span, if it is set to one that is no number. -/
def misread? (lookup : String → Option String) (span : Span) : Option String :=
  (lookup span.variableName).filter fun text => (number? text).isNone

/-- The error for the first variable that is no number; the timeout is looked at first. -/
def firstMisread? (lookup : String → Option String) : Option SettingsError :=
  ((misread? lookup .timeout).map (.notANumber .timeout)).or
    ((misread? lookup .interval).map (.notANumber .interval))

/-- The number that the variable of a span shows, or else what the settings say. -/
def overridden (lookup : String → Option String) (s : Settings) (span : Span) : Binary64 :=
  ((lookup span.variableName).bind number?).getD (s.seconds span)

theorem overrideSpan_of_misread
    {lookup : String → Option String} {span : Span} {text : String}
    (hmisread : misread? lookup span = some text) (s : Settings) :
    s.overrideSpan lookup span = .error (.notANumber span text) := by
  obtain ⟨hset, hnumber⟩ := Option.filter_eq_some_iff.mp hmisread
  have hnone : Binary64.ofText? (Text.trimBlanks text.toList) = none :=
    Option.isNone_iff_eq_none.mp hnumber
  simp only [overrideSpan, hset, overriding, hnone, Except.map]

theorem overrideSpan_of_read
    {lookup : String → Option String} {span : Span} (hread : misread? lookup span = none)
    (s : Settings) :
    s.overrideSpan lookup span = .ok (s.setSeconds (s.overridden lookup span) span) := by
  cases hset : lookup span.variableName with
  | none => simp [overrideSpan, overridden, hset]
  | some text =>
    cases hnumber : number? text with
    | none => simp [misread?, hset, hnumber, Option.filter] at hread
    | some x =>
      have hshown : Binary64.ofText? (Text.trimBlanks text.toList) = some x := hnumber
      simp only [overrideSpan, overridden, hset, overriding, hshown, Except.map, Option.bind_some,
        hnumber, Option.getD_some]

theorem firstMisread?_eq_some_iff {lookup : String → Option String} {e : SettingsError} :
    firstMisread? lookup = some e ↔
      (∃ text, misread? lookup .timeout = some text ∧ e = .notANumber .timeout text) ∨
        misread? lookup .timeout = none ∧
          ∃ text, misread? lookup .interval = some text ∧ e = .notANumber .interval text := by
  unfold firstMisread?
  cases misread? lookup .timeout with
  | some text => simp [eq_comm]
  | none => simp [Option.map_eq_some_iff, eq_comm (a := e)]

theorem firstMisread?_eq_none_iff {lookup : String → Option String} :
    firstMisread? lookup = none ↔ ∀ span, misread? lookup span = none := by
  simp [firstMisread?, Span.forall_iff]

theorem override_of_misread
    {lookup : String → Option String} {e : SettingsError} (hmisread : firstMisread? lookup = some e)
    (s : Settings) : s.override lookup = .error e := by
  rcases firstMisread?_eq_some_iff.mp hmisread with
    ⟨text, htimeout, rfl⟩ | ⟨htimeout, text, hinterval, rfl⟩
  · rw [override, overrideSpan_of_misread htimeout]
    rfl
  · rw [override, overrideSpan_of_read htimeout]
    exact overrideSpan_of_misread hinterval _

/-- Variables that are numbers override what the settings say, each its own span. -/
theorem override_of_read
    {lookup : String → Option String} (hread : firstMisread? lookup = none) (s : Settings) :
    s.override lookup =
      .ok ⟨s.overridden lookup .timeout, s.overridden lookup .interval, s.stem⟩ := by
  have hspans := firstMisread?_eq_none_iff.mp hread
  rw [override, overrideSpan_of_read (hspans .timeout)]
  exact overrideSpan_of_read (hspans .interval) _

end Settings

namespace Environment

theorem toUTF8_injective {text text' : String} (h : text.toUTF8 = text'.toUTF8) : text = text' :=
  String.toByteArray_inj.mp h

theorem fromUTF8?_eq_some_iff {bytes : ByteArray} {text : String} :
    String.fromUTF8? bytes = some text ↔ bytes = text.toUTF8 := by
  unfold String.fromUTF8?
  split
  · rw [Option.some.injEq]
    constructor
    · rintro rfl
      rfl
    · rintro rfl
      rfl
  · rename_i hinvalid
    simp only [reduceCtorEq, false_iff]
    rintro rfl
    exact hinvalid text.isValidUTF8

theorem text?_eq_some_iff {env : Environment} {name text : String} :
    env.text? name = some text ↔ env name = some text.toUTF8 := by
  simp [text?, Option.bind_eq_some_iff, fromUTF8?_eq_some_iff]

def IsText (bytes : ByteArray) : Prop := ∃ text : String, bytes = text.toUTF8

/-- The bytes are a text that shows the double between its blanks. -/
def Says (bytes : ByteArray) (x : Binary64) : Prop :=
  ∃ text : String, bytes = text.toUTF8 ∧
    ∃ trimmed, Text.Trims text.toList trimmed ∧ Binary64.Shows trimmed x

/-- The variable of a span is set to a text that says no number. -/
def Misread (env : Environment) (span : Span) (text : String) : Prop :=
  env span.variableName = some text.toUTF8 ∧ ∀ x, ¬ Says text.toUTF8 x

theorem says_toUTF8_iff {text : String} {x : Binary64} :
    Says text.toUTF8 x ↔ Settings.number? text = some x := by
  rw [Settings.number?, Binary64.ofText?_eq_some_iff]
  constructor
  · rintro ⟨text', heq, trimmed, htrims, hshows⟩
    rw [toUTF8_injective heq, ← htrims.eq_trimBlanks]
    exact hshows
  · intro hshows
    exact ⟨text, rfl, _, Text.trims_trimBlanks _, hshows⟩

theorem Says.unique {bytes : ByteArray} {x y : Binary64} (hx : Says bytes x) (hy : Says bytes y) :
    x = y := by
  obtain ⟨text, rfl⟩ : IsText bytes := hx.imp fun _ h => h.1
  rw [says_toUTF8_iff] at hx hy
  exact Option.some.inj (hx.symm.trans hy)

theorem misread_iff {env : Environment} {span : Span} {text : String} :
    Misread env span text ↔ Settings.misread? env.text? span = some text := by
  rw [Settings.misread?, Option.filter_eq_some_iff, text?_eq_some_iff,
    Option.isNone_iff_eq_none, Option.eq_none_iff_forall_ne_some]
  simp only [Misread, says_toUTF8_iff, ne_eq]

theorem misread?_eq_none_iff {env : Environment} {span : Span} :
    Settings.misread? env.text? span = none ↔ ∀ text, ¬ Misread env span text := by
  simp only [Option.eq_none_iff_forall_ne_some, ne_eq, misread_iff]

end Environment

namespace Settings

open Environment

/-- Each span is what the text of its variable says, or else as it was, and so is the stem. -/
structure Takes (env : Environment) (s t : Settings) : Prop where
  said : ∀ (span : Span) (text : String), env span.variableName = some text.toUTF8 →
    Says text.toUTF8 (t.seconds span)
  kept : ∀ span : Span, (∀ text : String, env span.variableName ≠ some text.toUTF8) →
    t.seconds span = s.seconds span
  stem : t.stem = s.stem

/-- The variable of the span is misread, and no other that is looked at before it. -/
structure Blames (env : Environment) (span : Span) (text : String) : Prop where
  misread : Misread env span text
  first : span = .timeout ∨ ∀ text, ¬ Misread env .timeout text

/-- Every variable that is set has replaced its span by the number it says, and nothing else is
changed. -/
structure Heeds (env : Environment) (s t : Settings) : Prop where
  set : ∀ (span : Span) (bytes : ByteArray), env span.variableName = some bytes →
    Says bytes (t.seconds span)
  unset : ∀ span : Span, env span.variableName = none → t.seconds span = s.seconds span
  stem : t.stem = s.stem

/-- The variables are heeded, or the error names one that is set to what says no number. -/
def NothingDropped (env : Environment) (s : Settings) : Prop :=
  (∃ t, s.override env.text? = .ok t ∧ Heeds env s t) ∨
    ∃ span text, s.override env.text? = .error (.notANumber span text) ∧
      ∃ bytes, env span.variableName = some bytes ∧ ∀ x, ¬ Says bytes x

variable {env : Environment} {s t : Settings} {e : SettingsError} {span : Span}

theorem eq_iff_seconds :
    s = t ↔ (∀ span, s.seconds span = t.seconds span) ∧ s.stem = t.stem := by
  constructor
  · rintro rfl
    exact ⟨fun _ => rfl, rfl⟩
  · obtain ⟨timeout, interval, stem⟩ := s
    obtain ⟨timeout', interval', stem'⟩ := t
    rintro ⟨hseconds, rfl⟩
    obtain rfl : timeout = timeout' := hseconds .timeout
    obtain rfl : interval = interval' := hseconds .interval
    rfl

theorem overridden_of_text (s : Settings) {text : String} {x : Binary64}
    (hset : env span.variableName = some text.toUTF8) (hsaid : Says text.toUTF8 x) :
    s.overridden env.text? span = x := by
  simp only [overridden, text?_eq_some_iff.mpr hset, Option.bind_some,
    says_toUTF8_iff.mp hsaid, Option.getD_some]

theorem overridden_of_no_text (s : Settings)
    (hset : ∀ text : String, env span.variableName ≠ some text.toUTF8) :
    s.overridden env.text? span = s.seconds span := by
  have hnone : env.text? span.variableName = none := by
    simp only [Option.eq_none_iff_forall_ne_some, ne_eq, text?_eq_some_iff]
    exact hset
  simp only [overridden, hnone, Option.bind_none, Option.getD_none]

/-- A variable that is a text says a number unless it is misread. -/
theorem exists_saying {text : String} (hread : ∀ text, ¬ Misread env span text)
    (hset : env span.variableName = some text.toUTF8) : ∃ x, Says text.toUTF8 x := by
  by_contra hnone
  exact hread text ⟨hset, not_exists.mp hnone⟩

theorem takes_overridden (s : Settings) (hread : ∀ span text, ¬ Misread env span text) :
    Takes env s ⟨s.overridden env.text? .timeout, s.overridden env.text? .interval, s.stem⟩ := by
  have hseconds : ∀ span, seconds
      ⟨s.overridden env.text? .timeout, s.overridden env.text? .interval, s.stem⟩ span =
        s.overridden env.text? span := Span.forall_iff.mpr ⟨rfl, rfl⟩
  refine ⟨?_, ?_, rfl⟩
  · intro span text hset
    obtain ⟨x, hx⟩ := exists_saying (hread span) hset
    rw [hseconds, overridden_of_text s hset hx]
    exact hx
  · intro span hset
    rw [hseconds, overridden_of_no_text s hset]

theorem Takes.unique {t' : Settings} (ht : Takes env s t) (ht' : Takes env s t') : t = t' := by
  refine eq_iff_seconds.mpr ⟨?_, ht.stem.trans ht'.stem.symm⟩
  intro span
  by_cases hset : ∃ text : String, env span.variableName = some text.toUTF8
  · obtain ⟨text, hset⟩ := hset
    exact (ht.said span text hset).unique (ht'.said span text hset)
  · exact (ht.kept span (not_exists.mp hset)).trans (ht'.kept span (not_exists.mp hset)).symm

theorem Takes.not_misread (ht : Takes env s t) (span : Span) (text : String) :
    ¬ Misread env span text := by
  rintro ⟨hset, hnone⟩
  exact hnone _ (ht.said span text hset)

theorem firstMisread?_eq_none_iff_misread :
    firstMisread? env.text? = none ↔ ∀ span text, ¬ Misread env span text := by
  simp only [firstMisread?_eq_none_iff, misread?_eq_none_iff]

theorem firstMisread?_eq_some_iff_blames :
    firstMisread? env.text? = some e ↔ ∃ span text, e = .notANumber span text ∧
      Blames env span text := by
  rw [firstMisread?_eq_some_iff]
  simp only [misread?_eq_none_iff, ← misread_iff]
  constructor
  · rintro (⟨text, hmisread, rfl⟩ | ⟨htimeout, text, hmisread, rfl⟩)
    · exact ⟨.timeout, text, rfl, hmisread, Or.inl rfl⟩
    · exact ⟨.interval, text, rfl, hmisread, Or.inr htimeout⟩
  · rintro ⟨span, text, rfl, hmisread, hfirst⟩
    cases span with
    | timeout => exact Or.inl ⟨text, hmisread, rfl⟩
    | interval => exact Or.inr ⟨hfirst.resolve_left (by decide), text, hmisread, rfl⟩

theorem override_eq_ok_iff : s.override env.text? = .ok t ↔ Takes env s t := by
  constructor
  · intro hok
    cases hfirst : firstMisread? env.text? with
    | some e =>
      rw [override_of_misread hfirst] at hok
      cases hok
    | none =>
      rw [override_of_read hfirst] at hok
      cases hok
      exact takes_overridden s (firstMisread?_eq_none_iff_misread.mp hfirst)
  · intro htakes
    have hread := htakes.not_misread
    rw [override_of_read (firstMisread?_eq_none_iff_misread.mpr hread),
      (takes_overridden s hread).unique htakes]

theorem override_eq_error_iff :
    s.override env.text? = .error e ↔ ∃ span text, e = .notANumber span text ∧
      Blames env span text := by
  rw [← firstMisread?_eq_some_iff_blames]
  constructor
  · intro herror
    cases hfirst : firstMisread? env.text? with
    | some e' =>
      rw [override_of_misread hfirst] at herror
      cases herror
      rfl
    | none =>
      rw [override_of_read hfirst] at herror
      cases herror
  · intro hfirst
    exact override_of_misread hfirst s

/-- What is taken over heeds the variables exactly if every one that is set is a text. -/
theorem Takes.heeds_iff (ht : Takes env s t) :
    Heeds env s t ↔
      ∀ (span : Span) (bytes : ByteArray), env span.variableName = some bytes → IsText bytes := by
  constructor
  · intro hheeds span bytes hset
    exact (hheeds.set span bytes hset).imp fun _ h => h.1
  · intro htext
    refine ⟨?_, ?_, ht.stem⟩
    · intro span bytes hset
      obtain ⟨text, rfl⟩ := htext span bytes hset
      exact ht.said span text hset
    · intro span hunset
      refine ht.kept span fun text hset => ?_
      rw [hunset] at hset
      cases hset

theorem nothingDropped_iff :
    NothingDropped env s ↔
      (∃ span text, Misread env span text) ∨
        ∀ (span : Span) (bytes : ByteArray), env span.variableName = some bytes → IsText bytes := by
  cases hfirst : firstMisread? env.text? with
  | some e =>
    obtain ⟨span, text, rfl, hblames⟩ := firstMisread?_eq_some_iff_blames.mp hfirst
    obtain ⟨hset, hnone⟩ := hblames.misread
    have hdropped : NothingDropped env s :=
      Or.inr ⟨span, text, override_of_misread hfirst s, _, hset, hnone⟩
    exact iff_of_true hdropped (Or.inl ⟨span, text, hset, hnone⟩)
  | none =>
    have hread := firstMisread?_eq_none_iff_misread.mp hfirst
    have htakes := takes_overridden s hread
    have hok := override_eq_ok_iff.mpr htakes
    have hno : ¬ ∃ span text, Misread env span text := by simpa using hread
    rw [or_iff_right hno, ← htakes.heeds_iff, NothingDropped]
    simp only [hok, Except.ok.injEq, exists_eq_left', reduceCtorEq, false_and, exists_false,
      or_false]

/-- An override has exactly one outcome: the settings that take over what the variables that are
texts say, or, if such a text says no number, the error that names its variable, the timeout's
first. No override is dropped exactly if this error is reported or every variable that is set is a
text; one that is no text leaves its span as it was. -/
theorem override_outcome (env : Environment) (s : Settings) :
    (∀ t, s.override env.text? = .ok t ↔ Takes env s t) ∧
    (∀ e, s.override env.text? = .error e ↔
      ∃ span text, e = .notANumber span text ∧ Blames env span text) ∧
    (NothingDropped env s ↔
      (∃ span text, Misread env span text) ∨
        ∀ (span : Span) (bytes : ByteArray), env span.variableName = some bytes → IsText bytes) :=
  ⟨fun _ => override_eq_ok_iff, fun _ => override_eq_error_iff, nothingDropped_iff⟩

/-- An environment in which the timeout is set to a byte that begins no character. -/
def undecodable : Environment := fun name =>
  if name = Span.timeout.variableName then some ⟨#[255]⟩ else none

theorem undecodable_ne_text (name text : String) : undecodable name ≠ some text.toUTF8 := by
  unfold undecodable
  split
  · intro htext
    have hread := fromUTF8?_eq_some_iff.mpr (Option.some.inj htext)
    have hnone : String.fromUTF8? ⟨#[255]⟩ = none := by decide
    rw [hnone] at hread
    cases hread
  · exact (Option.some_ne_none _).symm

/-- A timeout that is set to no text is dropped without an error. -/
theorem undecodable_override_dropped :
    undecodable Span.timeout.variableName = some ⟨#[255]⟩ ∧
      standard.override undecodable.text? = .ok standard ∧ ¬ NothingDropped undecodable standard := by
  refine ⟨rfl, override_eq_ok_iff.mpr ⟨?_, fun _ _ => rfl, rfl⟩, ?_⟩
  · intro span text hset
    exact absurd hset (undecodable_ne_text _ text)
  · rw [nothingDropped_iff]
    rintro (⟨span, text, hset, -⟩ | htext)
    · exact undecodable_ne_text _ text hset
    · obtain ⟨text, hbytes⟩ := htext .timeout ⟨#[255]⟩ rfl
      exact undecodable_ne_text Span.timeout.variableName text (congrArg some hbytes)

end Settings

end RollCall
