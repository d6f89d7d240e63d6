import RollCall.Duration
import RollCall.Identity
import RollCall.Number.Reading
import RollCall.Text.Blank
import RollCall.Text.Quoted

/-!
# Settings of a wait

How long a wait may take, how far its polls are apart, and the stem of the session's identity. The
two spans are numbers of seconds, as they stand in documents and in the environment; they become
durations, or errors, when they are asked for.

Main statements: `durations_eq_ok_iff` and `check_eq_ok_iff_durations` (settings pass the check
exactly when both spans are durations and the interval is not empty).
-/

namespace RollCall

inductive Span
  | timeout
  | interval
  deriving DecidableEq

namespace Span

def key : Span → String
  | timeout => "timeout_secs"
  | interval => "poll_interval_secs"

/-- The environment variable that overrides a span. -/
def variableName : Span → String
  | timeout => "NODE_WAIT_TIMEOUT_SECS"
  | interval => "NODE_WAIT_POLL_INTERVAL_SECS"

theorem forall_iff {P : Span → Prop} : (∀ span, P span) ↔ P timeout ∧ P interval := by
  constructor
  · intro h
    exact ⟨h timeout, h interval⟩
  · rintro ⟨htimeout, hinterval⟩ span
    cases span with
    | timeout => exact htimeout
    | interval => exact hinterval

end Span

/-- What can be wrong with settings. -/
inductive SettingsError
  /-- A span is no number, infinite, negative or too long. -/
  | notADuration (span : Span) (value : Binary64)
  | emptyInterval
  /-- An environment variable is set to a text that is no number. -/
  | notANumber (span : Span) (text : String)
  deriving DecidableEq

namespace SettingsError

def message : SettingsError → String
  | notADuration span value =>
    span.key ++ " must be a finite, non-negative number of seconds (got " ++ value.plainText ++ ")"
  | emptyInterval => "poll_interval_secs must be greater than zero"
  | notANumber span text => span.variableName ++ " is not a number: " ++ Text.quoted text

end SettingsError

structure Settings where
  timeout : Binary64
  interval : Binary64
  /-- What the identity of a session begins with. -/
  stem : String
  deriving DecidableEq

namespace Settings

/-- Five seconds, three tenths of a second, and the usual stem. -/
def standard : Settings where
  timeout := Binary64.ofNat 5
  interval := Binary64.ofRatio false 3 10
  stem := Identity.defaultStem

def seconds (s : Settings) : Span → Binary64
  | .timeout => s.timeout
  | .interval => s.interval

def setSeconds (s : Settings) (value : Binary64) : Span → Settings
  | .timeout => { s with timeout := value }
  | .interval => { s with interval := value }

@[simp] theorem seconds_setSeconds_self (s : Settings) (value : Binary64) (span : Span) :
    (s.setSeconds value span).seconds span = value := by
  cases span with
  | timeout => rfl
  | interval => rfl

theorem seconds_setSeconds_of_ne (s : Settings) (value : Binary64) {span other : Span}
    (hne : other ≠ span) : (s.setSeconds value span).seconds other = s.seconds other := by
  cases span with
  | timeout =>
    cases other with
    | timeout => exact absurd rfl hne
    | interval => rfl
  | interval =>
    cases other with
    | timeout => rfl
    | interval => exact absurd rfl hne

@[simp] theorem setSeconds_seconds (s : Settings) (span : Span) :
    s.setSeconds (s.seconds span) span = s := by
  cases span with
  | timeout => rfl
  | interval => rfl

@[simp] theorem stem_setSeconds (s : Settings) (value : Binary64) (span : Span) :
    (s.setSeconds value span).stem = s.stem := by
  cases span with
  | timeout => rfl
  | interval => rfl

def withTimeout (s : Settings) (d : Duration) : Settings := { s with timeout := d.toSeconds }

def withInterval (s : Settings) (d : Duration) : Settings := { s with interval := d.toSeconds }

def withStem (s : Settings) (stem : String) : Settings := { s with stem }

theorem withTimeout_eq (s : Settings) (d : Duration) :
    s.withTimeout d = s.setSeconds d.toSeconds .timeout := rfl

theorem withInterval_eq (s : Settings) (d : Duration) :
    s.withInterval d = s.setSeconds d.toSeconds .interval := rfl

def duration (s : Settings) (span : Span) : Except SettingsError Duration :=
  match Duration.ofSeconds? (s.seconds span) with
  | some d => .ok d
  | none => .error (.notADuration span (s.seconds span))

theorem duration_eq_ok_iff {s : Settings} {span : Span} {d : Duration} :
    s.duration span = .ok d ↔ Duration.ofSeconds? (s.seconds span) = some d := by
  unfold duration
  split
  · rename_i h
    simp [h]
  · rename_i h
    simp [h]

/-- The timeout and the interval, if both are durations and the interval is not empty. The
timeout is looked at first. -/
def durations (s : Settings) : Except SettingsError (Duration × Duration) :=
  match s.duration .timeout with
  | .error e => .error e
  | .ok timeout =>
    match s.duration .interval with
    | .error e => .error e
    | .ok interval =>
      if interval.nanos = 0 then .error .emptyInterval else .ok (timeout, interval)

/-- Durations are those of both spans, and the interval is not empty. -/
theorem durations_eq_ok_iff {s : Settings} {timeout interval : Duration} :
    s.durations = .ok (timeout, interval) ↔
      s.duration .timeout = .ok timeout ∧ s.duration .interval = .ok interval ∧
        0 < interval.nanos := by
  unfold durations
  cases s.duration .timeout with
  | error e => simp
  | ok t =>
      cases s.duration .interval with
      | error e => simp
      | ok i =>
          by_cases h0 : i.nanos = 0
          · simp only [h0, if_true, reduceCtorEq, Except.ok.injEq, false_iff]
            rintro ⟨-, rfl, hpos⟩
            omega
          · simp only [h0, if_false, Except.ok.injEq, Prod.mk.injEq]
            constructor
            · rintro ⟨rfl, rfl⟩
              exact ⟨rfl, rfl, Nat.pos_of_ne_zero h0⟩
            · rintro ⟨rfl, rfl, -⟩
              exact ⟨rfl, rfl⟩

def check (s : Settings) : Except SettingsError Unit := s.durations.map fun _ => ()

theorem check_eq_error_iff {s : Settings} {e : SettingsError} :
    s.check = .error e ↔ s.durations = .error e := by
  cases h : s.durations with
  | error _ => simp [check, h, Except.map]
  | ok _ => simp [check, h, Except.map]

theorem check_eq_ok_iff_durations {s : Settings} :
    s.check = .ok () ↔ ∃ timeout interval, s.durations = .ok (timeout, interval) := by
  cases h : s.durations with
  | error _ => simp [check, h, Except.map]
  | ok spans => simp [check, h, Except.map, Prod.ext_iff]

/-- What is wrong with the timeout is found first. -/
theorem check_of_timeout_error {s : Settings} {e : SettingsError}
    (htimeout : s.duration .timeout = .error e) : s.check = .error e := by
  simp only [check, durations, htimeout, Except.map]

theorem check_of_interval_error {s : Settings} {timeout : Duration} {e : SettingsError}
    (htimeout : s.duration .timeout = .ok timeout) (hinterval : s.duration .interval = .error e) :
    s.check = .error e := by
  simp only [check, durations, htimeout, hinterval, Except.map]

theorem check_of_ok {s : Settings} {timeout interval : Duration}
    (htimeout : s.duration .timeout = .ok timeout) (hinterval : s.duration .interval = .ok interval)
    (hpos : 0 < interval.nanos) : s.check = .ok () :=
  check_eq_ok_iff_durations.mpr
    ⟨timeout, interval, durations_eq_ok_iff.mpr ⟨htimeout, hinterval, hpos⟩⟩

/-- Equality of the values: two zeros are equal, and what is no number equals nothing. -/
def sameValues (s t : Settings) : Bool :=
  s.timeout.sameValue t.timeout && s.interval.sameValue t.interval && s.stem == t.stem

/-- The number of seconds that the value of a variable denotes, blanks around it left out. -/
def overriding (span : Span) (text : String) : Except SettingsError Binary64 :=
  match Binary64.ofText? (Text.trimBlanks text.toList) with
  | some x => .ok x
  | none => .error (.notANumber span text)

/-- The settings with one span replaced, if its variable is set. -/
def overrideSpan (lookup : String → Option String) (span : Span) (s : Settings) :
    Except SettingsError Settings :=
  match lookup span.variableName with
  | none => .ok s
  | some text => (overriding span text).map (s.setSeconds · span)

/-- The settings with both spans replaced as far as their variables are set, the timeout first. -/
def override (lookup : String → Option String) (s : Settings) : Except SettingsError Settings :=
  (s.overrideSpan lookup .timeout).bind (overrideSpan lookup .interval)

structure Draft where
  timeout : Option Binary64 := none
  interval : Option Binary64 := none
  stem : Option String := none

def members : List (Json.Member Draft) :=
  [{ name := "timeout_secs", given := (·.timeout.isSome),
     value := Json.Reader.real.map fun x d => { d with timeout := some x } },
   { name := "poll_interval_secs", given := (·.interval.isSome),
     value := Json.Reader.real.map fun x d => { d with interval := some x } },
   { name := "identity_prefix", given := (·.stem.isSome),
     value := Json.Reader.string.map fun x d => { d with stem := some x } }]

/-- The settings of a draft; what is not given is as in the standard settings. -/
def Draft.settings (d : Draft) : Settings where
  timeout := d.timeout.getD standard.timeout
  interval := d.interval.getD standard.interval
  stem := d.stem.getD standard.stem

def reader : Json.Reader Settings := Json.Reader.record members {} fun d => some d.settings

def written (s : Settings) : List Char :=
  Json.writtenObject
    [("timeout_secs", Json.writtenNumber s.timeout),
     ("poll_interval_secs", Json.writtenNumber s.interval),
     ("identity_prefix", Json.written s.stem)]

def json (s : Settings) : String := String.ofList s.written

end Settings

/-- The values of environment variables, as bytes; a variable that is not set has none. -/
abbrev Environment := String → Option ByteArray

namespace Environment

/-- The value of a variable as text. A value that is no text counts as not set. -/
def text? (env : Environment) (name : String) : Option String :=
  (env name).bind String.fromUTF8?

end Environment

end RollCall
