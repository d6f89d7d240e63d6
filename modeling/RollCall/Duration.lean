import RollCall.Number.Binary64
import RollCall.Text.Numeral

/-!
# Spans of time and the clock

A `Duration` is a whole number of nanoseconds below 2⁶⁴ seconds. A number of seconds given as a
double is rounded to the nearest nanosecond. An `Instant` counts nanoseconds from the start of
the clock, which cannot show an instant 2⁶³ seconds or more after it.

Main statements: `lt_after` (a span that is not empty leads to a later instant) and
`le_ceilMillis`.
-/

namespace RollCall

def nanosPerSecond : Nat := 1000000000

def nanosPerMilli : Nat := 1000000

/-- A span of time in whole nanoseconds, shorter than 2⁶⁴ seconds. -/
structure Duration where
  nanos : Nat
  /-- The seconds fit sixty-four bits. -/
  nanos_lt : nanos < Nat.pow 2 64 * nanosPerSecond
  deriving DecidableEq

namespace Duration

def zero : Duration := ⟨0, by decide⟩

def seconds (d : Duration) : Nat := d.nanos / nanosPerSecond

def subNanos (d : Duration) : Nat := d.nanos % nanosPerSecond

def ofNanos? (n : Nat) : Option Duration :=
  if h : n < Nat.pow 2 64 * nanosPerSecond then some ⟨n, h⟩ else none

theorem ofNanos?_eq_some_iff {n : Nat} {d : Duration} : ofNanos? n = some d ↔ d.nanos = n := by
  obtain ⟨nanos, hlt⟩ := d
  unfold ofNanos?
  split
  · simp [eq_comm]
  · rename_i hge
    simp only [reduceCtorEq, false_iff]
    rintro rfl
    exact hge hlt

/-- The span that a number of seconds denotes, rounded to whole nanoseconds, a half to the even
neighbour. There is none for what is no number, infinite, below zero, or too large. -/
def ofSeconds? (x : Binary64) : Option Duration :=
  if x.isFinite && (!x.negative || x.isZero) then
    ofNanos? (roundHalfEven (x.units * nanosPerSecond) Binary64.unitsPerOne)
  else none

/-- The double nearest to the whole seconds plus the double nearest to the rest. -/
def toSeconds (d : Duration) : Binary64 :=
  (Binary64.ofNat d.seconds).add (Binary64.ofRatio false d.subNanos nanosPerSecond)

/-- More seconds are no shorter span. -/
theorem ofSeconds?_mono {x y : Binary64} {d e : Duration} (hx : ofSeconds? x = some d)
    (hy : ofSeconds? y = some e) (hxy : x.units ≤ y.units) : d.nanos ≤ e.nanos := by
  unfold ofSeconds? at hx hy
  split at hx
  · split at hy
    · rw [ofNanos?_eq_some_iff.mp hx, ofNanos?_eq_some_iff.mp hy]
      exact roundHalfEven_mono (Nat.mul_le_mul_right _ hxy)
    · cases hy
  · cases hx

/-- The first digits of a fraction, as many as `places`, without zeros at the end. -/
def fractionDigits : Nat → Nat → Nat → List Char
  | 0, _, _ => []
  | places + 1, rest, den =>
    if rest = 0 then []
    else Text.digitChar (10 * rest / den) :: fractionDigits places (10 * rest % den) den

/-- A count of units with its exact decimal fraction and the unit's name. -/
def inUnits (n den : Nat) (unit : String) : String :=
  let fraction := fractionDigits 9 (n % den) den
  let point := if fraction.isEmpty then [] else '.' :: fraction
  String.ofList (Text.numeral (n / den) ++ point) ++ unit

/-- The span in the largest of `s`, `ms`, `µs`, `ns` of which it has at least one. -/
def text (d : Duration) : String :=
  if nanosPerSecond ≤ d.nanos then inUnits d.nanos nanosPerSecond "s"
  else if nanosPerMilli ≤ d.nanos then inUnits d.nanos nanosPerMilli "ms"
  else if 1000 ≤ d.nanos then inUnits d.nanos 1000 "µs"
  else inUnits d.nanos 1 "ns"

end Duration

/-- A point in time, in nanoseconds from the start of the clock. -/
structure Instant where
  nanos : Nat
  deriving DecidableEq

namespace Instant

instance : LE Instant := ⟨fun s t => s.nanos ≤ t.nanos⟩

instance : LT Instant := ⟨fun s t => s.nanos < t.nanos⟩

theorem le_def {s t : Instant} : s ≤ t ↔ s.nanos ≤ t.nanos := Iff.rfl

theorem lt_def {s t : Instant} : s < t ↔ s.nanos < t.nanos := Iff.rfl

instance (s t : Instant) : Decidable (s ≤ t) := inferInstanceAs (Decidable (s.nanos ≤ t.nanos))

instance (s t : Instant) : Decidable (s < t) := inferInstanceAs (Decidable (s.nanos < t.nanos))

instance : Min Instant := ⟨fun s t => if s ≤ t then s else t⟩

def start : Instant := ⟨0⟩

/-- The clock shows no instant from here on. -/
def horizon : Nat := Nat.pow 2 63 * nanosPerSecond

/-- Thirty years of 365 days: what stands in for a span that the clock cannot show the end of, and
the length of the longest sleep. -/
def farAhead : Nat := 86400 * 365 * 30 * nanosPerSecond

/-- The instant a span after another, or thirty years after it when the clock cannot show that. -/
def after (now : Instant) (d : Duration) : Instant :=
  if now.nanos + d.nanos < horizon then ⟨now.nanos + d.nanos⟩ else ⟨now.nanos + farAhead⟩

def afterMillis (now : Instant) (ms : Nat) : Instant := ⟨now.nanos + ms * nanosPerMilli⟩

/-- The milliseconds that a sleep lasts: those that are asked for, or thirty years. -/
def sleepMillis (ms : Nat) : Nat := min ms (farAhead / nanosPerMilli)

def afterSleep (now : Instant) (ms : Nat) : Instant := now.afterMillis (sleepMillis ms)

def ceilMillis (t : Instant) : Instant :=
  ⟨(t.nanos + (nanosPerMilli - 1)) / nanosPerMilli * nanosPerMilli⟩

def millis (t : Instant) : Nat := t.nanos / nanosPerMilli

theorem lt_after {now : Instant} {d : Duration} (h : 0 < d.nanos) : now < now.after d := by
  rw [after, lt_def]
  split
  · exact Nat.lt_add_of_pos_right h
  · exact Nat.lt_add_of_pos_right (by decide)

theorem le_after (now : Instant) (d : Duration) : now ≤ now.after d := by
  rw [after, le_def]
  split <;> exact Nat.le_add_right _ _

end Instant

end RollCall
