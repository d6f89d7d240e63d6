import RollCall.Json.Reader
import RollCall.Text.Quoted

/-!
# Entrants

A participant to be launched: its name and how many milliseconds after the launch it joins. The
short form is `NAME` or `NAME@DELAY`, split at the last `@`, so a name may hold that sign itself.

Main statement: `splitLast?_append` (the split is at the last separator).
-/

namespace RollCall

/-- A participant that is to join some milliseconds after its launch. -/
structure Entrant where
  name : String
  delay : Nat
  deriving DecidableEq

/-- Why a text is no entrant. -/
inductive EntrantError
  | badDelay (input : String)
  | emptyName (input : String)
  deriving DecidableEq

namespace EntrantError

def message : EntrantError → String
  | badDelay input => "invalid delay in " ++ Text.quoted input ++ ": expected milliseconds"
  | emptyName input => "empty participant name in " ++ Text.quoted input

end EntrantError

namespace Entrant

def delayBound : Nat := Nat.pow 2 64

/-- The parts of a text before and after the last occurrence of a character. -/
def splitLast? (sep : Char) : List Char → Option (List Char × List Char)
  | [] => none
  | c :: cs =>
    match splitLast? sep cs with
    | some (before, after) => some (c :: before, after)
    | none => if c = sep then some ([], cs) else none

theorem splitLast?_eq_none {sep : Char} {cs : List Char} (h : sep ∉ cs) :
    splitLast? sep cs = none := by
  induction cs with
  | nil => rfl
  | cons c cs ih =>
      obtain ⟨hc, hcs⟩ := not_or.mp (fun hm => h (List.mem_cons.mpr hm))
      simp [splitLast?, ih hcs, Ne.symm hc]

theorem splitLast?_append {sep : Char} (before : List Char) {after : List Char} (h : sep ∉ after) :
    splitLast? sep (before ++ sep :: after) = some (before, after) := by
  induction before with
  | nil => simp [splitLast?, splitLast?_eq_none h]
  | cons c cs ih => simp [splitLast?, ih]

/-- A number of milliseconds: digits, with at most one plus in front, below the bound. -/
def readDelay? (cs : List Char) : Option Nat :=
  let digits :=
    match cs with
    | '+' :: rest => rest
    | cs => cs
  if !digits.isEmpty && digits.all Text.isDigit && Text.value digits < delayBound then
    some (Text.value digits)
  else none

/-- The entrant of a short form. A delay that is no number is found before an empty name. -/
def ofText (input : String) : Except EntrantError Entrant :=
  match splitLast? '@' input.toList with
  | none => if input.isEmpty then .error (.emptyName input) else .ok ⟨input, 0⟩
  | some (before, after) =>
    match readDelay? after with
    | none => .error (.badDelay input)
    | some delay =>
      if before.isEmpty then .error (.emptyName input) else .ok ⟨String.ofList before, delay⟩

def text (e : Entrant) : String := e.name ++ "@" ++ Text.numeralText e.delay

structure Draft where
  name : Option String := none
  delay : Option Nat := none

def members : List (Json.Member Draft) :=
  [{ name := "name", given := (·.name.isSome),
     value := Json.Reader.string.map fun x d => { d with name := some x } },
   { name := "delay_ms", given := (·.delay.isSome),
     value := Json.Reader.natural.map fun x d => { d with delay := some x } }]

/-- The entrant of a draft. The name must be given; the delay is zero otherwise. -/
def Draft.entrant? (d : Draft) : Option Entrant := d.name.map fun name => ⟨name, d.delay.getD 0⟩

def reader : Json.Reader Entrant := Json.Reader.record members {} Draft.entrant?

def written (e : Entrant) : List Char :=
  Json.writtenObject [("name", Json.written e.name), ("delay_ms", Text.numeral e.delay)]

def json (e : Entrant) : String := String.ofList e.written

end Entrant

end RollCall
