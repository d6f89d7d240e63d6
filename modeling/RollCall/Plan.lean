import RollCall.Entrant
import RollCall.Settings

/-!
# Plans

A plan says how a launch check is made: the settings of the wait, the names that must become
visible, and the participants to launch. It is read from a document in a file, or is the
demonstration with three participants.
-/

namespace RollCall

/-- Everything that one launch check needs. -/
structure Plan where
  settings : Settings
  expected : List String
  participants : List Entrant
  deriving DecidableEq

inductive FileError
  | notFound
  | isDirectory
  | notText
  deriving DecidableEq

/-- The contents of files by their paths. -/
abbrev Files := String → Except FileError ByteArray

inductive PlanError
  | unreadable (path : String) (cause : FileError)
  | unusable (path : String) (cause : Json.Fault)
  deriving DecidableEq

namespace PlanError

def message : PlanError → String
  | unreadable path _ => "Failed to read config file: " ++ Text.quoted path
  | unusable path _ => "Failed to parse config file: " ++ Text.quoted path

end PlanError

namespace Plan

/-- Three participants that join at once and are all expected. -/
def demonstration : Plan :=
  let names := (List.range 3).map fun i => "demo_node_" ++ Text.numeralText i
  { settings := Settings.standard, expected := names, participants := names.map (⟨·, 0⟩) }

structure Draft where
  settings : Option Settings := none
  expected : Option (List String) := none
  participants : Option (List Entrant) := none

def members : List (Json.Member Draft) :=
  [{ name := "wait", given := (·.settings.isSome),
     value := Settings.reader.map fun x d => { d with settings := some x } },
   { name := "expected", given := (·.expected.isSome),
     value := (Json.Reader.list Json.Reader.string).map fun x d => { d with expected := some x } },
   { name := "participants", given := (·.participants.isSome),
     value := (Json.Reader.list Entrant.reader).map fun x d => { d with participants := some x } }]

/-- The plan of a draft; what is not given is standard or empty. -/
def Draft.plan (d : Draft) : Plan where
  settings := d.settings.getD Settings.standard
  expected := d.expected.getD []
  participants := d.participants.getD []

def reader : Json.Reader Plan := Json.Reader.record members {} fun d => some d.plan

def written (p : Plan) : List Char :=
  Json.writtenObject
    [("wait", p.settings.written),
     ("expected", Json.writtenList (p.expected.map Json.written)),
     ("participants", Json.writtenList (p.participants.map Entrant.written))]

def json (p : Plan) : String := String.ofList p.written

def load (files : Files) (path : String) : Except PlanError Plan :=
  match files path with
  | .error e => .error (.unreadable path e)
  | .ok bytes =>
    match String.fromUTF8? bytes with
    | none => .error (.unreadable path .notText)
    | some text =>
      match reader.document text with
      | .error e => .error (.unusable path e)
      | .ok plan => .ok plan

/-- The plan in a file, or the demonstration when no file is named. -/
def loadOrDemonstrate (files : Files) : Option String → Except PlanError Plan
  | none => .ok demonstration
  | some path => load files path

end Plan

end RollCall
