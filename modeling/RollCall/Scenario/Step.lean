import RollCall.Check
import RollCall.Scenario.World

/-!
# Steps and their answers

What a scenario can ask for, step by step, and what each step can answer.
-/

namespace RollCall.Scenario

/-- What happens around a step that takes time: events, each some milliseconds after the step
begins, and a number of milliseconds after which the step is abandoned. -/
structure Timing where
  events : List (Nat × Event) := []
  limit : Option Nat := none

/-- How the body of a scope ends. -/
inductive BodyPlan
  | succeed
  | fail (text : String)
  | breakDown (text : String)
  /-- An error that looks like a timeout of the scope. -/
  | failLikeTimeout (missing : NameSet)

/-- What the body of a scope does: events happen, it sleeps, and it ends. -/
structure BodyScript where
  events : List Event := []
  sleep : Nat := 0
  plan : BodyPlan := .succeed

inductive Step
  | event (e : Event)
  | participants (graph : String)
  | contains (graph name : String)
  | live (graph : String)
  | dropGraph (graph : String)
  | script (label : String) (snapshots : List Snapshot) (failure : Option String)
  | sleep (ms : Nat)
  | connect (label : String) (expected : List String) (settings : Settings)
      (identity via : Option String) (graph : String)
  | wait (sessions : List String) (token : Option String) (timing : Timing)
  | found (session : String)
  | missing (session : String)
  | info (session : String)
  | close (session : String)
  | dropSession (session : String)
  | handle (label identity : String) (via : Option String) (graph : String)
  | list (handle : String)
  | destroy (handle : String)
  | dropHandle (handle : String)
  | scope (expected : List String) (settings : Settings) (via : Option String) (graph : String)
      (token : Option String) (body : BodyScript) (timing : Timing)
  | launch (label : String) (entrants : List String) (graph : String)
  | stop (launch : String)
  | dropLaunch (launch : String)
  | check (expected : List String) (settings : Settings) (mode : Mode) (token : Option String)
      (timing : Timing) (graph : String)

/-- Why a step, or something that it waited for, failed. -/
inductive Refusal
  /-- A label is not in use, or is given twice; the field that holds it. -/
  | badLabel (field : String)
  | wait (error : WaitFailure)
  | badIdentity
  | entrant (error : EntrantError)
  /-- The error of a body. -/
  | body (text : String)
  /-- A breakdown. -/
  | brokeDown (text : String)

namespace Refusal

/-- The wording of a refusal. -/
def message : Refusal → String
  | badLabel field => field
  | wait error => error.message
  | badIdentity => Identity.invalidText
  | entrant error => error.message
  | body text => text
  | brokeDown text => text

/-- The names that were missing, where that is why. -/
def missing? : Refusal → Option NameSet
  | wait error => error.missing?
  | _ => none

end Refusal

/-- What one of the waits of a step came to, and after how many milliseconds. -/
structure WaitAnswer where
  result : Except Misuse Outcome
  elapsed : Nat

/-- What the body of a scope saw when it was entered. -/
structure BodyView where
  found : NameSet
  missing : NameSet
  /-- The live handles of the graph. -/
  live : Nat
  /-- Milliseconds since the step began. -/
  time : Nat

/-- What is told of a session that is looked at. -/
structure SessionView where
  identity : String
  expected : NameSet
  timeout : Duration
  closed : Bool

/-- What a step answers. -/
inductive Answer
  | nothing
  | name (text : String)
  | flag (value : Bool)
  | count (n : Nat)
  | names (set : NameSet)
  | connected (view : SessionView)
  | info (view : SessionView)
  | launched (size : Nat)
  | waits (answers : List WaitAnswer)
  | scope (view : BodyView) (elapsed : Nat)
  | report (report : Report) (elapsed : Nat)
  /-- What the step waited for failed. -/
  | failed (cause : Refusal) (elapsed : Nat)
  /-- The limit was reached first. -/
  | abandoned (elapsed : Nat)

end RollCall.Scenario
