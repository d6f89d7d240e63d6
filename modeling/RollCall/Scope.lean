import RollCall.Session

/-!
# Scoped waits

A scope connects a session, waits, and runs a body only if everything was found. The handle is
released on every way out: before the body's value is handed on, before a failed wait is reported,
and when the body breaks down or the scope is given up. What the body comes to is handed on as it
is. What follows from that for every run is in `RollCall.Proofs.ScopeContract`.
-/

namespace RollCall

/-- How a body ends: with a value, or by breaking down in one of the ways `κ`. -/
inductive BodyEnd (κ ρ : Type)
  | returned (value : ρ)
  | brokeDown (cause : κ)

/-- What runs inside a scope, in a world `σ`: it is entered with the session, and resumed until it
has come to an end. -/
structure Body (σ η β κ ρ : Type) where
  enter : Session η → Instant → σ → β × σ
  resume : Session η → Instant → β → σ → (β ⊕ BodyEnd κ ρ) × σ
  next? : β → Option Instant

inductive ScopeResult (κ ρ : Type)
  | failed (error : WaitFailure)
  | returned (value : ρ)
  | brokeDown (cause : κ)

inductive Scope (η β κ ρ : Type)
  | waiting (session : Session η) (wait : Wait)
  | inside (session : Session η) (body : β)
  | left (result : ScopeResult κ ρ)

namespace Scope

variable {σ η β κ ρ : Type}

/-- Shuts the session down and leaves with a result. -/
def leave (T : Transport σ η) (session : Session η) (result : ScopeResult κ ρ) (s : σ) :
    Scope η β κ ρ × σ :=
  match session.close T.toLink s with
  | .ok (_, s) => (.left result, s)
  | .error e => (.left (.failed (.usage e)), session.drop T.toLink s)

/-- Connects a session and begins to wait. -/
def enter (T : Transport σ η) (expected : List String) (settings : Settings) (identity : Identity)
    (now : Instant) (s : σ) : Scope η β κ ρ × σ :=
  match Session.connect T expected settings identity s with
  | .error e => (.left (.failed e), s)
  | .ok (session, s) =>
    match session.begin T.toLink now s with
    | .error e => (.left (.failed (.usage e)), session.drop T.toLink s)
    | .ok (wait, s) => (.waiting session wait, s)

/-- Resumes the body, and leaves when it has come to an end. -/
def resume (T : Transport σ η) (body : Body σ η β κ ρ) (session : Session η) (now : Instant) (b : β)
    (s : σ) : Scope η β κ ρ × σ :=
  match body.resume session now b s with
  | (.inl b, s) => (.inside session b, s)
  | (.inr (.returned value), s) => leave T session (.returned value) s
  | (.inr (.brokeDown cause), s) => (.left (.brokeDown cause), session.drop T.toLink s)

/-- Leaves after a wait that has not found everything. -/
def leaveUnfound (T : Transport σ η) (session : Session η) (error : NameSet → WaitFailure) (s : σ) :
    Scope η β κ ρ × σ :=
  match session.missingNames with
  | .error e => (.left (.failed (.usage e)), session.drop T.toLink s)
  | .ok missing => leave T session (.failed (error missing)) s

/-- Goes on after a wait has ended. -/
def afterWait (T : Transport σ η) (body : Body σ η β κ ρ) (session : Session η) (outcome : Outcome)
    (now : Instant) (s : σ) : Scope η β κ ρ × σ :=
  match outcome with
  | .found =>
    let (b, s) := body.enter session now s
    resume T body session now b s
  | .timedOut => leaveUnfound T session .timeout s
  | .cancelled => leaveUnfound T session .cancelled s

/-- Goes on as far as it is possible at an instant. -/
def advance (T : Transport σ η) (cancelled : σ → Bool) (body : Body σ η β κ ρ) (now : Instant)
    (scope : Scope η β κ ρ) (s : σ) : Scope η β κ ρ × σ :=
  match scope with
  | .waiting session wait =>
    match session.handle with
    | none => (.left (.failed (.usage .waitAfterClose)), s)
    | some handle =>
      match session.turn T.toLink cancelled handle now wait s with
      | (.ended outcome _, session, s) => afterWait T body session outcome now s
      | (.pending wait, session, s) => (.waiting session wait, s)
  | .inside session b => resume T body session now b s
  | .left result => (.left result, s)

/-- Gives the scope up where it stands. -/
def abandon (T : Transport σ η) (scope : Scope η β κ ρ) (s : σ) : σ :=
  match scope with
  | .waiting session _ => session.drop T.toLink s
  | .inside session _ => session.drop T.toLink s
  | .left _ => s

def next? (body : Body σ η β κ ρ) : Scope η β κ ρ → Option Instant
  | .waiting _ wait => wait.next?
  | .inside _ b => body.next? b
  | .left _ => none

/-- What the scope has come to, once it has been left. -/
def result? : Scope η β κ ρ → Option (ScopeResult κ ρ)
  | .left result => some result
  | _ => none

end Scope

end RollCall
