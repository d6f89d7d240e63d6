import RollCall.Scope

/-!
# Launch checks

One check waits for the expected names, reports what was found and what was missing, and releases
its handle. The plain mode waits and reads the results; a timeout is a report without success. The
scoped mode reports from the body of a scope; a timeout is an error. To be cancelled is an error
in both. How the two modes agree is in `RollCall.Proofs.Modes`.
-/

namespace RollCall

/-- Which form of the session a check uses. -/
inductive Mode
  | plain
  | scoped
  deriving DecidableEq

structure Report where
  success : Bool
  found : NameSet
  missing : NameSet
  deriving DecidableEq

abbrev ReportResult := Except WaitFailure Report

/-- Where a check stands. -/
inductive Check (η : Type)
  | plain (session : Session η) (wait : Wait)
  | scoped (scope : Scope η Unit Empty ReportResult)
  | done (result : ReportResult)

namespace Check

variable {σ η : Type}

def report (session : Session η) (success : Bool) : ReportResult :=
  match session.foundNames, session.missingNames with
  | .ok found, .ok missing => .ok ⟨success, found, missing⟩
  | .error e, _ => .error (.usage e)
  | _, .error e => .error (.usage e)

/-- The body of a scoped check: it tells that it has been reached, and reports. -/
def reporting (T : Transport σ η) : Body σ η Unit Empty ReportResult where
  enter _ _ s := ((), T.tell .scopeReached s)
  resume session _ _ s := (.inr (.returned (report session true)), s)
  next? _ := none

def ofScope : Scope η Unit Empty ReportResult → Check η
  | .left (.failed e) => .done (.error e)
  | .left (.returned r) => .done r
  | .left (.brokeDown cause) => nomatch cause
  | scope => .scoped scope

def start (T : Transport σ η) (mode : Mode) (expected : List String) (settings : Settings)
    (identity : Identity) (now : Instant) (s : σ) : Check η × σ :=
  match mode with
  | .plain =>
    match Session.connect T expected settings identity s with
    | .error e => (.done (.error e), s)
    | .ok (session, s) =>
      match session.begin T.toLink now s with
      | .error e => (.done (.error (.usage e)), session.drop T.toLink s)
      | .ok (wait, s) => (.plain session wait, s)
  | .scoped =>
    let (scope, s) := Scope.enter T expected settings identity now s
    (ofScope scope, s)

/-- The end of a plain check: the report is read, the session is shut down, and a wait that was
cancelled becomes an error. -/
def finishPlain (T : Transport σ η) (session : Session η) (outcome : Outcome) (s : σ) :
    Check η × σ :=
  match report session (outcome = .found) with
  | .error e => (.done (.error e), session.drop T.toLink s)
  | .ok r =>
    match session.close T.toLink s with
    | .error e => (.done (.error (.usage e)), session.drop T.toLink s)
    | .ok (_, s) =>
      if outcome = .cancelled then (.done (.error (.cancelled r.missing)), s)
      else (.done (.ok r), s)

def advance (T : Transport σ η) (cancelled : σ → Bool) (now : Instant) (check : Check η) (s : σ) :
    Check η × σ :=
  match check with
  | .plain session wait =>
    match session.handle with
    | none => (.done (.error (.usage .waitAfterClose)), s)
    | some handle =>
      match session.turn T.toLink cancelled handle now wait s with
      | (.ended outcome _, session, s) => finishPlain T session outcome s
      | (.pending wait, session, s) => (.plain session wait, s)
  | .scoped scope =>
    let (scope, s) := scope.advance T cancelled (reporting T) now s
    (ofScope scope, s)
  | .done result => (.done result, s)

def abandon (T : Transport σ η) (check : Check η) (s : σ) : σ :=
  match check with
  | .plain session _ => session.drop T.toLink s
  | .scoped scope => scope.abandon T s
  | .done _ => s

def next? (T : Transport σ η) : Check η → Option Instant
  | .plain _ wait => wait.next?
  | .scoped scope => scope.next? (reporting T)
  | .done _ => none

def result? : Check η → Option ReportResult
  | .done result => some result
  | _ => none

end Check

end RollCall
