import RollCall.Duration
import RollCall.Entrant
import RollCall.Registry

/-!
# Launches

A launch starts one task for each entrant. A task sleeps for its delay, joins, stays until the
launch is stopped, and leaves. A task that is stopped while its delay runs never joins; when its
delay ends at the same moment either may come first. What a turn can do to a task is listed in
`Task.Turn` of `RollCall.Proofs.Scene`.
-/

namespace RollCall

inductive Stage
  | pending (due : Instant)
  | present
  | gone
  deriving DecidableEq

/-- A task that lets one participant join and leave. -/
structure Task where
  name : String
  stage : Stage
  deriving DecidableEq

namespace Task

/-- What a task does when it is its turn. When the launch has been stopped and the delay has ended,
`timerFirst` says which of the two the task notices. -/
def step (timerFirst stopped : Bool) (now : Instant) (t : Task) (r : Registry) : Task × Registry :=
  match t.stage with
  | .pending due =>
    if stopped && !(timerFirst && due ≤ now) then ({ t with stage := .gone }, r)
    else if due ≤ now then ({ t with stage := .present }, r.join t.name)
    else (t, r)
  | .present => if stopped then ({ t with stage := .gone }, r.leave t.name) else (t, r)
  | .gone => (t, r)

end Task

structure Launch where
  tasks : List Task
  stopped : Bool
  deriving DecidableEq

namespace Launch

def start (entrants : List Entrant) (now : Instant) : Launch where
  tasks := entrants.map fun e => ⟨e.name, .pending (now.afterSleep e.delay)⟩
  stopped := false

def stop (l : Launch) : Launch := { l with stopped := true }

def size (l : Launch) : Nat := l.tasks.length

def settleTasks (stopped : Bool) (now : Instant) : List Task → Registry → List Task × Registry
  | [], r => ([], r)
  | t :: ts, r =>
    let (t, r) := t.step false stopped now r
    let (ts, r) := settleTasks stopped now ts r
    (t :: ts, r)

/-- Gives every task one turn. A task that is stopped when its delay ends does not join. -/
def settle (now : Instant) (l : Launch) (r : Registry) : Launch × Registry :=
  let (tasks, r) := settleTasks l.stopped now l.tasks r
  ({ l with tasks }, r)

/-- The first instant at which a task that has not been stopped joins. -/
def nextDue? (l : Launch) : Option Instant :=
  if l.stopped then none
  else l.tasks.foldl (fun first t =>
    match t.stage, first with
    | .pending due, none => some due
    | .pending due, some first => some (min first due)
    | _, first => first) none

end Launch

end RollCall
