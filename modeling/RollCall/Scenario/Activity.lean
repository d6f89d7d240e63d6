import RollCall.Scenario.Step

/-!
# Activities

What goes on while a step is suspended: several waits at once, a scope with its body, a check, a
poll of a bare handle, or a sleep. Each is a process in virtual time. Giving one up leaves a
session that was waited for as it was before, and gives up the session of a scope or a check.
-/

namespace RollCall.Scenario

/-- Something that takes time, with the answer it comes to. -/
structure Activity (α : Type) where
  process : Process World α Answer
  abandon : α → World → World
  /-- An instant after which nothing happens any more, if the activity is under way in a world. -/
  horizon : α → World → Instant

/-- One of the waits of a step. -/
inductive WaitTask
  | fresh (session : String)
  | running (session : String) (wait : Wait)
  | finished (answer : WaitAnswer)

namespace WaitTask

def elapsed (start now : Instant) : Nat := now.millis - start.millis

/-- Goes on with a wait that is under way. A wait that ends leaves its snapshot in its session. -/
def advanceWait (token : Option String) (start now : Instant) (label : String) (wait : Wait)
    (w : World) : WaitTask × World :=
  match w.sessions.get? label with
  | none => (.running label wait, w)
  | some session =>
    match session.handle with
    | none => (.running label wait, w)
    | some handle =>
      match session.turn World.link (World.cancelled token) handle now wait w with
      | (.ended outcome _, session, w) =>
        (.finished ⟨.ok outcome, elapsed start now⟩,
          { w with sessions := w.sessions.put label session })
      | (.pending wait, _, w) => (.running label wait, w)

def advance (token : Option String) (start now : Instant) (task : WaitTask) (w : World) :
    WaitTask × World :=
  match task with
  | .fresh label =>
    match w.sessions.get? label with
    | none => (.fresh label, w)
    | some session =>
      match session.begin World.link now w with
      | .error e => (.finished ⟨.error e, elapsed start now⟩, w)
      | .ok (wait, w) => advanceWait token start now label wait w
  | .running label wait => advanceWait token start now label wait w
  | .finished answer => (.finished answer, w)

def next? : WaitTask → Option Instant
  | .running _ wait => wait.next?
  | _ => none

def answer? : WaitTask → Option WaitAnswer
  | .finished answer => some answer
  | _ => none

end WaitTask

/-- Gives each wait one turn, in order. -/
def advanceTasks (token : Option String) (start now : Instant) :
    List WaitTask → World → List WaitTask × World
  | [], w => ([], w)
  | task :: rest, w =>
    let (task, w) := task.advance token start now w
    let (rest, w) := advanceTasks token start now rest w
    (task :: rest, w)

/-- Several waits at once, in order. One of them notices a token that a later one fires in the
second turn of the instant. -/
def waiting (token : Option String) (start : Instant) : Activity (List WaitTask) where
  process :=
    { advance := advanceTasks token start
      result? := fun tasks =>
        let answers := tasks.filterMap WaitTask.answer?
        if answers.length = tasks.length then some (.waits answers) else none
      next? := fun tasks =>
        tasks.foldl (fun first task => Timeline.earlier first task.next?) none }
  abandon _ w := w
  horizon tasks w :=
    let deadline : WaitTask → Nat
      | .fresh label => (w.sessions.get? label).elim 0 fun x => (start.after x.timeout).nanos
      | .running _ wait => wait.deadline.nanos
      | .finished _ => 0
    let latest := tasks.foldl (fun n task => max n (deadline task)) 0
    (Instant.ceilMillis ⟨latest⟩).afterMillis w.longestAnswer

/-- A body under way: what it saw, and until when it sleeps. -/
structure BodyState where
  view : BodyView
  wake : Instant

abbrev BodyValue := Except Refusal BodyView

/-- The body that a script describes, on a graph, in a step that began at an instant. -/
def scriptedBody (script : BodyScript) (registry : Nat) (start : Instant) :
    Body World Handle BodyState String BodyValue where
  enter session now w :=
    let view : BodyView :=
      { found := session.foundNames.toOption.getD ∅
        missing := session.missingNames.toOption.getD ∅
        live := ((w.registry registry).tally.live?).getD 0
        time := WaitTask.elapsed start now }
    (⟨view, now.afterSleep script.sleep⟩, script.events.foldl (fun w e => w.apply e) w)
  resume _ now b w :=
    if now < b.wake then (.inl b, w)
    else
      match script.plan with
      | .succeed => (.inr (.returned (.ok b.view)), w)
      | .fail text => (.inr (.returned (.error (.body text))), w)
      | .breakDown text => (.inr (.brokeDown text), w)
      | .failLikeTimeout missing =>
        (.inr (.returned (.error (.wait (.timeout missing)))), w)
  next? b := some b.wake

/-- A scope of the scenario, with the instant at which it was last resumed. -/
abbrev ScopeState := Scope Handle BodyState String BodyValue × Instant

def scopeAnswer (elapsed : Nat) : ScopeResult String BodyValue → Answer
  | .failed error => .failed (.wait error) elapsed
  | .returned (.ok view) => .scope view elapsed
  | .returned (.error cause) => .failed cause elapsed
  | .brokeDown text => .failed (.brokeDown text) elapsed

def scoping (source : Source) (script : BodyScript) (registry : Nat) (token : Option String)
    (start : Instant) : Activity ScopeState :=
  let body := scriptedBody script registry start
  { process :=
      { advance := fun now (scope, _) w =>
          let (scope, w) :=
            scope.advance (World.transport source) (World.cancelled token) body now w
          ((scope, now), w)
        result? := fun (scope, now) =>
          scope.result?.map (scopeAnswer (WaitTask.elapsed start now))
        next? := fun (scope, _) => scope.next? body }
    abandon := fun (scope, _) w => scope.abandon (World.transport source) w
    horizon := fun (scope, now) w =>
      let deadline : Instant :=
        match scope with
        | .waiting _ wait => wait.deadline.ceilMillis
        | _ => now
      deadline.afterMillis (w.longestAnswer + script.sleep) }

/-- A check on a graph, with the instant at which it was last resumed. -/
def checking (registry : Nat) (token : Option String) (start : Instant) :
    Activity (Check Handle × Instant) :=
  let transport := World.transport (.graph registry)
  { process :=
      { advance := fun now (check, _) w =>
          let (check, w) := check.advance transport (World.cancelled token) now w
          ((check, now), w)
        result? := fun (check, now) =>
          check.result?.map fun
            | .ok report => .report report (WaitTask.elapsed start now)
            | .error e => .failed (.wait e) (WaitTask.elapsed start now)
        next? := fun (check, _) => check.next? transport }
    abandon := fun (check, _) w => check.abandon transport w
    horizon := fun (check, now) _ =>
      match check with
      | .plain _ wait => wait.deadline.ceilMillis
      | .scoped (.waiting _ wait) => wait.deadline.ceilMillis
      | _ => now }

/-- Waits until an instant, and then has an answer. -/
def sleeping (wake : Instant) (answer : Answer) : Activity Bool where
  process :=
    { advance := fun now _ w => (decide (wake ≤ now), w)
      result? := fun ended => if ended then some answer else none
      next? := fun _ => some wake }
  abandon _ w := w
  horizon _ _ := wake.ceilMillis

end RollCall.Scenario
