import RollCall.Scenario.Activity

/-!
# Running a scenario

Each step acts on the world and has an answer or a refusal. A step that takes time runs an
activity in virtual time from the instant at which it begins; the other steps take no time. A step
that names a label which is not in use, or one twice, changes nothing.
-/

namespace RollCall.Scenario

abbrev StepResult := Except Refusal Answer

/-- An answer as the result of a step. -/
def answered (r : Answer × World) : StepResult × World := (.ok r.1, r.2)

@[simp] theorem answered_snd (r : Answer × World) : (answered r).2 = r.2 := rfl

namespace World

/-- Runs an activity from now on. The events that are due at once come before its beginning. -/
def runActivity {α : Type} (activity : Activity α) (timing : Timing) (begin : World → α × World)
    (w : World) : Answer × World :=
  let start := w.now
  let events := (timing.events.map fun (ms, e) => (start.afterMillis ms, e)).mergeSort
    fun x y => x.1.nanos ≤ y.1.nanos
  let (events, w) := timeline.applyDue start events w
  let (a, w) := begin w
  let limit := timing.limit.map start.afterMillis
  match timeline.run activity.process (activity.horizon a w) limit start events a w with
  | (.finished answer _, w) => (answer, w)
  | (.abandoned a time, w) => (.abandoned (WaitTask.elapsed start time), activity.abandon a w)

def pause (ms : Nat) (answer : Answer) (w : World) : Answer × World :=
  let wake := w.now.afterSleep ms
  w.runActivity (sleeping wake answer) {} fun w => (false, w)

/-- Acts with the session under a label. -/
def withSession (label : String) (w : World)
    (act : Session Handle → StepResult × World) : StepResult × World :=
  match w.sessions.get? label with
  | none => (.error (.badLabel "session"), w)
  | some session => act session

def withHandle (label : String) (w : World) (act : Handle → StepResult × World) :
    StepResult × World :=
  match w.handles.get? label with
  | none => (.error (.badLabel "handle"), w)
  | some handle => act handle

/-- Where a step takes its handle from: a scripted transport, or a graph, which is mentioned. -/
def source (via : Option String) (graph : String) (w : World) :
    Except Refusal (Source × World) :=
  match via with
  | none =>
    let (i, w) := w.mention graph
    .ok (.graph i, w)
  | some label =>
    match w.scriptLabels.get? label with
    | none => .error (.badLabel "via")
    | some i => .ok (.script i, w)

/-- The identity that is given, or a fresh one. -/
def identityFor (given : Option String) (stem : String) (w : World) :
    Except Refusal (Identity × World) :=
  match given with
  | none => .ok (w.freshIdentity stem)
  | some name =>
    match Identity.ofName? name with
    | none => .error .badIdentity
    | some identity => .ok (identity, w)

def view (x : Session Handle) : SessionView where
  identity := x.identity.name
  expected := x.expected
  timeout := x.timeout
  closed := x.isClosed

/-- A result, or a wait's error as a refusal. -/
def ofUsage {α : Type} (f : α → Answer) : Except Misuse α → StepResult
  | .ok x => .ok (f x)
  | .error e => .error (.wait (.usage e))

/-- Connects a session and puts it under a label. The one that was there is given up afterwards;
a failure gives up nothing. -/
def connect (label : String) (expected : List String) (settings : Settings)
    (given via : Option String) (graph : String) (w : World) : StepResult × World :=
  match w.source via graph with
  | .error e => (.error e, w)
  | .ok (source, w) =>
    match w.identityFor given settings.stem with
    | .error e => (.error e, w)
    | .ok (identity, w) =>
      match Session.connect (transport source) expected settings identity w with
      | .error e => (.error (.wait e), w)
      | .ok (session, w) =>
        let old := w.sessions.get? label
        let w := { w with sessions := w.sessions.put label session }
        let w := old.elim w fun old => old.drop link w
        (.ok (.connected (view session)), w)

/-- Creates a handle and puts it under a label; the one that was there is given up. -/
def openHandle (label name : String) (via : Option String) (graph : String) (w : World) :
    StepResult × World :=
  match w.source via graph with
  | .error e => (.error e, w)
  | .ok (source, w) =>
    match Identity.ofName? name with
    | none => (.error .badIdentity, w)
    | some identity =>
      match register source identity w with
      | .error reason => (.error (.wait (.transport reason)), w)
      | .ok (handle, w) =>
        let old := w.handles.get? label
        let w := { w with handles := w.handles.put label handle }
        (.ok .nothing, old.elim w fun old => w.dropHandle old)

def waitFor (labels : List String) (token : Option String) (timing : Timing) (w : World) :
    StepResult × World :=
  if labels.Nodup ∧ ∀ label ∈ labels, (w.sessions.get? label).isSome then
    answered (w.runActivity (waiting token w.now) timing fun w => (labels.map .fresh, w))
  else (.error (.badLabel "session"), w)

/-- Enters a scope under a fresh identity, in a step that began at an instant. -/
def enterScope (source : Source) (expected : List String) (settings : Settings) (start : Instant)
    (w : World) : ScopeState × World :=
  let (identity, w) := w.freshIdentity settings.stem
  let (scope, w) := Scope.enter (transport source) expected settings identity start w
  ((scope, start), w)

/-- Starts a check under a fresh identity. -/
def startCheck (registry : Nat) (mode : Mode) (expected : List String) (settings : Settings)
    (start : Instant) (w : World) : (Check Handle × Instant) × World :=
  let (identity, w) := w.freshIdentity settings.stem
  let (check, w) :=
    Check.start (transport (.graph registry)) mode expected settings identity start w
  ((check, start), w)

def performScope (expected : List String) (settings : Settings) (via : Option String)
    (graph : String) (token : Option String) (body : BodyScript) (timing : Timing) (w : World) :
    StepResult × World :=
  match w.source via graph with
  | .error e => (.error e, w)
  | .ok (source, w) =>
    let (registry, w) := w.mention graph
    answered (w.runActivity (scoping source body registry token w.now) timing
      (enterScope source expected settings w.now))

def performCheck (expected : List String) (settings : Settings) (mode : Mode)
    (token : Option String) (timing : Timing) (graph : String) (w : World) :
    StepResult × World :=
  let (registry, w) := w.mention graph
  answered (w.runActivity (checking registry token w.now) timing
    (startCheck registry mode expected settings w.now))

/-- Asks the tasks of a launch to leave, and forgets its label. -/
def stopLaunch (label : String) (w : World) : Option Launch × World :=
  match w.launchLabels.get? label with
  | none => (none, w)
  | some i =>
    let launches := w.launches.modify i fun (registry, l) => (registry, l.stop)
    ((w.launches[i]?).map (·.2), { w with launches, launchLabels := w.launchLabels.remove label })

/-- Launches participants and puts the launch under a label; the one that was there is stopped. -/
def startLaunch (label : String) (texts : List String) (graph : String) (w : World) :
    StepResult × World :=
  match texts.mapM Entrant.ofText with
  | .error e => (.error (.entrant e), w)
  | .ok entrants =>
    let (_, w) := w.stopLaunch label
    let (registry, w) := w.mention graph
    let launch := Launch.start entrants w.now
    (.ok (.launched launch.size),
      { w with
        launches := w.launches ++ [(registry, launch)]
        launchLabels := w.launchLabels.put label w.launches.length })

def perform (step : Step) (w : World) : StepResult × World :=
  match step with
  | .event e =>
    let answer : Answer :=
      match e with
      | .join _ name _ => .name name
      | .leave label => .flag (w.participants.get? label).isSome
      | _ => .nothing
    (.ok answer, w.apply e)
  | .participants graph =>
    let (i, w) := w.mention graph
    (.ok (.names (w.registry i).names), w)
  | .contains graph name =>
    let (i, w) := w.mention graph
    (.ok (.flag (name ∈ (w.registry i).names)), w)
  | .live graph =>
    let (i, w) := w.mention graph
    match (w.registry i).tally.live? with
    | some n => (.ok (.count n), w)
    | none => (.error (.brokeDown "attempt to subtract with overflow"), w)
  | .dropGraph graph =>
    (.ok (.flag (w.graphs.get? graph).isSome), { w with graphs := w.graphs.remove graph })
  | .script label snapshots failure =>
    (.ok .nothing,
      { w with
        scripts := w.scripts ++ [{ snapshots, failure }]
        scriptLabels := w.scriptLabels.put label w.scripts.length })
  | .sleep ms => answered (w.pause ms .nothing)
  | .connect label expected settings identity via graph =>
    w.connect label expected settings identity via graph
  | .wait labels token timing => w.waitFor labels token timing
  | .found label => w.withSession label fun x => (ofUsage .names x.foundNames, w)
  | .missing label => w.withSession label fun x => (ofUsage .names x.missingNames, w)
  | .info label => w.withSession label fun x => (.ok (.info (view x)), w)
  | .close label => w.withSession label fun x =>
    match x.close link w with
    | .error e => (.error (.wait (.usage e)), w)
    | .ok (x, w) => (.ok .nothing, { w with sessions := w.sessions.put label x })
  | .dropSession label =>
    match w.sessions.get? label with
    | none => (.ok (.flag false), w)
    | some x => (.ok (.flag true), x.drop link { w with sessions := w.sessions.remove label })
  | .handle label identity via graph => w.openHandle label identity via graph
  | .list label => w.withHandle label fun h =>
    let (reply, w) := poll h w
    answered (w.pause reply.takes (.names reply.visible))
  | .destroy label => w.withHandle label fun h =>
    let (h, w) := destroy h w
    (.ok .nothing, { w with handles := w.handles.put label h })
  | .dropHandle label =>
    match w.handles.get? label with
    | none => (.ok (.flag false), w)
    | some h => (.ok (.flag true), { w.dropHandle h with handles := w.handles.remove label })
  | .scope expected settings via graph token body timing =>
    w.performScope expected settings via graph token body timing
  | .launch label texts graph => w.startLaunch label texts graph
  | .stop label =>
    match w.stopLaunch label with
    | (none, w) => (.error (.badLabel "launch"), w)
    | (some l, w) => (.ok .nothing, if l.tasks.isEmpty then w else w.settle w.now)
  | .dropLaunch label =>
    match w.stopLaunch label with
    | (none, w) => (.ok (.flag false), w)
    | (some _, w) => (.ok (.flag true), w)
  | .check expected settings mode token timing graph =>
    w.performCheck expected settings mode token timing graph

end World

structure WorldView where
  now : Nat
  /-- Each graph with its visible names and its handles. -/
  graphs : List (String × NameSet × Tally)
  /-- Each script with how many handles it has created, how many times it was asked to destroy
  one, and how many polls it has answered. -/
  scripts : List (String × Nat × Nat × Nat)

def World.observed (w : World) : WorldView where
  now := w.now.millis
  graphs := w.graphs.entries.map fun (label, i) =>
    (label, (w.registry i).names, (w.registry i).tally)
  scripts := w.scriptLabels.entries.filterMap fun (label, i) =>
    (w.scripts[i]?).map fun x => (label, x.created, x.destroyed, x.polls)

/-- What is to be seen after a step: its result, the world, and what was told in their order. -/
structure StepView where
  result : StepResult
  world : WorldView
  journal : List Entry

/-- Takes one step, and tells what is to be seen after it. -/
def takeStep (step : Step) (w : World) : StepView × World :=
  let (result, w) := { w with journal := [] }.perform step
  (⟨result, w.observed, w.journal.reverse⟩, w)

end RollCall.Scenario
