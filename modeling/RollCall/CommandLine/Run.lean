import RollCall.CommandLine.Arguments
import RollCall.Launch
import RollCall.Plan
import RollCall.Text.Guarded
import RollCall.Timeline

/-!
# Runs from the command line

A run resolves what is to be done from a file, the environment and the command line, launches the
participants on an empty registry, checks that the expected names become visible, and ends with an
exit code, a log and perhaps a complaint. It happens in virtual time; an interrupt is an event
that cancels the wait.

Main statement: `resolve_lists` (a list on the command line replaces the list of the plan).
-/

namespace RollCall.CommandLine

inductive ResolveError
  | plan (cause : PlanError)
  | environment (cause : SettingsError)
  | settings (cause : SettingsError)
  deriving DecidableEq

namespace ResolveError

def message : ResolveError → String
  | plan cause => cause.message
  | environment _ => "Invalid NODE_WAIT_* environment override"
  | settings cause => cause.message

end ResolveError

/-- The settings with what the command line says of them. -/
def overriddenBy (a : Arguments) (s : Settings) : Settings :=
  { s with
    timeout := a.timeout.getD s.timeout
    interval := a.interval.getD s.interval }

def replaced {α : Type} (given base : List α) : List α := if given.isEmpty then base else given

/-- The plan with what the environment and the command line say, if its settings can be used. -/
def resolveFrom (env : Environment) (a : Arguments) (base : Plan) : Except ResolveError Plan :=
  match base.settings.override env.text? with
  | .error e => .error (.environment e)
  | .ok settings =>
    let settings := overriddenBy a settings
    match settings.check with
    | .error e => .error (.settings e)
    | .ok () =>
      .ok { settings,
            expected := replaced a.expect base.expected,
            participants := replaced a.spawn base.participants }

/-- What is to be done: the plan of the file, or the demonstration, then the environment, then the
command line. -/
def resolve (files : Files) (env : Environment) (a : Arguments) : Except ResolveError Plan :=
  match Plan.loadOrDemonstrate files a.config with
  | .error e => .error (.plan e)
  | .ok base => resolveFrom env a base

theorem resolve_lists {env : Environment} {a : Arguments} {base plan : Plan}
    (h : resolveFrom env a base = .ok plan) :
    plan.expected = replaced a.expect base.expected ∧
      plan.participants = replaced a.spawn base.participants := by
  simp only [resolveFrom] at h
  split at h
  · cases h
  · split at h
    · cases h
    · cases h
      exact ⟨rfl, rfl⟩

def loadEntry (a : Arguments) : Entry :=
  match a.config with
  | none => .demonstration
  | some path => .planLoaded path

/-- The place of a check: a registry, the launched participants, whether an interrupt has come, and
what has been told and when, the latest first. -/
structure Site where
  now : Instant
  registry : Registry
  launch : Launch
  interrupted : Bool
  journal : List (Instant × Entry)

namespace Site

def tell (e : Entry) (s : Site) : Site := { s with journal := (s.now, e) :: s.journal }

def transport : Transport Site Registration where
  poll _ s := (⟨s.registry.names, 0⟩, s)
  release g s := { s with registry := (g.destroy s.registry).2 }
  tell := tell
  register identity s :=
    match Registration.create identity.name s.registry with
    | .error reason => .error reason
    | .ok (g, registry) => .ok (g, { s with registry })

/-- How time and an interrupt act on a site. Sleeps end at whole milliseconds. -/
def timeline : Timeline Site Unit where
  moveTo t s := { s with now := t }
  wakeAt := Instant.ceilMillis
  apply _ s := { s.tell .interrupted with interrupted := true }
  settle now s :=
    let (launch, registry) := s.launch.settle now s.registry
    { s with launch, registry }
  nextDue? s := s.launch.nextDue?

def initial (participants : List Entrant) (journal : List (Instant × Entry)) : Site where
  now := Instant.start
  registry := Registry.empty
  launch := Launch.start participants Instant.start
  interrupted := false
  journal := journal

def process : Process Site (Check Registration) ReportResult where
  advance now check s := check.advance transport Site.interrupted now s
  result? := Check.result?
  next? := Check.next? transport

/-- The instant at which a check that has begun makes its last poll. -/
def horizon : Check Registration → Instant
  | .plain _ wait => wait.deadline.ceilMillis
  | .scoped (.waiting _ wait) => wait.deadline.ceilMillis
  | _ => Instant.start

def check (mode : Mode) (plan : Plan) (identity : Identity) (interrupt : Option Nat) (s : Site) :
    Option ReportResult × Site :=
  let (check, s) :=
    Check.start transport mode plan.expected plan.settings identity s.now s
  let events := interrupt.toList.map fun ms => (s.now.afterMillis ms, ())
  match timeline.run process (horizon check) none s.now events check s with
  | (.finished result _, s) => (some result, s)
  | (.abandoned check _, s) => (none, check.abandon transport s)

end Site

/-- How a run ends: the exit code, what was told and when, and the complaint at the end. -/
structure Exit where
  code : Nat
  journal : List (Instant × Entry) := []
  complaint : Option String := none

/-- The text of an entry as a run tells it on a terminal. A complaint is not guarded. -/
def told (e : Entry) : String := Text.guarded e.text

def complain (journal : List (Instant × Entry)) (text : String) : Exit :=
  { code := 1, journal, complaint := some ("Error: " ++ text) }

/-- The end of a run whose check has come to a result. A timeout of a scope has a verdict of its
own; any other error is a complaint. -/
def conclude (s : Site) : Option ReportResult → Exit
  | some (.ok report) =>
    if report.success then
      { code := 0, journal := (s.tell (.verdictFound report.found)).journal.reverse }
    else
      { code := 1,
        journal :=
          ((s.tell (.verdictMissing report.missing)).tell
            (.verdictVisible report.found)).journal.reverse }
  | some (.error (.timeout missing)) =>
    { code := 1,
      journal := (s.tell (.failure (WaitFailure.timeout missing).message)).journal.reverse }
  | some (.error e) => complain s.journal.reverse e.message
  | none => { code := 1, journal := s.journal.reverse }

def carryOut (a : Arguments) (words : WordSource) (interrupt : Option Nat) (plan : Plan) : Exit :=
  let journal :=
    [(Instant.start, Entry.launching plan.participants.length plan.expected),
     (Instant.start, loadEntry a)]
  let identity := (Identity.fresh plan.settings.stem words).1
  let (result, s) :=
    (Site.initial plan.participants journal).check (a.mode.getD .plain) plan identity interrupt
  conclude s result

def execute (files : Files) (env : Environment) (words : WordSource) (interrupt : Option Nat)
    (a : Arguments) : Exit :=
  match resolve files env a with
  | .error (.plan e) => complain [] (ResolveError.plan e).message
  | .error e => complain [(Instant.start, loadEntry a)] e.message
  | .ok plan => carryOut a words interrupt plan

/-- Runs a command line. One that cannot be read has the exit code two. -/
def run (files : Files) (env : Environment) (words : WordSource) (interrupt : Option Nat)
    (arguments : List String) : Exit :=
  match read arguments with
  | none => { code := 2 }
  | some .help => { code := 0 }
  | some (.run a) => execute files env words interrupt a

end RollCall.CommandLine
