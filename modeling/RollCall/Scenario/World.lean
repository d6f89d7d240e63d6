import RollCall.Directory
import RollCall.Launch
import RollCall.Session
import RollCall.Timeline

/-!
# The world of a scenario

Registries, scripted transports, participants, sessions, handles and launches under labels, tokens
that have fired, a clock, a source of random words and a journal. An object goes on living when
its label is forgotten, as long as something still uses it, so registries, scripts and launches
are kept by number and labels only point to them.

Main statement: `mention_get` (after a graph is mentioned its label points to a registry).
-/

namespace RollCall.Scenario

/-- What can happen from outside. -/
inductive Event
  /-- A participant joins a graph and is kept under a label. -/
  | join (label name graph : String)
  /-- The participant under a label leaves. -/
  | leave (label : String)
  /-- A token fires, for good. -/
  | cancel (token : String)
  /-- From now on a graph refuses handles for a reason, or accepts them. -/
  | setUnavailable (reason : Option String) (graph : String)
  deriving DecidableEq

/-- One scripted poll: events that happen first, how long the answer takes, and the names that it
shows. -/
structure Snapshot where
  names : List String
  events : List Event
  takes : Nat

/-- A scripted transport and what has been asked of it. -/
structure Script where
  snapshots : List Snapshot
  /-- Why it refuses handles, if it does. -/
  failure : Option String
  created : Nat := 0
  destroyed : Nat := 0
  polls : Nat := 0

/-- A handle: a registration on a graph, or a replay of a script from its first snapshot. -/
inductive Handle
  | member (registry : Nat) (registration : Registration)
  | replay (script cursor : Nat) (identity : String)

/-- Where new handles come from. -/
inductive Source
  | graph (registry : Nat)
  | script (number : Nat)

/-- Everything that a scenario acts on. -/
structure World where
  now : Instant
  registries : List Registry
  /-- Graph labels, and the numbers of their registries. -/
  graphs : Directory Nat
  scripts : List Script
  scriptLabels : Directory Nat
  /-- How many snapshots each replay has shown. -/
  cursors : List Nat
  /-- The tokens that have fired. -/
  fired : List String
  /-- Participants by label: the number of the registry and the name. -/
  participants : Directory (Nat × String)
  sessions : Directory (Session Handle)
  handles : Directory Handle
  /-- All launches, each with the number of its registry. -/
  launches : List (Nat × Launch)
  launchLabels : Directory Nat
  words : WordSource
  /-- What has been told, the latest first. -/
  journal : List Entry

namespace World

/-- The world at the start, with a source of random words. -/
def initial (words : WordSource) : World where
  now := Instant.start
  registries := []
  graphs := {}
  scripts := []
  scriptLabels := {}
  cursors := []
  fired := []
  participants := {}
  sessions := {}
  handles := {}
  launches := []
  launchLabels := {}
  words := words
  journal := []

/-- Tells something to the journal. -/
def tell (e : Entry) (w : World) : World := { w with journal := e :: w.journal }

/-- A graph is mentioned: its registry, which is new if the label is. -/
def mention (label : String) (w : World) : Nat × World :=
  match w.graphs.get? label with
  | some i => (i, w)
  | none =>
    (w.registries.length,
      { w with
        registries := w.registries ++ [Registry.empty]
        graphs := w.graphs.put label w.registries.length })

/-- After a graph is mentioned its label points to the registry. -/
theorem mention_get (label : String) (w : World) :
    (w.mention label).2.graphs.get? label = some (w.mention label).1 := by
  unfold mention
  split
  · assumption
  · simp

/-- The registry with a number. -/
def registry (w : World) (i : Nat) : Registry := w.registries.getD i Registry.empty

/-- The world with another registry under a number. -/
def setRegistry (w : World) (i : Nat) (r : Registry) : World :=
  { w with registries := w.registries.set i r }

/-- A participant leaves, if there is one. -/
def leaveOf (participant : Option (Nat × String)) (w : World) : World :=
  match participant with
  | none => w
  | some (i, name) => w.setRegistry i ((w.registry i).leave name)

/-- An event happens. When a label is used again, the participant that was under it leaves after
the new one has joined. -/
def apply (e : Event) (w : World) : World :=
  match e with
  | .join label name graph =>
    let (i, w) := w.mention graph
    let w := w.setRegistry i ((w.registry i).join name)
    let old := w.participants.get? label
    leaveOf old { w with participants := w.participants.put label (i, name) }
  | .leave label =>
    leaveOf (w.participants.get? label) { w with participants := w.participants.remove label }
  | .cancel token => { w with fired := token :: w.fired }
  | .setUnavailable reason graph =>
    let (i, w) := w.mention graph
    w.setRegistry i { w.registry i with unavailable := reason }

def cancelled (token : Option String) (w : World) : Bool := token.any w.fired.contains

/-- The names that a snapshot shows to a handle, which stands for itself in it. -/
def shown (identity : String) (names : List String) : NameSet :=
  NameSet.ofList (names.map fun name => if name = "<self>" then identity else name)

/-- A replay shows its next snapshot; the last one repeats, and without any nothing is visible. -/
def pollScript (script cursor : Nat) (identity : String) (w : World) : Reply × World :=
  match w.scripts[script]? with
  | none => (⟨∅, 0⟩, w)
  | some x =>
    let position := w.cursors.getD cursor 0
    let w :=
      { w with
        scripts := w.scripts.set script { x with polls := x.polls + 1 }
        cursors := w.cursors.set cursor (position + 1) }
    match x.snapshots[min position (x.snapshots.length - 1)]? with
    | none => (⟨∅, 0⟩, w)
    | some shot =>
      (⟨shown identity shot.names, Instant.sleepMillis shot.takes⟩,
        shot.events.foldl (fun w e => w.apply e) w)

def poll (h : Handle) (w : World) : Reply × World :=
  match h with
  | .member i _ => (⟨(w.registry i).names, 0⟩, w)
  | .replay script cursor identity => pollScript script cursor identity w

def destroy (h : Handle) (w : World) : Handle × World :=
  match h with
  | .member i g =>
    let (g, r) := g.destroy (w.registry i)
    (.member i g, w.setRegistry i r)
  | .replay script cursor identity =>
    match w.scripts[script]? with
    | none => (h, w)
    | some x =>
      (.replay script cursor identity,
        { w with scripts := w.scripts.set script { x with destroyed := x.destroyed + 1 } })

def dropHandle (h : Handle) (w : World) : World :=
  match h with
  | .member i g => w.setRegistry i (g.drop (w.registry i))
  | .replay _ _ _ => w

def register (source : Source) (identity : Identity) (w : World) :
    Except String (Handle × World) :=
  match source with
  | .graph i =>
    match Registration.create identity.name (w.registry i) with
    | .error reason => .error reason
    | .ok (g, r) => .ok (.member i g, w.setRegistry i r)
  | .script i =>
    match w.scripts[i]? with
    | none => .error ""
    | some x =>
      match x.failure with
      | some reason => .error reason
      | none =>
        .ok (.replay i w.cursors.length identity.name,
          { w with
            scripts := w.scripts.set i { x with created := x.created + 1 }
            cursors := w.cursors ++ [0] })

def link : Link World Handle where
  poll := poll
  release h w := (destroy h w).2
  tell := tell

def transport (source : Source) : Transport World Handle where
  toLink := link
  register := register source

@[simp] theorem transport_toLink (source : Source) : (transport source).toLink = link := rfl

def freshIdentity (stem : String) (w : World) : Identity × World :=
  let (identity, words) := Identity.fresh stem w.words
  (identity, { w with words })

/-- Gives every task of every launch one turn. -/
def settleLaunches (now : Instant) : List (Nat × Launch) → World → List (Nat × Launch) × World
  | [], w => ([], w)
  | (i, l) :: rest, w =>
    let (l, r) := l.settle now (w.registry i)
    let (rest, w) := settleLaunches now rest (w.setRegistry i r)
    ((i, l) :: rest, w)

def settle (now : Instant) (w : World) : World :=
  let (launches, w) := settleLaunches now w.launches w
  { w with launches }

def nextDue? (w : World) : Option Instant :=
  w.launches.foldl (fun first (_, l) => Timeline.earlier first l.nextDue?) none

def timeline : Timeline World Event where
  moveTo t w := { w with now := t }
  wakeAt := Instant.ceilMillis
  apply := apply
  settle := settle
  nextDue? := nextDue?

/-- The longest time, in milliseconds, that an answer of a script takes. -/
def longestAnswer (w : World) : Nat :=
  w.scripts.foldl (fun n x => x.snapshots.foldl (fun n shot => max n shot.takes) n) 0

end World

end RollCall.Scenario
