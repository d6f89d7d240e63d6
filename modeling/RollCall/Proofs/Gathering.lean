import Mathlib.Logic.Function.Basic
import RollCall.Proofs.RegistrySession

/-!
# All who use one registry

Guests join a registry and leave it. Members, each with a number, have a handle of their own or a
session on it, and do what can be done with these, in any order and in the midst of what the others
do: register or connect, begin to wait, take a turn, be cancelled, give a wait up, read the
results, release the handle as often as they like, or drop what they have. The clock goes on and
the registry becomes available or unavailable in between. Every deed has an answer.

The main fact about one deed is `Member.act_effect`: it leaves the registry as it is, or takes the
registration of the member up, or takes exactly that registration back.
-/

namespace RollCall

namespace Gathering

/-- What a member has in hand. -/
inductive Role
  /-- Nothing yet. -/
  | absent
  | handle (registration : Registration)
  /-- A session, the wait that is under way, and whether the token of the wait has fired. -/
  | session (session : Session Registration) (wait : Option Wait) (fired : Bool)
  /-- Nothing any more. -/
  | gone

/-- A member, with the trace of its handle. -/
structure Member where
  role : Role
  trace : List (Happening Empty)

inductive Deed
  /-- To create a handle. -/
  | register (identity : Identity)
  /-- To connect a session. -/
  | connect (expected : List String) (settings : Settings) (identity : Identity)
  /-- To begin a wait, with a token that may have fired already. -/
  | begin (fired : Bool)
  | resume
  | cancel
  | giveUp
  | foundNames
  | missingNames
  /-- To destroy the handle, or to shut the session down. -/
  | release
  | drop

inductive Answer
  | nothing
  | accepted
  | refused (cause : WaitFailure)
  /-- The wait goes on, and so many polls have been made. -/
  | pending (polls : ℕ)
  | ended (outcome : Outcome) (polls : ℕ)
  | found (names : Except Misuse NameSet)
  | missing (names : Except Misuse NameSet)

def isPoll : Happening Empty → Bool
  | .polled _ => true
  | _ => false

def polls (r : Traced Registry Empty) : ℕ := r.trace.countP isPoll

/-- The answer of a turn after which so many polls have been made. -/
def Answer.ofProgress (polls : ℕ) : Session.Progress → Answer
  | .ended outcome _ => .ended outcome polls
  | .pending _ => .pending polls

def afterTurn (fired : Bool) :
    Session.Progress × Session Registration × Traced Registry Empty →
      (Role × Answer) × Traced Registry Empty
  | (progress, x, r) => ((.session x progress.wait? fired, .ofProgress (polls r) progress), r)

def resumeSession (now : Instant) (x : Session Registration) (wait : Option Wait) (fired : Bool)
    (r : Traced Registry Empty) : (Role × Answer) × Traced Registry Empty :=
  match wait, x.handle with
  | some w, some g =>
    afterTurn fired (x.turn Registry.traced.toLink (fun _ => fired) g now w r)
  | _, _ => ((.session x none fired, .nothing), r)

def actSession (now : Instant) (deed : Deed) (x : Session Registration) (wait : Option Wait)
    (fired : Bool) (r : Traced Registry Empty) : (Role × Answer) × Traced Registry Empty :=
  match deed with
  | .begin fired =>
    match x.begin Registry.traced.toLink now r with
    | .ok (w, r) => ((.session x (some w) fired, .accepted), r)
    | .error e => ((.session x none fired, .refused (.usage e)), r)
  | .resume => resumeSession now x wait fired r
  | .cancel => ((.session x wait true, .accepted), r)
  | .giveUp => ((.session x none fired, .accepted), r)
  | .foundNames => ((.session x wait fired, .found x.foundNames), r)
  | .missingNames => ((.session x wait fired, .missing x.missingNames), r)
  | .release =>
    match x.close Registry.traced.toLink r with
    | .ok (x, r) => ((.session x none fired, .accepted), r)
    | .error e => ((.session x none fired, .refused (.usage e)), r)
  | .drop => ((.gone, .accepted), x.drop Registry.traced.toLink r)
  | _ => ((.session x wait fired, .nothing), r)

def actHandle (deed : Deed) (g : Registration) (r : Traced Registry Empty) :
    (Role × Answer) × Traced Registry Empty :=
  match deed with
  | .release =>
    let (g, s) := g.destroy r.base
    ((.handle g, .accepted), r.note .released s)
  | .drop => ((.gone, .accepted), r.withBase (g.drop r.base))
  | _ => ((.handle g, .nothing), r)

def actAbsent (deed : Deed) (r : Traced Registry Empty) :
    (Role × Answer) × Traced Registry Empty :=
  match deed with
  | .register identity =>
    match Registry.traced.register identity r with
    | .ok (g, r) => ((.handle g, .accepted), r)
    | .error reason => ((.absent, .refused (.transport reason)), r)
  | .connect expected settings identity =>
    match Session.connect Registry.traced expected settings identity r with
    | .ok (x, r) => ((.session x none false, .accepted), r)
    | .error e => ((.absent, .refused e), r)
  | _ => ((.absent, .nothing), r)

def Role.act (now : Instant) (deed : Deed) (role : Role) (r : Traced Registry Empty) :
    (Role × Answer) × Traced Registry Empty :=
  match role with
  | .absent => actAbsent deed r
  | .handle g => actHandle deed g r
  | .session x wait fired => actSession now deed x wait fired r
  | .gone => ((.gone, .nothing), r)

namespace Member

/-- One who has not come yet. -/
def unknown : Member := ⟨.absent, []⟩

/-- What a member does on a registry. -/
def act (now : Instant) (deed : Deed) (m : Member) (g : Registry) :
    Answer × Member × Registry :=
  let ((role, answer), r) := m.role.act now deed ⟨g, m.trace⟩
  (answer, ⟨role, r.trace⟩, r.base)

end Member

inductive Move
  | pass (time : Duration)
  | join (name : String)
  /-- A guest of that name leaves, if there is one. -/
  | leave (name : String)
  | setUnavailable (reason : Option String)
  | act (i : ℕ) (deed : Deed)

end Gathering

/-- A registry with all who use it, and the time. -/
structure Gathering where
  now : Instant
  registry : Registry
  guests : List String
  members : ℕ → Gathering.Member

namespace Gathering

def start (now : Instant) (g : Registry) : Gathering := ⟨now, g, [], fun _ => Member.unknown⟩

def step (y : Gathering) : Move → Answer × Gathering
  | .pass time => (.nothing, { y with now := ⟨y.now.nanos + time.nanos⟩ })
  | .join name =>
    (.nothing, { y with registry := y.registry.join name, guests := name :: y.guests })
  | .leave name =>
    if name ∈ y.guests then
      (.nothing, { y with registry := y.registry.leave name, guests := y.guests.erase name })
    else (.nothing, y)
  | .setUnavailable reason =>
    (.nothing, { y with registry := { y.registry with unavailable := reason } })
  | .act i deed =>
    let (answer, m, g) := (y.members i).act y.now deed y.registry
    (answer, { y with registry := g, members := Function.update y.members i m })

def run (y : Gathering) (moves : List Move) : Gathering :=
  moves.foldl (fun y move => (y.step move).2) y

/-! ## What a deed does -/

/-- The name under which a handle is registered, as long as it is. -/
def claimOf (g : Registration) : Option String := if g.live then some g.name else none

/-- The name that is registered for what a member has in hand. -/
def Role.claim : Role → Option String
  | .handle g => claimOf g
  | .session x _ _ => x.handle.bind claimOf
  | _ => none

/-- The name under which a deed registers a handle. -/
def Deed.name? : Deed → Option String
  | .register identity => some identity.name
  | .connect _ _ identity => some identity.name
  | _ => none

namespace Member

/-- The name whose registration a deed takes back. -/
def takenBack (m : Member) : Deed → Option String
  | .release => m.role.claim
  | .drop => m.role.claim
  | _ => none

/-- How a member stands to the trace of its handle. -/
inductive Sound : Member → Prop
  | absent : Sound unknown
  | handle {g : Registration} {trace : List (Happening Empty)}
      (hcreated : trace.count .created = 1) (hreleased : .released ∈ trace ↔ g.live = false) :
      Sound ⟨.handle g, trace⟩
  | session {x : Session Registration} {wait : Option Wait} {fired : Bool}
      {trace : List (Happening Empty)} (hcreated : trace.count .created = 1)
      (hlive : ∀ g, x.handle = some g → g.live = true)
      (hreleased : .released ∈ trace ↔ x.handle = none) : Sound ⟨.session x wait fired, trace⟩
  | gone {trace : List (Happening Empty)} (hcreated : trace.count .created = 1) :
      Sound ⟨.gone, trace⟩

/-- What a deed does to its member and to the registry, by the name whose registration it takes
back. -/
inductive Effect (deed : Deed) (m m' : Member) (g g' : Registry) : Option String → Prop
  | still (hregistry : g' = g) (hclaim : m'.role.claim = m.role.claim)
      (hcreated : m'.trace.count .created = m.trace.count .created)
      (hreleased : .released ∈ m'.trace ↔ .released ∈ m.trace) : Effect deed m m' g g' none
  /-- A handle has been created and registered. -/
  | came (name : String) (hname : deed.name? = some name) (havailable : g.unavailable = none)
      (hregistry : g' = { g.join name with tally.created := g.tally.created + 1 })
      (hbefore : m.role.claim = none) (hclaim : m'.role.claim = some name)
      (hcreated : m'.trace.count .created = m.trace.count .created + 1)
      (hreleased : .released ∈ m'.trace ↔ .released ∈ m.trace) : Effect deed m m' g g' none
  /-- A handle has been destroyed for the first time. -/
  | destroyed (name : String)
      (hregistry : g' = { g.leave name with tally.destroyed := g.tally.destroyed + 1 })
      (hbefore : m.role.claim = some name) (hclaim : m'.role.claim = none)
      (hcreated : m'.trace.count .created = m.trace.count .created)
      (hheld : .released ∉ m.trace) (hreleased : .released ∈ m'.trace) :
      Effect deed m m' g g' (some name)
  /-- A handle has been dropped that had not been destroyed. -/
  | left (name : String) (hregistry : g' = g.leave name)
      (hbefore : m.role.claim = some name) (hclaim : m'.role.claim = none)
      (hcreated : m'.trace.count .created = m.trace.count .created)
      (hreleased : .released ∈ m'.trace ↔ .released ∈ m.trace) :
      Effect deed m m' g g' (some name)

namespace Sound

variable {m : Member}

/-- A member creates one handle at most. -/
theorem created_le (hsound : m.Sound) : m.trace.count .created ≤ 1 := by
  cases hsound with
  | absent => exact Nat.zero_le 1
  | handle hcreated _ => exact Nat.le_of_eq hcreated
  | session hcreated _ _ => exact Nat.le_of_eq hcreated
  | gone hcreated => exact Nat.le_of_eq hcreated

theorem created_of_released (hsound : m.Sound) (hreleased : .released ∈ m.trace) :
    1 ≤ m.trace.count .created := by
  cases hsound with
  | absent => cases hreleased
  | handle hcreated _ => exact Nat.le_of_eq hcreated.symm
  | session hcreated _ _ => exact Nat.le_of_eq hcreated.symm
  | gone hcreated => exact Nat.le_of_eq hcreated.symm

end Sound

namespace Effect

variable {deed : Deed} {m m' : Member} {g g' : Registry} {taken : Option String}

theorem counts_of_some (heffect : Effect deed m m' g g' taken) {name : String}
    (htaken : taken = some name) :
    m.role.claim = some name ∧ g'.counts = Registry.decrement name g.counts := by
  cases heffect with
  | still => cases htaken
  | came => cases htaken
  | destroyed _ hregistry hbefore =>
    cases htaken
    exact ⟨hbefore, by rw [hregistry]; rfl⟩
  | left _ hregistry hbefore =>
    cases htaken
    exact ⟨hbefore, by rw [hregistry]; rfl⟩

theorem counts_of_none (heffect : Effect deed m m' g g' taken) (htaken : taken = none) :
    g'.counts = g.counts ∨ ∃ name, g'.counts = Registry.increment name g.counts := by
  cases heffect with
  | still hregistry => exact Or.inl (by rw [hregistry])
  | came name _ _ hregistry => exact Or.inr ⟨name, by rw [hregistry]; rfl⟩
  | destroyed => cases htaken
  | left => cases htaken

theorem of_destroy {role role' : Role} {trace : List (Happening Empty)} {name : String}
    (hbefore : role.claim = some name) (hclaim : role'.claim = none) (hheld : .released ∉ trace)
    (g : Registry) :
    Effect deed ⟨role, trace⟩ ⟨role', trace ++ [.released]⟩ g
      (Registration.destroy ⟨name, true⟩ g).2 (some name) :=
  .destroyed name rfl hbefore hclaim (by simp) hheld (by simp)

end Effect

/-! ### A member that has nothing yet -/

theorem act_unknown (now : Instant) (deed : Deed) (g : Registry) :
    let out := unknown.act now deed g
    Effect deed unknown out.2.1 g out.2.2 none ∧ out.2.1.Sound := by
  have hrefused : Effect deed unknown unknown g g none ∧ unknown.Sound :=
    ⟨.still rfl rfl rfl Iff.rfl, .absent⟩
  cases deed with
  | register identity =>
    cases havailable : g.unavailable with
    | some reason =>
      simpa only [unknown, act, Role.act, actAbsent, Registry.traced, Transport.noted,
        Registry.transport, Registration.create, havailable] using hrefused
    | none =>
      simp only [unknown, act, Role.act, actAbsent, Registry.traced, Transport.noted,
        Registry.transport, Registration.create, havailable]
      refine ⟨.came identity.name rfl havailable rfl rfl rfl rfl (by simp [Chronicle.note]), ?_⟩
      exact .handle rfl (by simp [Chronicle.note])
  | connect expected settings identity =>
    cases hconnect : Session.connect Registry.traced expected settings identity ⟨g, []⟩ with
    | error e => simpa only [unknown, act, Role.act, actAbsent, hconnect] using hrefused
    | ok opened =>
      obtain ⟨x, r⟩ := opened
      obtain ⟨havailable, ⟨timeout, interval, -, rfl⟩, rfl⟩ := Session.connect_registry hconnect
      simp only [unknown, act, Role.act, actAbsent, hconnect]
      refine ⟨.came identity.name rfl havailable rfl rfl rfl rfl (by simp [Chronicle.note]), ?_⟩
      refine .session rfl ?_ (by simp [Chronicle.note])
      rintro _ ⟨⟩
      rfl
  | _ => exact hrefused

/-! ### A member with a handle of its own -/

section Handle

variable {reg : Registration} {trace : List (Happening Empty)}

theorem act_handle
    (hcreated : trace.count .created = 1) (hreleased : .released ∈ trace ↔ reg.live = false)
    (now : Instant) (deed : Deed) (g : Registry) :
    let m : Member := ⟨.handle reg, trace⟩
    let out := m.act now deed g
    Effect deed m out.2.1 g out.2.2 (m.takenBack deed) ∧ out.2.1.Sound := by
  intro m
  have hkept : Effect deed m m g g none ∧ m.Sound :=
    ⟨.still rfl rfl rfl Iff.rfl, .handle hcreated hreleased⟩
  obtain ⟨name, live⟩ := reg
  cases deed with
  | release =>
    have hcount : (trace ++ [Happening.released]).count Happening.created = 1 := by
      simpa using hcreated
    have hlast : Happening.released ∈ trace ++ [.released] := by simp
    cases live with
    | true =>
      have hheld : .released ∉ trace := by simpa using hreleased
      exact ⟨.of_destroy rfl rfl hheld g, .handle hcount (iff_of_true hlast rfl)⟩
    | false =>
      have hdone : .released ∈ trace := hreleased.mpr rfl
      exact ⟨.still rfl rfl (hcount.trans hcreated.symm) (iff_of_true hlast hdone),
        .handle hcount (iff_of_true hlast rfl)⟩
  | drop =>
    cases live with
    | true => exact ⟨.left name rfl rfl rfl rfl Iff.rfl, .gone hcreated⟩
    | false => exact ⟨.still rfl rfl rfl Iff.rfl, .gone hcreated⟩
  | _ => exact hkept

end Handle

/-! ### A member with a session -/

section Turn

variable {x : Session Registration}

theorem resumeSession_waiting {reg : Registration} (hhandle : x.handle = some reg) (now : Instant)
    (w : Wait) (fired : Bool) (r : Traced Registry Empty) :
    let out := w.advance Registry.traced.toLink (fun _ => fired) reg now r
    resumeSession now x (some w) fired r =
      afterTurn fired (x.settle Registry.traced.toLink out.1 out.2) := by
  simp only [resumeSession, hhandle, Session.turn]

theorem resumeSession_closed (hhandle : x.handle = none) (now : Instant) (wait : Option Wait)
    (fired : Bool) (r : Traced Registry Empty) :
    resumeSession now x wait fired r = ((.session x none fired, .nothing), r) := by
  simp only [resumeSession, hhandle]

/-- What is settled after a turn are the names found; the world stays as the turn has left it. -/
theorem settle_keeps (fired : Bool) (w : Wait) (r : Traced Registry Empty) :
    ∃ found wait answer,
      afterTurn fired (x.settle Registry.traced.toLink w r) =
        ((.session { x with found := found } wait fired, answer), r) := by
  rcases x.settle_cases Registry.traced.toLink w r with
    ⟨outcome, visible, -, hsettle⟩ | ⟨-, hsettle⟩
  · rw [hsettle]
    exact ⟨_, _, _, rfl⟩
  · rw [hsettle]
    exact ⟨x.found, _, _, rfl⟩

/-- A turn adds polls, and all it changes in a session are the names found. -/
theorem resumeSession_keeps (now : Instant) (x : Session Registration) (wait : Option Wait)
    (fired : Bool) (r : Traced Registry Empty) :
    ∃ found wait' answer, ∃ shown : List NameSet,
      resumeSession now x wait fired r =
        ((.session { x with found := found } wait' fired, answer),
          ⟨r.base, r.trace ++ shown.map .polled⟩) := by
  have hidle (hturn : resumeSession now x wait fired r = ((.session x none fired, .nothing), r)) :
      ∃ found wait' answer, ∃ shown : List NameSet,
        resumeSession now x wait fired r =
          ((.session { x with found := found } wait' fired, answer),
            ⟨r.base, r.trace ++ shown.map .polled⟩) :=
    ⟨x.found, none, .nothing, [], by rw [hturn, List.map_nil, List.append_nil]⟩
  obtain hhandle | ⟨reg, hhandle⟩ := x.handle.eq_none_or_eq_some
  · exact hidle (resumeSession_closed hhandle now wait fired r)
  · cases wait with
    | none => exact hidle rfl
    | some w =>
      obtain ⟨shown, hadds, -⟩ :=
        Wait.advance_adds Registry.transport.toLink .single (fun _ => fired) reg now w r
      have hworld : (w.advance Registry.traced.toLink (fun _ => fired) reg now r).2 =
          ⟨r.base, r.trace ++ shown.map .polled⟩ := by
        rw [← Wait.advance_registry (fun _ => fired) reg now w r, ← hadds.trace_eq]
        rfl
      rw [resumeSession_waiting hhandle, hworld]
      obtain ⟨found, wait', answer, hsettle⟩ := settle_keeps (x := x) fired
        (w.advance Registry.traced.toLink (fun _ => fired) reg now r).1
        ⟨r.base, r.trace ++ shown.map .polled⟩
      exact ⟨found, wait', answer, shown, hsettle⟩

end Turn

section Session

variable {x : Session Registration} {wait : Option Wait} {fired : Bool}
  {trace : List (Happening Empty)}

/-- A session that has its handle is registered under the name of that, and has not released it. -/
theorem session_holds
    (wait : Option Wait) (fired : Bool) (hlive : ∀ reg, x.handle = some reg → reg.live = true)
    (hreleased : .released ∈ trace ↔ x.handle = none) {reg : Registration}
    (hhandle : x.handle = some reg) :
    ∃ name, reg = ⟨name, true⟩ ∧ (Role.session x wait fired).claim = some name ∧
      .released ∉ trace := by
  obtain ⟨name, live⟩ := reg
  obtain rfl : live = true := hlive _ hhandle
  refine ⟨name, rfl, by simp [Role.claim, hhandle, claimOf], ?_⟩
  intro hmem
  cases hhandle.symm.trans (hreleased.mp hmem)

theorem act_session_release
    (hcreated : trace.count .created = 1) (hlive : ∀ reg, x.handle = some reg → reg.live = true)
    (hreleased : .released ∈ trace ↔ x.handle = none) (now : Instant) (g : Registry) :
    let m : Member := ⟨.session x wait fired, trace⟩
    let out := m.act now .release g
    Effect .release m out.2.1 g out.2.2 m.role.claim ∧ out.2.1.Sound := by
  intro m
  obtain hhandle | ⟨reg, hhandle⟩ := x.handle.eq_none_or_eq_some
  · have hclose : x.close Registry.traced.toLink ⟨g, trace⟩ = .error .alreadyClosed := by
      simp only [Session.close, hhandle]
    have hnone : m.role.claim = none := by simp [m, Role.claim, hhandle]
    rw [hnone]
    simp only [m, act, Role.act, actSession, hclose]
    exact ⟨.still rfl rfl rfl Iff.rfl, .session hcreated hlive hreleased⟩
  · obtain ⟨name, rfl, hclaim, hheld⟩ :=
      session_holds wait fired hlive hreleased hhandle
    rw [show m.role.claim = some name from hclaim]
    simp only [m, act, Role.act, actSession, Session.close_registry hhandle]
    refine ⟨.of_destroy hclaim rfl hheld g, .session ?_ ?_ ?_⟩
    · simpa [Chronicle.note] using hcreated
    · simp
    · simp [Chronicle.note]

theorem act_session_drop
    (hcreated : trace.count .created = 1) (hlive : ∀ reg, x.handle = some reg → reg.live = true)
    (hreleased : .released ∈ trace ↔ x.handle = none) (now : Instant) (g : Registry) :
    let m : Member := ⟨.session x wait fired, trace⟩
    let out := m.act now .drop g
    Effect .drop m out.2.1 g out.2.2 m.role.claim ∧ out.2.1.Sound := by
  intro m
  obtain hhandle | ⟨reg, hhandle⟩ := x.handle.eq_none_or_eq_some
  · have hnone : m.role.claim = none := by simp [m, Role.claim, hhandle]
    rw [hnone]
    simp only [m, act, Role.act, actSession, Session.drop, hhandle]
    exact ⟨.still rfl hnone.symm rfl Iff.rfl, .gone hcreated⟩
  · obtain ⟨name, rfl, hclaim, hheld⟩ :=
      session_holds wait fired hlive hreleased hhandle
    rw [show m.role.claim = some name from hclaim]
    simp only [m, act, Role.act, actSession, Session.drop_registry hhandle]
    refine ⟨.of_destroy hclaim rfl hheld g, .gone ?_⟩
    simpa [Chronicle.note] using hcreated

theorem act_session
    (hcreated : trace.count .created = 1) (hlive : ∀ reg, x.handle = some reg → reg.live = true)
    (hreleased : .released ∈ trace ↔ x.handle = none) (now : Instant) (deed : Deed)
    (g : Registry) :
    let m : Member := ⟨.session x wait fired, trace⟩
    let out := m.act now deed g
    Effect deed m out.2.1 g out.2.2 (m.takenBack deed) ∧ out.2.1.Sound := by
  intro m
  have hkept (wait' : Option Wait) (fired' : Bool) :
      Effect deed m ⟨.session x wait' fired', trace⟩ g g none ∧
        Member.Sound ⟨.session x wait' fired', trace⟩ :=
    ⟨.still rfl rfl rfl Iff.rfl, .session hcreated hlive hreleased⟩
  cases deed with
  | begin fired' =>
    rw [show m.takenBack (.begin fired') = none from rfl]
    simp only [m, act, Role.act, actSession]
    obtain hhandle | ⟨reg, hhandle⟩ := x.handle.eq_none_or_eq_some
    · rw [Session.begin_closed hhandle]
      exact hkept none fired'
    · rw [Session.begin_registry hhandle]
      exact hkept (some _) fired'
  | resume =>
    obtain ⟨found, wait', answer, shown, hresume⟩ :=
      resumeSession_keeps now x wait fired ⟨g, trace⟩
    simp only [m, act, Role.act, actSession, hresume]
    have hcount : (trace ++ shown.map Happening.polled).count Happening.created =
        trace.count Happening.created := by
      simp [List.count_eq_zero]
    have hmem : Happening.released ∈ trace ++ shown.map .polled ↔ .released ∈ trace := by simp
    refine ⟨.still rfl rfl hcount hmem, .session (hcount.trans hcreated) hlive ?_⟩
    exact hmem.trans hreleased
  | release => exact act_session_release hcreated hlive hreleased now g
  | drop => exact act_session_drop hcreated hlive hreleased now g
  | cancel => exact hkept wait true
  | giveUp => exact hkept none fired
  | _ => exact hkept wait fired

end Session

/-- What a deed does to a registry is seen from the name whose registration it takes back, and
every member stays sound. -/
theorem act_effect {m : Member} (hsound : m.Sound) (now : Instant) (deed : Deed) (g : Registry) :
    let out := m.act now deed g
    Effect deed m out.2.1 g out.2.2 (m.takenBack deed) ∧ out.2.1.Sound := by
  cases hsound with
  | absent =>
    have hnone : unknown.takenBack deed = none := by cases deed <;> rfl
    rw [hnone]
    exact act_unknown now deed g
  | handle hcreated hreleased => exact act_handle hcreated hreleased now deed g
  | session hcreated hlive hreleased => exact act_session hcreated hlive hreleased now deed g
  | gone hcreated =>
    have hnone (trace) : (⟨.gone, trace⟩ : Member).takenBack deed = none := by cases deed <;> rfl
    rw [hnone]
    exact ⟨.still rfl rfl rfl Iff.rfl, .gone hcreated⟩

end Member

end Gathering

end RollCall
