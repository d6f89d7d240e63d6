import RollCall.Proofs.Arrivals
import RollCall.Proofs.Gathering

/-!
# To connect a session to a registry

Whoever connects has everything afterwards or nothing. Settings that cannot be used are found
before any transport is asked; a registry that is unavailable refuses only whom the settings did
not stop. In both cases there is no handle, and the registry is as it was. Otherwise the registry
has gained one registration for one handle, and the session has the durations of its settings.
-/

namespace RollCall

namespace Registry

/-- A registry that has gained a registration under a name, for a handle that has been created, and
nothing else. -/
structure Gained (name : String) (g g' : Registry) : Prop where
  count : ∀ other, g'.count other = g.count other + if other = name then 1 else 0
  mem_names : ∀ other, other ∈ g'.names ↔ other = name ∨ other ∈ g.names
  tally : g'.tally = { g.tally with created := g.tally.created + 1 }
  unavailable : g'.unavailable = g.unavailable

theorem gained_join (name : String) (g : Registry) :
    Gained name g { g.join name with tally.created := g.tally.created + 1 } where
  count other := g.count_join name other
  mem_names other := g.mem_names_join name other
  tally := rfl
  unavailable := rfl

theorem register_traced_eq_error_iff
    {identity : Identity} {r : Traced Registry Empty} {reason : String} :
    traced.register identity r = .error reason ↔ r.base.unavailable = some reason := by
  simp only [traced, Transport.noted, transport, Registration.create]
  cases r.base.unavailable with
  | none => simp
  | some _ => simp

end Registry

namespace Session

variable {η : Type}

/-- A session as it is when it has been connected: all of it comes from what was given, and it has
no result. -/
structure Opened (expected : List String) (settings : Settings) (identity : Identity) (handle : η)
    (x : Session η) : Prop where
  identity_eq : x.identity = identity
  mem_expected : ∀ name, name ∈ x.expected ↔ name ∈ expected
  timeout_eq : settings.duration .timeout = .ok x.timeout
  interval_eq : settings.duration .interval = .ok x.interval
  interval_pos : 1 ≤ x.interval.nanos
  handle_eq : x.handle = some handle
  foundNames_eq : x.foundNames = .error .noResult
  missingNames_eq : x.missingNames = .error .noResult

theorem opened_of_durations
    {settings : Settings} {timeout interval : Duration}
    (hdurations : settings.durations = .ok (timeout, interval)) (expected : List String)
    (identity : Identity) (handle : η) :
    Opened expected settings identity handle
      { identity, expected := NameSet.ofList expected, timeout, interval,
        handle := some handle, found := none } := by
  obtain ⟨htimeout, hinterval, hpositive⟩ := Settings.durations_eq_ok_iff.mp hdurations
  exact ⟨rfl, fun _ => NameSet.mem_ofList, htimeout, hinterval, hpositive, rfl, rfl, rfl⟩

end Session

namespace Gathering

open Member

section Connect

variable {expected : List String} {settings : Settings} {identity : Identity} {g : Registry}

theorem act_connect_refused_iff {now : Instant} {cause : WaitFailure} :
    (unknown.act now (.connect expected settings identity) g).1 = .refused cause ↔
      Session.connect Registry.traced expected settings identity ⟨g, []⟩ = .error cause := by
  simp only [Member.act, unknown, Role.act, actAbsent]
  cases Session.connect Registry.traced expected settings identity ⟨g, []⟩ with
  | error e => simp
  | ok opened => simp

theorem act_connect_of_error
    (now : Instant) {cause : WaitFailure}
    (hconnect :
      Session.connect Registry.traced expected settings identity ⟨g, []⟩ = .error cause) :
    (unknown.act now (.connect expected settings identity) g).2 = (unknown, g) := by
  simp only [Member.act, unknown, Role.act, actAbsent, hconnect]

/-- Nothing stands in the way of a session with usable settings on a registry that is available. -/
theorem act_connect_of_available
    (now : Instant) {timeout interval : Duration}
    (hdurations : settings.durations = .ok (timeout, interval))
    (havailable : g.unavailable = none) :
    unknown.act now (.connect expected settings identity) g =
      (.accepted,
        ⟨.session
          { identity, expected := NameSet.ofList expected, timeout, interval,
            handle := some ⟨identity.name, true⟩, found := none } none false, [.created]⟩,
        { g.join identity.name with tally.created := g.tally.created + 1 }) := by
  simp only [Member.act, unknown, Role.act, actAbsent, Session.connect, hdurations, Registry.traced,
    Transport.noted, Registry.transport, Registration.create, havailable]
  rfl

end Connect

/-- On a registry in any state, for any names, settings and identity: to connect fails for the
settings exactly when they fail their check, with the same error over every transport; else for the
transport exactly when the registry is unavailable, with its reason. A failure leaves no handle and
the registry as it was. Else there is a session with the durations of its settings and no result,
and the registry has gained one registration under its identity. -/
theorem connect_all_or_nothing
    (now : Instant) (g : Registry) (expected : List String) (settings : Settings)
    (identity : Identity) :
    let out := unknown.act now (.connect expected settings identity) g
    (∀ e, out.1 = .refused (.settings e) ↔ settings.check = .error e) ∧
    (∀ e, settings.check = .error e →
      ∀ {σ η : Type} (T : Transport σ η) (s : σ),
        Session.connect T expected settings identity s = .error (.settings e)) ∧
    (∀ reason, out.1 = .refused (.transport reason) ↔
      settings.check = .ok () ∧ g.unavailable = some reason) ∧
    (∀ cause, out.1 = .refused cause → out.2 = (unknown, g)) ∧
    (settings.check = .ok () → g.unavailable = none →
      ∃ x g', out = (.accepted, ⟨.session x none false, [.created]⟩, g') ∧
        Session.Opened expected settings identity ⟨identity.name, true⟩ x ∧
        Registry.Gained identity.name g g') := by
  intro out
  refine ⟨?_, ?_, ?_, ?_, ?_⟩
  · intro e
    exact act_connect_refused_iff.trans Session.connect_eq_settings_iff
  · intro e hcheck σ η T s
    exact Session.connect_eq_settings_iff.mpr hcheck
  · intro reason
    rw [act_connect_refused_iff, Session.connect_eq_transport_iff,
      Registry.register_traced_eq_error_iff]
  · intro cause hrefused
    exact act_connect_of_error now (act_connect_refused_iff.mp hrefused)
  · intro hcheck havailable
    obtain ⟨timeout, interval, hdurations⟩ := Settings.check_eq_ok_iff_durations.mp hcheck
    exact ⟨_, _, act_connect_of_available now hdurations havailable,
      Session.opened_of_durations hdurations expected identity _, Registry.gained_join _ g⟩

end Gathering

end RollCall
