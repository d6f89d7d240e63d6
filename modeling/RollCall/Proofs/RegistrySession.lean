import RollCall.Proofs.PollLoop

/-!
# Waits and sessions on a registry

A registry is a world of its own, which answers every poll at once and is told nothing. A wait
leaves it as it is; a session that connects adds one registration, which it takes back when it is
shut down or given up, and changes nothing else.
-/

namespace RollCall

/-! ## Waits -/

/-- A registry as a transport that traces a handle, with no body in between. -/
def Registry.traced : Transport (Traced Registry Empty) Registration := Registry.transport.traced

namespace Wait

variable (fired : Traced Registry Empty → Bool)

theorem receive_registry
    (visible : NameSet) (now : Instant) (w : Wait) (r : Traced Registry Empty) :
    (w.receive Registry.traced.toLink fired visible now r).2 = r := by
  simp only [receive]
  split
  · rfl
  · rfl

theorem poll_registry
    (g : Registration) (now : Instant) (w : Wait) (r : Traced Registry Empty) :
    w.poll Registry.traced.toLink fired g now r =
      w.receive Registry.traced.toLink fired r.base.names now
        (r.note (.polled r.base.names) r.base) :=
  poll_eq_receive rfl

/-- A wait leaves a registry as it is. -/
theorem advance_registry
    (g : Registration) (now : Instant) (w : Wait) (r : Traced Registry Empty) :
    (w.advance Registry.traced.toLink fired g now r).2.base = r.base := by
  simp only [advance, poll_registry]
  split
  · rw [receive_registry]
    rfl
  · split
    · rw [receive_registry]
    · rfl
  · split
    · rfl
    · split
      · rw [receive_registry]
        rfl
      · rfl
  · rfl

end Wait

namespace Session

/-! ## Sessions -/

/-- A session that could connect to a registry has registered under its identity there. -/
theorem connect_registry
    {expected : List String} {settings : Settings} {identity : Identity}
    {x : Session Registration} {r r' : Traced Registry Empty}
    (hconnect : connect Registry.traced expected settings identity r = .ok (x, r')) :
    r.base.unavailable = none ∧
      (∃ timeout interval, settings.durations = .ok (timeout, interval) ∧
        x = { identity, expected := NameSet.ofList expected, timeout, interval,
              handle := some ⟨identity.name, true⟩, found := none }) ∧
      r' = r.note .created
        { r.base.join identity.name with
          tally.created := r.base.tally.created + 1 } := by
  obtain ⟨timeout, interval, handle, registered, hdurations, hregister, rfl, rfl⟩ :=
    connect_eq_ok_iff.mp hconnect
  simp only [Registry.traced, Transport.noted, Registry.transport,
    Registration.create] at hregister
  cases havailable : r.base.unavailable with
  | some reason =>
    rw [havailable] at hregister
    cases hregister
  | none =>
    rw [havailable] at hregister
    cases hregister
    exact ⟨rfl, ⟨timeout, interval, hdurations, rfl⟩, rfl⟩

theorem begin_registry
    {x : Session Registration} {g : Registration} (hhandle : x.handle = some g) (now : Instant)
    (r : Traced Registry Empty) :
    x.begin Registry.traced.toLink now r =
      .ok (Wait.begin x.expected x.timeout x.interval now, r) := by
  have hopen : x.isClosed = false := isClosed_of_handle hhandle
  simp only [begin, hopen]
  rfl

theorem complete_registry
    (x : Session Registration) (outcome : Outcome) (visible : NameSet)
    (r : Traced Registry Empty) :
    x.complete Registry.traced.toLink outcome visible r = (x.keep visible, r) := rfl

theorem close_registry
    {x : Session Registration} {g : Registration} (hhandle : x.handle = some g)
    (r : Traced Registry Empty) :
    x.close Registry.traced.toLink r =
      .ok ({ x with handle := none }, r.note .released (g.destroy r.base).2) := by
  simp only [close, hhandle]
  rfl

theorem drop_registry
    {x : Session Registration} {g : Registration} (hhandle : x.handle = some g)
    (r : Traced Registry Empty) :
    x.drop Registry.traced.toLink r = r.note .released (g.destroy r.base).2 := by
  simp only [drop, hhandle]
  rfl

end Session

end RollCall
