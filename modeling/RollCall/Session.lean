import RollCall.Wait

/-!
# Sessions

A session owns one handle, from `connect` until it is shut down or given up. Each wait replaces
the result of the wait before; a wait that is abandoned leaves the session as it was. What is
missing is computed from the expected names and the names that were found, and the session's own
name is never among the latter.

Main statements: `connect_eq_ok_iff`, `begin_eq_ok_iff`, `turn_cases` and `close_eq_ok_iff`, which
say what each operation of a session does.
-/

namespace RollCall

/-- A session, connected through a handle of type `η`. -/
structure Session (η : Type) where
  identity : Identity
  expected : NameSet
  timeout : Duration
  interval : Duration
  /-- The handle, until it has been released. -/
  handle : Option η
  /-- The names visible when the last wait ended, without the session's own. -/
  found : Option NameSet

namespace Session

variable {σ η : Type}

/-- A new session. Settings that cannot be used are found before the transport is touched, and a
failure changes nothing. -/
def connect (T : Transport σ η) (expected : List String) (settings : Settings)
    (identity : Identity) (s : σ) : Except WaitFailure (Session η × σ) :=
  match settings.durations with
  | .error e => .error (.settings e)
  | .ok (timeout, interval) =>
    match T.register identity s with
    | .error reason => .error (.transport reason)
    | .ok (handle, s) =>
      .ok ({ identity, expected := NameSet.ofList expected, timeout, interval,
             handle := some handle, found := none },
           T.tell (.handleCreated identity.name) s)

section Connect

variable {T : Transport σ η} {expected : List String} {settings : Settings} {identity : Identity}
  {s s' : σ} {x : Session η}

/-- A session is connected with usable settings over a transport that registers its identity. -/
theorem connect_eq_ok_iff :
    connect T expected settings identity s = .ok (x, s') ↔
      ∃ timeout interval handle registered,
        settings.durations = .ok (timeout, interval) ∧
          T.register identity s = .ok (handle, registered) ∧
          x = { identity, expected := NameSet.ofList expected, timeout, interval,
                handle := some handle, found := none } ∧
          s' = T.tell (.handleCreated identity.name) registered := by
  unfold connect
  cases settings.durations with
  | error e => simp
  | ok spans =>
      cases T.register identity s with
      | error reason => simp
      | ok registered =>
          constructor
          · rintro ⟨⟩
            exact ⟨_, _, _, _, rfl, rfl, rfl, rfl⟩
          · rintro ⟨_, _, _, _, ⟨⟩, ⟨⟩, rfl, rfl⟩
            rfl

/-- The settings are the cause of a failure whenever they cannot be used. -/
theorem connect_eq_settings_iff {e : SettingsError} :
    connect T expected settings identity s = .error (.settings e) ↔
      settings.check = .error e := by
  rw [Settings.check_eq_error_iff]
  unfold connect
  cases settings.durations with
  | error e => simp
  | ok spans =>
      cases T.register identity s with
      | error reason => simp
      | ok registered => simp

/-- The transport is the cause of a failure only if the settings can be used. -/
theorem connect_eq_transport_iff {reason : String} :
    connect T expected settings identity s = .error (.transport reason) ↔
      settings.check = .ok () ∧ T.register identity s = .error reason := by
  rw [Settings.check_eq_ok_iff_durations]
  unfold connect
  cases settings.durations with
  | error e => simp
  | ok spans =>
      obtain ⟨timeout, interval⟩ := spans
      cases T.register identity s with
      | error _ => simp
      | ok registered => simp

end Connect

/-- Whether the handle has been released. -/
def isClosed (x : Session η) : Bool := x.handle.isNone

theorem isClosed_of_handle {x : Session η} {h : η} (hhandle : x.handle = some h) :
    x.isClosed = false := by
  simp [isClosed, hhandle]

def begin (L : Link σ η) (now : Instant) (x : Session η) (s : σ) :
    Except Misuse (Wait × σ) :=
  if x.isClosed then .error .waitAfterClose
  else
    .ok (Wait.begin x.expected x.timeout x.interval now,
      L.tell (.waiting x.timeout x.expected) s)

/-- A wait begins on a session whose handle has not been released. -/
theorem begin_eq_ok_iff {L : Link σ η} {now : Instant} {x : Session η} {s s' : σ} {w : Wait} :
    x.begin L now s = .ok (w, s') ↔
      x.isClosed = false ∧ w = Wait.begin x.expected x.timeout x.interval now ∧
        s' = L.tell (.waiting x.timeout x.expected) s := by
  unfold begin
  cases x.isClosed with
  | true => simp
  | false => simp [eq_comm]

/-- The names visible when the last wait ended, without the session's own. -/
def foundNames (x : Session η) : Except Misuse NameSet :=
  match x.found with
  | none => .error .noResult
  | some found => .ok found

/-- The expected names that were not found by the last wait. -/
def missingNames (x : Session η) : Except Misuse NameSet :=
  x.foundNames.map x.expected.diff

/-- Keeps the snapshot that a wait ended with, without the session's own name. -/
def keep (x : Session η) (visible : NameSet) : Session η :=
  { x with found := some (visible.erase x.identity.name) }

/-- What is told of the end of a wait, from the session that has kept its snapshot. -/
def ending (x : Session η) : Outcome → Entry
  | .found => .allFound x.expected.size
  | .timedOut => .timedOut x.timeout (x.expected.diff (x.found.getD ∅))
  | .cancelled => .cancelled

/-- Ends a wait: the snapshot is kept, and the outcome is told. -/
def complete (L : Link σ η) (outcome : Outcome) (visible : NameSet) (x : Session η) (s : σ) :
    Session η × σ :=
  let x := x.keep visible
  (x, L.tell (x.ending outcome) s)

/-- Where a wait of a session stands after a turn. -/
inductive Progress
  | pending (wait : Wait)
  | ended (outcome : Outcome) (visible : NameSet)

/-- The wait that is still under way. -/
def Progress.wait? : Progress → Option Wait
  | .pending w => some w
  | .ended _ _ => none

/-- Completes the session if its wait has ended. -/
def settle (L : Link σ η) (w : Wait) (x : Session η) (s : σ) : Progress × Session η × σ :=
  match w.phase with
  | .ended outcome visible => (.ended outcome visible, x.complete L outcome visible s)
  | _ => (.pending w, x, s)

theorem settle_cases (L : Link σ η) (w : Wait) (x : Session η) (s : σ) :
    (∃ outcome visible, w.phase = .ended outcome visible ∧
      x.settle L w s = (.ended outcome visible, x.complete L outcome visible s)) ∨
    (∀ outcome visible, w.phase ≠ .ended outcome visible) ∧
      x.settle L w s = (.pending w, x, s) := by
  unfold settle
  split
  · rename_i outcome visible hphase
    exact Or.inl ⟨outcome, visible, hphase, rfl⟩
  · rename_i hopen
    exact Or.inr ⟨hopen, rfl⟩

/-- Gives the wait of a session a turn, and completes the session if that ends it. -/
def turn (L : Link σ η) (cancelled : σ → Bool) (handle : η) (now : Instant) (w : Wait)
    (x : Session η) (s : σ) : Progress × Session η × σ :=
  let (w, s) := w.advance L cancelled handle now s
  x.settle L w s

/-- Either a turn ends the wait, and the session keeps its snapshot, or the wait goes on and the
session is as it was. -/
theorem turn_cases {L : Link σ η} {cancelled : σ → Bool} {handle : η} {now : Instant} {w w' : Wait}
    {s s' : σ} (x : Session η) (hadvance : w.advance L cancelled handle now s = (w', s')) :
    (∃ outcome visible, w'.phase = .ended outcome visible ∧
      x.turn L cancelled handle now w s =
        (.ended outcome visible, x.complete L outcome visible s')) ∨
    (∀ outcome visible, w'.phase ≠ .ended outcome visible) ∧
      x.turn L cancelled handle now w s = (.pending w', x, s') := by
  have hturn : x.turn L cancelled handle now w s = x.settle L w' s' := by
    rw [turn, hadvance]
  rw [hturn]
  exact settle_cases L w' x s'

/-- A turn of a wait leaves the handle to its session. -/
theorem turn_handle (L : Link σ η) (cancelled : σ → Bool) (handle : η) (now : Instant) (w : Wait)
    (x : Session η) (s : σ) : (x.turn L cancelled handle now w s).2.1.handle = x.handle := by
  rcases hadvance : w.advance L cancelled handle now s with ⟨w', s'⟩
  rcases x.turn_cases hadvance with ⟨outcome, visible, -, hturn⟩ | ⟨-, hturn⟩
  · rw [hturn]
    rfl
  · rw [hturn]

/-- Nothing becomes of a session while its wait goes on. -/
theorem turn_pending {L : Link σ η} {cancelled : σ → Bool} {handle : η} {now : Instant}
    {w w' : Wait} {s s' : σ} {x x' : Session η}
    (hturn : x.turn L cancelled handle now w s = (.pending w', x', s')) : x' = x := by
  rcases hadvance : w.advance L cancelled handle now s with ⟨w₁, s₁⟩
  rcases x.turn_cases hadvance with ⟨outcome, visible, -, hended⟩ | ⟨-, hpending⟩
  · rw [hended] at hturn
    cases hturn
  · rw [hpending] at hturn
    cases hturn
    rfl

/-- Releases the handle. Nothing can be waited for afterwards; the results stay. -/
def close (L : Link σ η) (x : Session η) (s : σ) : Except Misuse (Session η × σ) :=
  match x.handle with
  | none => .error .alreadyClosed
  | some handle =>
    .ok ({ x with handle := none },
      L.tell (.handleDestroyed x.identity.name) (L.release handle s))

/-- A session is shut down that has not released its handle. -/
theorem close_eq_ok_iff {L : Link σ η} {x x' : Session η} {s s' : σ} :
    x.close L s = .ok (x', s') ↔
      ∃ handle, x.handle = some handle ∧ x' = { x with handle := none } ∧
        s' = L.tell (.handleDestroyed x.identity.name) (L.release handle s) := by
  unfold close
  cases x.handle with
  | none => simp
  | some handle => simp [eq_comm]

/-- Gives the session up; a handle that is still live is released. -/
def drop (L : Link σ η) (x : Session η) (s : σ) : σ :=
  match x.handle with
  | none => s
  | some handle => L.release handle (L.tell (.droppedLive x.identity.name) s)

end Session

end RollCall
