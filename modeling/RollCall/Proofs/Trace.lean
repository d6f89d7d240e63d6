import Mathlib.Data.List.Basic
import Mathlib.Data.Nat.Notation
import RollCall.Proofs.Links
import RollCall.Scope

/-!
# What happens to handles

A transport of any kind, with a record of what happens to its handles: they are created, show names
at polls and are released, and between these a body may be entered, be suspended and end. A
`Scribe` says how that is written down. Nothing else about the transport changes, so what holds of
a recorded transport holds of every transport.

There are two scribes. One writes the trace of a single handle. The other gives each handle the
number of the handles created before it, and the calls that a handle has received are read off the
entries with its number.

`Chronicle.Adds` says what one operation writes: some happenings to one handle, in order. The facts
below give this for each operation of a link, of a wait and of a session, whoever the scribe is. A
wait adds polls only, and the snapshot that it keeps is always the last one that was shown.
-/

namespace RollCall

/-- What can happen to a handle, and to a body that ends in one of the ways `ε`. -/
inductive Happening (ε : Type)
  | created
  | polled (shown : NameSet)
  | released
  | entered
  | suspended
  | ended (how : ε)
  deriving DecidableEq

/-- A world together with what has been written of it, the earliest first. -/
structure Chronicle (σ α : Type) where
  base : σ
  trace : List α

namespace Chronicle

variable {σ α : Type}

def withBase (r : Chronicle σ α) (s : σ) : Chronicle σ α := { r with base := s }

/-- One more entry is written, which leaves this world. -/
def note (r : Chronicle σ α) (entry : α) (s : σ) : Chronicle σ α := ⟨s, r.trace ++ [entry]⟩

end Chronicle

/-- How what happens to the handles `η` is written down. A handle `κ` that is given out stands for
one of them. -/
structure Scribe (η κ ε α : Type) where
  stands : κ → η
  /-- What is given out for a new handle. -/
  issue : List α → η → κ
  entry : κ → Happening ε → α
  stands_issue : ∀ trace h, stands (issue trace h) = h

variable {σ η κ ε α : Type}

/-- A link of whose handles is written down what they are asked. -/
def Link.noted (c : Scribe η κ ε α) (L : Link σ η) : Link (Chronicle σ α) κ where
  poll k r :=
    let (reply, s) := L.poll (c.stands k) r.base
    (reply, r.note (c.entry k (.polled reply.visible)) s)
  release k r := r.note (c.entry k .released) (L.release (c.stands k) r.base)
  tell e r := r.withBase (L.tell e r.base)

def Transport.noted (c : Scribe η κ ε α) (T : Transport σ η) : Transport (Chronicle σ α) κ where
  toLink := T.toLink.noted c
  register identity r :=
    match T.register identity r.base with
    | .error reason => .error reason
    | .ok (h, s) =>
      let k := c.issue r.trace h
      .ok (k, r.note (c.entry k .created) s)

@[simp] theorem Transport.noted_toLink (c : Scribe η κ ε α) (T : Transport σ η) :
    (T.noted c).toLink = T.toLink.noted c := rfl

/-- What is written down changes nothing else about a link. -/
theorem Link.noted_mirrors (c : Scribe η κ ε α) (L : Link σ η) :
    (L.noted c).Mirrors L Chronicle.base c.stands :=
  ⟨fun _ _ => rfl, fun _ _ => rfl, fun _ _ => rfl⟩

/-- From one chronicle to a later one it is written that this has happened to a handle. -/
def Chronicle.Adds (c : Scribe η κ ε α) (k : κ) (word : List (Happening ε))
    (r r' : Chronicle σ α) : Prop :=
  r'.trace = r.trace ++ word.map (c.entry k)

namespace Chronicle.Adds

variable {c : Scribe η κ ε α} {k : κ} {word rest : List (Happening ε)} {r r' r'' : Chronicle σ α}

theorem of_eq (c : Scribe η κ ε α) (k : κ) (htrace : r'.trace = r.trace) : Adds c k [] r r' := by
  simp [Adds, htrace]

theorem refl (c : Scribe η κ ε α) (k : κ) (r : Chronicle σ α) : Adds c k [] r r := of_eq c k rfl

theorem withBase (c : Scribe η κ ε α) (k : κ) (r : Chronicle σ α) (s : σ) :
    Adds c k [] r (r.withBase s) :=
  of_eq c k rfl

theorem trans (h : Adds c k word r r') (h' : Adds c k rest r' r'') :
    Adds c k (word ++ rest) r r'' := by
  rw [Adds, h', h, List.map_append, List.append_assoc]

theorem note (c : Scribe η κ ε α) (k : κ) (happening : Happening ε) (r : Chronicle σ α) (s : σ) :
    Adds c k [happening] r (r.note (c.entry k happening) s) :=
  rfl

end Chronicle.Adds

open Chronicle

theorem Link.noted_poll (c : Scribe η κ ε α) (L : Link σ η) (k : κ) (r : Chronicle σ α) :
    Adds c k [.polled (L.poll (c.stands k) r.base).1.visible] r ((L.noted c).poll k r).2 :=
  Adds.note c k _ r _

/-! ## Waits -/

/-- The snapshot that a phase carries. -/
def Phase.visible? : Phase → Option NameSet
  | .due => none
  | .polling visible _ => some visible
  | .sleeping visible _ => some visible
  | .ended _ visible => some visible

namespace Wait

theorem interrupt_visible? (w : Wait) : w.interrupt.phase.visible? = w.phase.visible? := by
  unfold interrupt
  split
  · rename_i hphase
    simp [hphase, Phase.visible?]
  · rfl

theorem receive_visible?
    (L : Link σ η) (cancelled : σ → Bool) (visible : NameSet) (now : Instant) (w : Wait) (s : σ) :
    (w.receive L cancelled visible now s).1.phase.visible? = some visible := by
  have hobserved : (w.observe visible now).phase.visible? = some visible := by
    simp only [observe]
    cases w.verdict visible now with
    | found => rfl
    | timedOut => rfl
    | again wake => rfl
  simp only [receive]
  split
  · split
    · rw [interrupt_visible?, hobserved]
    · exact hobserved
  · exact hobserved

variable (L : Link σ η) (c : Scribe η κ ε α) (cancelled : Chronicle σ α → Bool)

theorem receive_trace (visible : NameSet) (now : Instant) (w : Wait) (r : Chronicle σ α) :
    (w.receive (L.noted c) cancelled visible now r).2.trace = r.trace := by
  simp only [receive]
  split
  · rfl
  · rfl

theorem receive_adds
    (k : κ) (visible : NameSet) (now : Instant) (w : Wait) (r : Chronicle σ α) :
    Adds c k [] r (w.receive (L.noted c) cancelled visible now r).2 :=
  Adds.of_eq c k (receive_trace L c cancelled visible now w r)

/-- A poll is written with what it shows, whether or not its answer takes time. -/
theorem poll_adds (k : κ) (now : Instant) (w : Wait) (r : Chronicle σ α) :
    let shown := (L.poll (c.stands k) r.base).1.visible
    Adds c k [.polled shown] r (w.poll (L.noted c) cancelled k now r).2 ∧
      (w.poll (L.noted c) cancelled k now r).1.phase.visible? = some shown := by
  have hpoll := L.noted_poll c k r
  simp only [poll]
  split
  · refine ⟨?_, receive_visible? _ _ _ now w _⟩
    simpa using hpoll.trans (receive_adds L c cancelled k _ now w _)
  · exact ⟨hpoll, rfl⟩

/-- A turn of a wait makes polls only, and only with the handle of the wait, and the wait carries
the last snapshot. -/
theorem advance_adds (k : κ) (now : Instant) (w : Wait) (r : Chronicle σ α) :
    ∃ shown : List NameSet,
      Adds c k (shown.map .polled) r (w.advance (L.noted c) cancelled k now r).2 ∧
      (w.advance (L.noted c) cancelled k now r).1.phase.visible? =
        shown.getLast?.or w.phase.visible? := by
  simp only [advance]
  split <;> rename_i hphase
  · exact ⟨[_], poll_adds L c cancelled k now w r⟩
  · split
    · refine ⟨[], receive_adds L c cancelled k _ now w r, ?_⟩
      rw [receive_visible?, hphase]
      rfl
    · exact ⟨[], Adds.refl c k r, rfl⟩
  · split
    · exact ⟨[], Adds.refl c k r, w.interrupt_visible?⟩
    · split
      · exact ⟨[_], poll_adds L c cancelled k now w r⟩
      · exact ⟨[], Adds.refl c k r, rfl⟩
  · exact ⟨[], Adds.refl c k r, rfl⟩

end Wait

/-! ## Sessions -/

namespace Session

variable {L : Link σ η} {c : Scribe η κ ε α} {x : Session κ} {k : κ}

/-- A session that could connect holds what was given out for the handle that was created for it. -/
theorem connect_adds
    {T : Transport σ η} {expected : List String} {settings : Settings} {identity : Identity}
    {r r' : Chronicle σ α}
    (hconnect : connect (T.noted c) expected settings identity r = .ok (x, r')) :
    ∃ h : η, x.handle = some (c.issue r.trace h) ∧
      Adds c (c.issue r.trace h) [.created] r r' := by
  obtain ⟨_, _, k, _, -, hregister, rfl, rfl⟩ := connect_eq_ok_iff.mp hconnect
  simp only [Transport.noted] at hregister
  split at hregister
  · cases hregister
  · rename_i h s _
    cases hregister
    exact ⟨h, rfl, rfl⟩

theorem begin_adds
    (hhandle : x.handle = some k) (now : Instant) (r : Chronicle σ α) :
    ∃ r', x.begin (L.noted c) now r =
        .ok (Wait.begin x.expected x.timeout x.interval now, r') ∧ Adds c k [] r r' := by
  have hopen : x.isClosed = false := isClosed_of_handle hhandle
  refine ⟨(L.noted c).tell (.waiting x.timeout x.expected) r, ?_, Adds.withBase c k r _⟩
  simp [begin, hopen]

theorem begin_closed
    {σ η : Type} {L : Link σ η} {x : Session η} (hhandle : x.handle = none) (now : Instant) (s : σ) :
    x.begin L now s = .error .waitAfterClose := by
  simp [begin, isClosed, hhandle]

theorem complete_adds (outcome : Outcome) (visible : NameSet) (r : Chronicle σ α) :
    Adds c k [] r (x.complete (L.noted c) outcome visible r).2 :=
  Adds.withBase c k r _

theorem close_adds (hhandle : x.handle = some k) (r : Chronicle σ α) :
    ∃ r', x.close (L.noted c) r = .ok ({ x with handle := none }, r') ∧
      Adds c k [.released] r r' := by
  refine ⟨(L.noted c).tell (.handleDestroyed x.identity.name) ((L.noted c).release k r), ?_, rfl⟩
  simp only [close, hhandle]

theorem close_closed
    {σ η : Type} {L : Link σ η} {x : Session η} (hhandle : x.handle = none) (s : σ) :
    x.close L s = .error .alreadyClosed := by
  simp only [close, hhandle]

theorem drop_adds (hhandle : x.handle = some k) (r : Chronicle σ α) :
    Adds c k [.released] r (x.drop (L.noted c) r) := by
  simp only [drop, hhandle]
  rfl

theorem drop_closed
    {σ η : Type} {L : Link σ η} {x : Session η} (hhandle : x.handle = none) (s : σ) :
    x.drop L s = s := by
  simp only [drop, hhandle]

theorem connect_ne_usage
    {σ η : Type} {T : Transport σ η} {expected : List String} {settings : Settings}
    {identity : Identity} {s : σ} {e : WaitFailure}
    (hconnect : connect T expected settings identity s = .error e) :
    (∃ cause, e = .settings cause) ∨ ∃ reason, e = .transport reason := by
  simp only [connect] at hconnect
  split at hconnect
  · cases hconnect
    exact Or.inl ⟨_, rfl⟩
  · split at hconnect
    · cases hconnect
      exact Or.inr ⟨_, rfl⟩
    · cases hconnect

end Session

/-- A scope that shuts its session down releases the handle. -/
theorem Scope.leave_adds
    {β κ' ρ : Type} {T : Transport σ η} {c : Scribe η κ ε α} {x : Session κ} {k : κ}
    (hhandle : x.handle = some k) (result : ScopeResult κ' ρ) (r : Chronicle σ α) :
    ∃ r', leave (β := β) (T.noted c) x result r = (.left result, r') ∧
      Adds c k [.released] r r' := by
  obtain ⟨r', hclose, hadds⟩ := Session.close_adds (L := T.toLink) (c := c) hhandle r
  refine ⟨r', ?_, hadds⟩
  simp only [leave, Transport.noted_toLink, hclose]

/-! ## The trace of a single handle -/

/-- Writes down what happens as it is. -/
def Scribe.single : Scribe η η ε (Happening ε) where
  stands h := h
  issue _ h := h
  entry _ happening := happening
  stands_issue _ _ := rfl

@[simp] theorem Scribe.single_entry (h : η) : (single (ε := ε)).entry h = id := rfl

@[simp] theorem Scribe.single_issue (trace : List (Happening ε)) (h : η) :
    single.issue trace h = h := rfl

/-- A world together with the trace of a handle. -/
abbrev Traced (σ ε : Type) := Chronicle σ (Happening ε)

abbrev Link.traced (L : Link σ η) : Link (Traced σ ε) η := L.noted .single

abbrev Transport.traced (T : Transport σ η) : Transport (Traced σ ε) η := T.noted .single

theorem Chronicle.Adds.trace_eq
    {h : η} {word : List (Happening ε)} {r r' : Traced σ ε} (hadds : Adds .single h word r r') :
    r'.trace = r.trace ++ word := by
  simpa [Adds] using hadds

/-! ## The calls of numbered handles -/

inductive Call
  /-- It is asked for the names it sees, and shows these. -/
  | poll (shown : NameSet)
  | release
  deriving DecidableEq

/-- The call that a handle has received, if it is one. -/
def Happening.call? : Happening ε → Option Call
  | .polled shown => some (.poll shown)
  | .released => some .release
  | _ => none

theorem Happening.filterMap_call?_polled (shown : List NameSet) :
    (shown.map .polled).filterMap (call? (ε := ε)) = shown.map Call.poll := by
  simp [List.filterMap_map, Function.comp_def, call?]

/-- A world together with what has happened to each of its handles, which are numbered in the order
of their creation. -/
abbrev Recorded (σ : Type) := Chronicle σ (ℕ × Happening Empty)

namespace Recorded

/-- A world in which no handle has been created yet. -/
def ofBase (s : σ) : Recorded σ := ⟨s, []⟩

def created (r : Recorded σ) : ℕ := (r.trace.map Prod.snd).count .created

/-- The calls that a handle has received, the earliest first. -/
def calls (r : Recorded σ) (n : ℕ) : List Call :=
  r.trace.filterMap fun entry => if entry.1 = n then entry.2.call? else none

end Recorded

/-- Gives each handle the number of the handles that have been created before it. -/
def Scribe.numbered : Scribe η (ℕ × η) Empty (ℕ × Happening Empty) where
  stands := Prod.snd
  issue trace h := ((trace.map Prod.snd).count .created, h)
  entry h happening := (h.1, happening)
  stands_issue _ _ := rfl

/-- A link whose calls are recorded. Each handle carries its number. -/
abbrev Link.recorded (L : Link σ η) : Link (Recorded σ) (ℕ × η) := L.noted .numbered

/-- A transport whose handles are numbered in the order of their creation, and whose calls are
recorded. -/
abbrev Transport.recorded (T : Transport σ η) : Transport (Recorded σ) (ℕ × η) := T.noted .numbered

namespace Recorded

variable {h : ℕ × η} {word : List (Happening Empty)} {r r' : Recorded σ}

theorem calls_congr (htrace : r'.trace = r.trace) : r'.calls = r.calls := by
  funext n
  rw [calls, calls, htrace]

theorem created_of_adds (hadds : Adds .numbered h word r r') :
    r'.created = r.created + word.count .created := by
  rw [created, hadds]
  simp [created, Scribe.numbered, Function.comp_def]

/-- The calls are added to those of the one handle, and to no other's. -/
theorem calls_of_adds (hadds : Adds .numbered h word r r') (n : ℕ) :
    r'.calls n = r.calls n ++ if n = h.1 then word.filterMap Happening.call? else [] := by
  rw [calls, hadds, List.filterMap_append, List.filterMap_map]
  congr 1
  by_cases hn : n = h.1
  · simp [Scribe.numbered, hn]
  · simp [Function.comp_def, Scribe.numbered, hn, Ne.symm hn]

theorem calls_of_polls {shown : List NameSet}
    (hadds : Adds .numbered h (shown.map .polled) r r') :
    r'.calls h.1 = r.calls h.1 ++ shown.map Call.poll := by
  rw [calls_of_adds hadds, if_pos rfl, Happening.filterMap_call?_polled]

theorem calls_of_release {shown : List NameSet}
    (hadds : Adds .numbered h (shown.map .polled ++ [.released]) r r') :
    r'.calls h.1 = r.calls h.1 ++ (shown.map Call.poll ++ [.release]) := by
  rw [calls_of_adds hadds, if_pos rfl, List.filterMap_append, Happening.filterMap_call?_polled]
  rfl

end Recorded

/-- A session that could connect holds the handle with the next number, which has received no
call. -/
theorem Session.connect_recorded
    {T : Transport σ η} {expected : List String} {settings : Settings} {identity : Identity}
    {x : Session (ℕ × η)} {r r' : Recorded σ}
    (hconnect : connect T.recorded expected settings identity r = .ok (x, r')) :
    (∃ handle : η, x.handle = some (r.created, handle)) ∧
      r'.created = r.created + 1 ∧ r'.calls = r.calls := by
  obtain ⟨handle, hhandle, hadds⟩ := connect_adds hconnect
  refine ⟨⟨handle, hhandle⟩, Recorded.created_of_adds hadds, ?_⟩
  funext n
  have hcalls := Recorded.calls_of_adds hadds n
  have hnone : [Happening.created].filterMap (Happening.call? (ε := Empty)) = [] := rfl
  simpa [hnone] using hcalls

end RollCall
