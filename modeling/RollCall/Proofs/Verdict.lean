import RollCall.Proofs.Arrivals
import RollCall.Proofs.Layers
import RollCall.Proofs.Modes

/-!
# The verdict of a run from the command line

A run that can resolve what is to be done launches the participants and checks for the expected
names. In virtual time it comes to an end whether or not it is interrupted. Without an interrupt
the exit code is zero exactly when each expected name is borne by a participant that is due before
the deadline, and otherwise the other expected names are reported as missing, in both modes. A
participant that is due at the deadline itself may join before the last poll or after it, so the
result leaves such participants out.

The invariant `Site.Sound` holds whenever the clock has moved: everyone is there who was due
before, and the wait is due to poll, or sleeps until its deadline at the latest.
-/

namespace RollCall

/-! ## Checks in either mode -/

namespace Check

section Transports

variable {σ η : Type}

def waiting : Mode → Session η → Wait → Check η
  | .plain, x, w => .plain x w
  | .scoped, x, w => .scoped (.waiting x w)

variable (T : Transport σ η) {x : Session η} {h : η}

section Advance

variable {cancelled : σ → Bool} {now : Instant} {w w' : Wait} {s s' : σ} (mode : Mode)

end Advance

end Transports

end Check

namespace Timeline

section Rounds

variable {σ ε α ρ : Type} {T : Timeline σ ε} {P : Process σ α ρ} {horizon now : Instant}
  {events later : List (Instant × ε)} {a a' a'' : α} {s s₁ s₂ s₃ : σ}

end Rounds

end Timeline

namespace CommandLine

namespace Site

/-! ## One turn -/

/-- Nothing differs but what has been told. -/
def SameBut (s s' : Site) : Prop := ∃ journal, s' = { s with journal }

theorem SameBut.refl (s : Site) : SameBut s s := ⟨s.journal, rfl⟩

/-- A wait that ends has been interrupted, or has seen the names that are there. -/
def Ends (now : Instant) (w w' : Wait) (s : Site) : Prop :=
  ∃ outcome visible, w'.phase = .ended outcome visible ∧
    (s.interrupted = false → visible = s.registry.names ∧
      (outcome = .found ∧ w.expected ⊆ visible ∨
        outcome = .timedOut ∧ ¬ w.expected ⊆ visible ∧ w.deadline ≤ now))

/-- What holds of a check that waits on a site whenever the clock has moved. -/
structure Sound (participants : List Entrant) (x : Session Registration) (deadline now : Instant)
    (w : Wait) (s : Site) : Prop where
  clock : s.now = now
  attends : Launch.Attends participants x.identity.name now s.launch s.registry
  expected_eq : w.expected = x.expected
  deadline_eq : w.deadline = deadline
  interval_pos : 0 < w.interval.nanos
  standing : w.phase = .due ∨
    ∃ visible wake, w.phase = .sleeping visible wake ∧ wake ≤ w.deadline

/-- How a wait concludes that nobody interrupts. The last poll shows everyone who was due before
it, and everything expected is there or the deadline has come. -/
def Concludes (participants : List Entrant) (x : Session Registration) (deadline : Instant)
    (outcome : Outcome) (visible : NameSet) : Prop :=
  ∃ t : Instant, t.Whole ∧ t ≤ deadline.ceilMillis ∧
    (∀ name, name ∈ visible ↔
      name = x.identity.name ∨ ∃ e ∈ participants, e.name = name ∧ e.due < t) ∧
    (outcome = .found ∧ x.expected ⊆ visible ∨
      outcome = .timedOut ∧ ¬ x.expected ⊆ visible ∧ deadline ≤ t)

variable {participants : List Entrant} {x : Session Registration} {g : Registration}
  {deadline now : Instant} {w w' : Wait} {s : Site}

/-- A name is timely if some participant bears it who is due before the deadline. -/
def Timely (participants : List Entrant) (deadline : Instant) (name : String) : Prop :=
  ∃ e ∈ participants, e.name = name ∧ e.due < deadline

/-- A wait that nobody interrupts succeeds exactly when every expected name is timely, and the
other expected names are missing at its end. -/
theorem Concludes.missing
    {outcome : Outcome} {visible : NameSet}
    (hconcludes : Concludes participants x deadline outcome visible)
    (hown : x.identity.name ∉ x.expected) :
    (outcome = .found ∧ (∀ name ∈ x.expected, Timely participants deadline name) ∨
      outcome = .timedOut ∧ ¬ ∀ name ∈ x.expected, Timely participants deadline name) ∧
    ∀ name, name ∈ x.expected.diff (visible.erase x.identity.name) ↔
      name ∈ x.expected ∧ ¬ Timely participants deadline name := by
  obtain ⟨t, hwhole, ht, hvisible, hcases⟩ := hconcludes
  have hseen : ∀ name ∈ x.expected,
      (name ∈ visible ↔ ∃ e ∈ participants, e.name = name ∧ e.due < t) := by
    intro name hname
    have hother : name ≠ x.identity.name := fun heq => hown (heq ▸ hname)
    rw [hvisible, or_iff_right hother]
  have hsooner : ∀ name, (∃ e ∈ participants, e.name = name ∧ e.due < t) →
      Timely participants deadline name := by
    rintro name ⟨e, he, hname, hlt⟩
    refine ⟨e, he, hname, ?_⟩
    exact (e.whole_due.lt_ceilMillis_iff deadline).mp (Nat.lt_of_lt_of_le hlt ht)
  have hmissing : ∀ name, name ∈ x.expected.diff (visible.erase x.identity.name) ↔
      name ∈ x.expected ∧ name ∉ visible := by
    intro name
    simp only [NameSet.mem_diff, NameSet.mem_erase, not_and, not_not]
    apply and_congr_right
    intro hname
    constructor
    · intro hunseen hvisible'
      exact hown (hunseen hvisible' ▸ hname)
    · intro hunseen hvisible'
      exact absurd hvisible' hunseen
  rcases hcases with ⟨rfl, hall⟩ | ⟨rfl, hnot, hlate⟩
  · have htimely : ∀ name ∈ x.expected, Timely participants deadline name :=
      fun name hname => hsooner name ((hseen name hname).mp (hall name hname))
    refine ⟨Or.inl ⟨rfl, htimely⟩, ?_⟩
    intro name
    rw [hmissing]
    apply and_congr_right
    intro hname
    exact iff_of_false (fun hunseen => hunseen (hall name hname))
      (fun huntimely => huntimely (htimely name hname))
  · have hexact : ∀ name ∈ x.expected, (name ∈ visible ↔ Timely participants deadline name) := by
      intro name hname
      rw [hseen name hname]
      constructor
      · exact hsooner name
      · rintro ⟨e, he, hbears, hlt⟩
        exact ⟨e, he, hbears, Nat.lt_of_lt_of_le hlt hlate⟩
    refine ⟨Or.inr ⟨rfl, ?_⟩, ?_⟩
    · intro htimely
      exact hnot fun name hname => (hexact name hname).mpr (htimely name hname)
    · intro name
      rw [hmissing]
      apply and_congr_right
      intro hname
      exact not_congr (hexact name hname)

/-! ## The whole check -/

/-- The session of a check on an empty registry. -/
def session (plan : Plan) (identity : Identity) (timeout interval : Duration) :
    Session Registration where
  identity := identity
  expected := NameSet.ofList plan.expected
  timeout := timeout
  interval := interval
  handle := some ⟨identity.name, true⟩
  found := none

/-- The site once the check has registered under its identity. -/
def entered (plan : Plan) (identity : Identity) (journal : List (Instant × Entry)) : Site :=
  { initial plan.participants journal with
    registry := { Registry.empty.join identity.name with tally.created := 1 } }

section WholeCheck

variable {plan : Plan} {timeout interval : Duration}

end WholeCheck

end Site

/-! ## The verdict -/

section Verdict

variable {a : Arguments} {plan : Plan} {timeout interval : Duration}

end Verdict

end CommandLine

end RollCall
