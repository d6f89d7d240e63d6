import Mathlib.Data.List.Basic
import RollCall.Launch
import RollCall.Proofs.Schedule

/-!
# The arrivals of a launch

The participants of a launch join one after the other, each when its delay is over, and none of
them leaves while the launch goes on. So at every instant a registry shows the name that was there
from the beginning and the names of all participants that were due before.

The invariant is `Attends`: it reads the tasks and the names off the clock. It is kept when the
tasks take their turns, and when the clock moves on to an instant before which nobody else is due.
-/

namespace RollCall

namespace Instant

/-- An instant at a whole number of milliseconds. -/
def Whole (t : Instant) : Prop := nanosPerMilli ∣ t.nanos

theorem whole_start : start.Whole := Nat.dvd_zero _

theorem Whole.afterMillis {t : Instant} (h : t.Whole) (ms : ℕ) : (t.afterMillis ms).Whole :=
  Nat.dvd_add h (Nat.dvd_mul_left _ _)

/-- Rounding up to a whole millisecond does not reach a whole instant that was not reached. -/
theorem Whole.lt_ceilMillis_iff {t : Instant} (h : t.Whole) (deadline : Instant) :
    t < deadline.ceilMillis ↔ t < deadline := by
  obtain ⟨k, hk⟩ := h
  simp only [lt_def, ceilMillis, hk, nanosPerMilli]
  omega

end Instant

namespace Registry

theorem mem_names_join (r : Registry) (joining name : String) :
    name ∈ (r.join joining).names ↔ name = joining ∨ name ∈ r.names := by
  simp only [names, join, NameSet.mem_def, map_fst_increment]
  exact NameSet.mem_place

end Registry

/-- When a participant of a launch at the start of the clock joins. -/
def Entrant.due (e : Entrant) : Instant := Instant.start.afterSleep e.delay

theorem Entrant.whole_due (e : Entrant) : e.due.Whole := Instant.whole_start.afterMillis _

namespace Launch

/-- The task of a participant once everyone has joined who was due before an instant. -/
def taskAt (now : Instant) (e : Entrant) : Task :=
  ⟨e.name, if e.due < now then .present else .pending e.due⟩

/-- A launch that goes on, on a registry that shows one name from the beginning: everyone has
joined who was due before an instant, and nobody else has. -/
structure Attends (participants : List Entrant) (own : String) (now : Instant) (l : Launch)
    (r : Registry) : Prop where
  running : l.stopped = false
  tasks_eq : l.tasks = participants.map (taskAt now)
  mem_names : ∀ name, name ∈ r.names ↔
    name = own ∨ ∃ e ∈ participants, e.name = name ∧ e.due < now

variable {participants : List Entrant} {own : String} {now next : Instant} {l : Launch}
  {r : Registry}

theorem Attends.later
    (h : Attends participants own now l r) (hle : now ≤ next)
    (hdue : ∀ e ∈ participants, e.due < now ∨ next ≤ e.due) :
    Attends participants own next l r := by
  have hsame : ∀ e ∈ participants, (e.due < now ↔ e.due < next) := by
    intro e he
    have hcases := hdue e he
    simp only [Instant.lt_def, Instant.le_def] at hle hcases ⊢
    omega
  refine ⟨h.running, ?_, ?_⟩
  · rw [h.tasks_eq]
    apply List.map_congr_left
    intro e he
    simp only [taskAt, hsame e he]
  · intro name
    rw [h.mem_names]
    apply or_congr_right
    constructor
    · rintro ⟨e, he, hname, hlt⟩
      exact ⟨e, he, hname, (hsame e he).mp hlt⟩
    · rintro ⟨e, he, hname, hlt⟩
      exact ⟨e, he, hname, (hsame e he).mpr hlt⟩

/-! ## Turns of the tasks -/

/-- The instant right after another: what is due before it is due at the other or before. -/
def justAfter (now : Instant) : Instant := ⟨now.nanos + 1⟩

theorem lt_justAfter_iff {t : Instant} : t < justAfter now ↔ t ≤ now := Nat.lt_succ_iff

theorem step_pending (name : String) (due now : Instant) (r : Registry) :
    Task.step false false now ⟨name, if due < now then .present else .pending due⟩ r =
      (⟨name, if due < justAfter now then .present else .pending due⟩,
        if due = now then r.join name else r) := by
  by_cases hlt : due < now
  · have hle : due ≤ now := Nat.le_of_lt hlt
    have hne : due ≠ now := fun heq => Nat.lt_irrefl _ (heq ▸ hlt)
    simp [Task.step, lt_justAfter_iff, hlt, hle, hne]
  · by_cases hle : due ≤ now
    · have heq : due = now := Instant.eq_of_nanos (Nat.le_antisymm hle (Nat.le_of_not_lt hlt))
      simp only [Task.step, lt_justAfter_iff, hlt, hle, if_true, if_false,
        Bool.false_and, Bool.false_eq_true]
      rw [if_pos heq]
    · have hne : due ≠ now := fun heq => hle (heq ▸ Nat.le_refl _)
      simp [Task.step, lt_justAfter_iff, hlt, hle, hne]

/-- A task takes its turn: it joins if it is due and has not joined yet. -/
theorem step_taskAt (now : Instant) (e : Entrant) (r : Registry) :
    (taskAt now e).step false false now r =
      (taskAt (justAfter now) e, if e.due = now then r.join e.name else r) :=
  step_pending e.name e.due now r

theorem settleTasks_taskAt (now : Instant) (participants : List Entrant) (r : Registry) :
    ∃ r', settleTasks false now (participants.map (taskAt now)) r =
        (participants.map (taskAt (justAfter now)), r') ∧
      ∀ name, name ∈ r'.names ↔
        name ∈ r.names ∨ ∃ e ∈ participants, e.name = name ∧ e.due = now := by
  induction participants generalizing r with
  | nil => exact ⟨r, rfl, by simp⟩
  | cons e participants ih =>
    obtain ⟨r', hsettle, hnames⟩ := ih (if e.due = now then r.join e.name else r)
    refine ⟨r', ?_, ?_⟩
    · rw [List.map_cons, List.map_cons, settleTasks, step_taskAt]
      simp only
      rw [hsettle]
    · intro name
      rw [hnames, List.exists_mem_cons_iff]
      by_cases hdue : e.due = now
      · have hself : (e.name = name ∧ e.due = now) ↔ name = e.name :=
          ⟨fun h => h.1.symm, fun h => ⟨h.symm, hdue⟩⟩
        rw [if_pos hdue, Registry.mem_names_join, hself]
        exact (or_congr_left or_comm).trans or_assoc
      · have hself : ¬ (e.name = name ∧ e.due = now) := fun h => hdue h.2
        rw [if_neg hdue, or_iff_right hself]

/-- When all tasks have taken their turns, everyone is there who was due. -/
theorem Attends.settle (h : Attends participants own now l r) :
    Attends participants own (justAfter now) (l.settle now r).1 (l.settle now r).2 := by
  obtain ⟨r', hsettle, hnames⟩ := settleTasks_taskAt now participants r
  rw [← h.tasks_eq, ← h.running] at hsettle
  simp only [Launch.settle, hsettle]
  refine ⟨h.running, rfl, ?_⟩
  intro name
  rw [hnames, h.mem_names, or_assoc, ← exists_or]
  apply or_congr_right
  apply exists_congr
  intro e
  rw [← and_or_left, ← and_or_left, lt_justAfter_iff]
  apply and_congr_right
  intro _
  apply and_congr_right
  intro _
  constructor
  · rintro (hlt | rfl)
    · exact Nat.le_of_lt hlt
    · exact Nat.le_refl _
  · intro hle
    rcases Nat.lt_or_eq_of_le hle with hlt | heq
    · exact Or.inl hlt
    · exact Or.inr (Instant.eq_of_nanos heq)

/-! ## The next arrival -/

end Launch

end RollCall
