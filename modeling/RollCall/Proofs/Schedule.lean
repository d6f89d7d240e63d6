import Mathlib.Order.Bounds.Defs
import RollCall.Proofs.SuccessSignal

/-!
# Waits that are on time

A wait whose polls take no time, whose sleeps end when they should and which nobody cancels polls
at fixed instants: at its start, each interval later while the deadline has not come, and at the
deadline itself. If every expected name arrives at an instant and stays, the wait ends at the first
of these instants that is not before the last arrival, or else at the deadline.

The invariant counts the polls: after the poll with number `n` the wait sleeps until the poll with
number `n + 1`, and none of the polls so far has shown everything, or the wait has finished.
-/

namespace RollCall

namespace Instant

theorem eq_of_nanos {s t : Instant} (h : s.nanos = t.nanos) : s = t := by
  obtain ⟨s⟩ := s
  obtain ⟨t⟩ := t
  simpa using h

theorem nanos_min (s t : Instant) : (min s t).nanos = min s.nanos t.nanos := by
  have hmin : min s t = if s ≤ t then s else t := rfl
  rw [hmin]
  split <;> rename_i hle <;> rw [le_def] at hle <;> omega

end Instant

namespace Wait

/-- The instants at which a wait that is on time may poll. -/
def pollInstants (start : Instant) (timeout interval : Duration) : Set Instant :=
  {t | (∃ k, k * interval.nanos < timeout.nanos ∧
        t.nanos = start.nanos + k * interval.nanos) ∨
      t.nanos = start.nanos + timeout.nanos}

/-- The instant of a poll by its number. Those that would come after the deadline come at it. -/
def nthPoll (start : Instant) (timeout interval : Duration) (k : ℕ) : Instant :=
  ⟨min (start.nanos + k * interval.nanos) (start.nanos + timeout.nanos)⟩

section Grid

variable {start : Instant} {timeout interval : Duration}

theorem nthPoll_zero : nthPoll start timeout interval 0 = start := by
  simp [nthPoll]

theorem nthPoll_mono {j k : ℕ} (hjk : j ≤ k) :
    nthPoll start timeout interval j ≤ nthPoll start timeout interval k := by
  have hmul : j * interval.nanos ≤ k * interval.nanos := Nat.mul_le_mul_right _ hjk
  simp only [Instant.le_def, nthPoll]
  omega

theorem nthPoll_succ_le (start : Instant) (timeout interval : Duration) (k : ℕ) :
    (nthPoll start timeout interval (k + 1)).nanos ≤
      (nthPoll start timeout interval k).nanos + interval.nanos := by
  simp only [nthPoll, Nat.succ_mul]
  omega

/-- The polls of a wait that is on time are at the poll instants, and at no others. -/
theorem mem_pollInstants_iff (hinterval : 0 < interval.nanos) {t : Instant} :
    t ∈ pollInstants start timeout interval ↔ ∃ k, t = nthPoll start timeout interval k := by
  constructor
  · rintro (⟨k, hk, ht⟩ | ht)
    · refine ⟨k, Instant.eq_of_nanos ?_⟩
      simp only [nthPoll]
      omega
    · refine ⟨timeout.nanos, Instant.eq_of_nanos ?_⟩
      have hmul : timeout.nanos * 1 ≤ timeout.nanos * interval.nanos :=
        Nat.mul_le_mul_left _ hinterval
      simp only [nthPoll]
      omega
  · rintro ⟨k, rfl⟩
    by_cases hk : k * interval.nanos < timeout.nanos
    · left
      refine ⟨k, hk, ?_⟩
      simp only [nthPoll]
      omega
    · right
      simp only [nthPoll]
      omega

/-- The first poll at which something holds is at the first poll instant at which it holds. -/
theorem isLeast_nthPoll (hinterval : 0 < interval.nanos) (holds : Instant → Prop) {k : ℕ}
    (hfirst : holds (nthPoll start timeout interval k))
    (hbefore : ∀ j < k, ¬ holds (nthPoll start timeout interval j)) :
    IsLeast {t | t ∈ pollInstants start timeout interval ∧ holds t}
      (nthPoll start timeout interval k) := by
  refine ⟨⟨(mem_pollInstants_iff hinterval).mpr ⟨k, rfl⟩, hfirst⟩, ?_⟩
  rintro t ⟨hpoll, ht⟩
  obtain ⟨j, rfl⟩ := (mem_pollInstants_iff hinterval).mp hpoll
  by_cases hj : j < k
  · exact absurd ht (hbefore j hj)
  · exact nthPoll_mono (Nat.le_of_not_lt hj)

end Grid

variable {σ η : Type}

/-- The instant of a turn and the wait after it, when each turn comes at the instant for which the
wait is ready, in the world of that instant, and nobody cancels. -/
def onTime (L : Link σ η) (h : η) (world : Instant → σ) (start : Instant) (w : Wait) :
    ℕ → Instant × Wait
  | 0 => (start, (w.advance L (fun _ => false) h start (world start)).1)
  | n + 1 =>
    let (now, w) := onTime L h world start w n
    match w.next? with
    | none => (now, w)
    | some next => (next, (w.advance L (fun _ => false) h next (world next)).1)

def snapshot (L : Link σ η) (h : η) (world : Instant → σ) (t : Instant) : NameSet :=
  (L.poll h (world t)).1.visible

/-- Without a token an answer does to a wait what it means, and nothing else. -/
theorem receive_of_uncancelled
    (L : Link σ η) (visible : NameSet) (now : Instant) (w : Wait) (s : σ) :
    (w.receive L (fun _ => false) visible now s).1 = w.observe visible now := by
  unfold receive
  dsimp only
  split
  · rfl
  · rfl

/-- A wait that is ready for a poll, whose answer takes no time, observes it at once. -/
theorem advance_of_ready
    (now : Instant) {L : Link σ η} {h : η} {w : Wait} {s : σ}
    (hready : w.phase = .due ∨ ∃ visible wake, w.phase = .sleeping visible wake ∧ wake ≤ now)
    (htakes : (L.poll h s).1.takes = 0) :
    (w.advance L (fun _ => false) h now s).1 = w.observe (L.poll h s).1.visible now := by
  have hpoll : (w.poll L (fun _ => false) h now s).1 = w.observe (L.poll h s).1.visible now := by
    rw [poll_eq_receive htakes, receive_of_uncancelled]
  rcases hready with hphase | ⟨visible, wake, hphase, hwake⟩
  · simp only [advance, hphase]
    exact hpoll
  · simp only [advance, hphase, hwake, if_true, Bool.false_eq_true, if_false]
    exact hpoll

section OnTime

variable {L : Link σ η} {h : η} {world : Instant → σ} {start now wake : Instant} {w v : Wait}
  {n : ℕ} {visible : NameSet}

theorem onTime_zero
    (hdue : w.phase = .due) (htakes : ∀ t, (L.poll h (world t)).1.takes = 0) :
    onTime L h world start w 0 = (start, w.observe (snapshot L h world start) start) := by
  simp only [onTime, advance_of_ready start (Or.inl hdue) (htakes start)]
  rfl

/-- A wait that sleeps polls next when its sleep is over. -/
theorem onTime_succ_of_sleeping
    (hstate : onTime L h world start w n = (now, v)) (hphase : v.phase = .sleeping visible wake)
    (htakes : ∀ t, (L.poll h (world t)).1.takes = 0) :
    onTime L h world start w (n + 1) = (wake, v.observe (snapshot L h world wake) wake) := by
  have hready := advance_of_ready wake (Or.inr ⟨visible, wake, hphase, Nat.le_refl _⟩) (htakes wake)
  simp only [onTime, hstate, next?, hphase, hready]
  rfl

theorem onTime_succ_of_ended
    {outcome : Outcome} (hstate : onTime L h world start w n = (now, v))
    (hphase : v.phase = .ended outcome visible) :
    onTime L h world start w (n + 1) = (now, v) := by
  simp only [onTime, hstate, next?, hphase]

end OnTime

/-! ## The invariant -/

variable (expected : NameSet) (shown : Instant → NameSet) (start : Instant)
  (timeout interval : Duration)

/-- How a wait that is on time has ended at an instant, after polls that did not end it. -/
def Finished (now : Instant) (phase : Phase) : Prop :=
  ∃ k, now = nthPoll start timeout interval k ∧
    (∀ j < k, ¬ expected ⊆ shown (nthPoll start timeout interval j)) ∧
    (expected ⊆ shown now ∧ phase = .ended .found (shown now) ∨
      ¬ expected ⊆ shown now ∧ now.nanos = start.nanos + timeout.nanos ∧
        phase = .ended .timedOut (shown now))

/-- What holds of a wait that is on time after the poll with number `n`. -/
structure OnCourse (n : ℕ) (now : Instant) (w : Wait) : Prop where
  expected_eq : w.expected = expected
  interval_eq : w.interval = interval
  deadline_eq : w.deadline.nanos = start.nanos + timeout.nanos
  standing :
    (n * interval.nanos < timeout.nanos ∧
      (∃ visible, w.phase = .sleeping visible (nthPoll start timeout interval (n + 1))) ∧
      ∀ k ≤ n, ¬ expected ⊆ shown (nthPoll start timeout interval k)) ∨
    Finished expected shown start timeout interval now w.phase

variable {expected shown start timeout interval}

/-- A poll keeps a wait on course. -/
theorem onCourse_observe
    (shown : Instant → NameSet) {n : ℕ} {w : Wait}
    (hexpected : w.expected = expected) (hinterval : w.interval = interval)
    (hdeadline : w.deadline.nanos = start.nanos + timeout.nanos)
    (hclock : n * interval.nanos < timeout.nanos →
      start.nanos + n * interval.nanos + interval.nanos < Instant.horizon)
    (hbefore : ∀ k < n, ¬ expected ⊆ shown (nthPoll start timeout interval k)) :
    let now := nthPoll start timeout interval n
    OnCourse expected shown start timeout interval n now (w.observe (shown now) now) := by
  intro now
  refine ⟨hexpected, hinterval, hdeadline, ?_⟩
  by_cases hall : expected ⊆ shown now
  · right
    refine ⟨n, rfl, hbefore, Or.inl ⟨hall, ?_⟩⟩
    simp [observe, verdict, hexpected, hall]
  · by_cases hlate : w.deadline ≤ now
    · right
      refine ⟨n, rfl, hbefore, Or.inr ⟨hall, ?_, ?_⟩⟩
      · simp only [Instant.le_def, hdeadline, now, nthPoll] at hlate ⊢
        omega
      · simp [observe, verdict, hexpected, hall, hlate]
    · left
      have hsoon : n * interval.nanos < timeout.nanos := by
        simp only [Instant.le_def, hdeadline, now, nthPoll] at hlate
        omega
      have hnow : now.nanos = start.nanos + n * interval.nanos := by
        simp only [now, nthPoll]
        omega
      have hnext : min (now.after interval) w.deadline =
          nthPoll start timeout interval (n + 1) := by
        have hafter : (now.after interval).nanos =
            start.nanos + n * interval.nanos + interval.nanos := by
          rw [Instant.after, hnow, if_pos (hclock hsoon)]
        apply Instant.eq_of_nanos
        rw [Instant.nanos_min, hafter, hdeadline]
        simp only [nthPoll, Nat.succ_mul]
        omega
      refine ⟨hsoon, ⟨shown now, ?_⟩, ?_⟩
      · simp [observe, verdict, hexpected, hall, hlate, hinterval, hnext]
      · intro k hk
        rcases Nat.lt_or_eq_of_le hk with hlt | rfl
        · exact hbefore k hlt
        · exact hall

/-- A wait that is on time stays on course, poll after poll. -/
theorem onCourse_onTime
    {L : Link σ η} {h : η} {world : Instant → σ} {w : Wait} (hdue : w.phase = .due)
    (hexpected : w.expected = expected) (hinterval : w.interval = interval)
    (hdeadline : w.deadline.nanos = start.nanos + timeout.nanos)
    (hclock : ∀ k, k * interval.nanos < timeout.nanos →
      start.nanos + k * interval.nanos + interval.nanos < Instant.horizon)
    (htakes : ∀ t, (L.poll h (world t)).1.takes = 0) (n : ℕ) :
    OnCourse expected (snapshot L h world) start timeout interval n
      (onTime L h world start w n).1 (onTime L h world start w n).2 := by
  induction n with
  | zero =>
    have hobserved := onCourse_observe (snapshot L h world) (n := 0) hexpected hinterval hdeadline
      (hclock 0) (by simp)
    rw [nthPoll_zero] at hobserved
    rw [onTime_zero hdue htakes]
    exact hobserved
  | succ n ih =>
    rcases hstate : onTime L h world start w n with ⟨now, v⟩
    rw [hstate] at ih
    rcases ih.standing with ⟨-, ⟨visible, hphase⟩, hbefore⟩ | hfinished
    · have hobserved := onCourse_observe (snapshot L h world) ih.expected_eq ih.interval_eq
        ih.deadline_eq (hclock (n + 1)) (fun k hk => hbefore k (Nat.le_of_lt_succ hk))
      rw [onTime_succ_of_sleeping hstate hphase htakes]
      exact hobserved
    · have hended : ∃ outcome visible, v.phase = .ended outcome visible := by
        obtain ⟨k, -, -, ⟨-, hphase⟩ | ⟨-, -, hphase⟩⟩ := hfinished
        · exact ⟨_, _, hphase⟩
        · exact ⟨_, _, hphase⟩
      obtain ⟨outcome, visible, hphase⟩ := hended
      rw [onTime_succ_of_ended hstate hphase]
      exact ⟨ih.expected_eq, ih.interval_eq, ih.deadline_eq, Or.inr hfinished⟩

/-- A wait on course has finished when it has polled as often as the time has nanoseconds. -/
theorem OnCourse.finished
    (hinterval : 0 < interval.nanos) {now : Instant} {w : Wait}
    (hcourse : OnCourse expected shown start timeout interval timeout.nanos now w) :
    Finished expected shown start timeout interval now w.phase := by
  rcases hcourse.standing with ⟨hsoon, -⟩ | hfinished
  · have hmul : timeout.nanos * 1 ≤ timeout.nanos * interval.nanos :=
      Nat.mul_le_mul_left _ hinterval
    omega
  · exact hfinished

end Wait

/-! ## Schedules -/

namespace Session

variable {σ η : Type}

def ArrivedBy (arrival : String → Option Instant) (t : Instant) (name : String) : Prop :=
  ∃ a, arrival name = some a ∧ a ≤ t

def AllArrivedBy (arrival : String → Option Instant) (expected : NameSet) (t : Instant) : Prop :=
  ∀ name ∈ expected, ArrivedBy arrival t name

theorem ArrivedBy.mono {arrival : String → Option Instant} {t u : Instant} {name : String}
    (harrived : ArrivedBy arrival t name) (htu : t ≤ u) : ArrivedBy arrival u name := by
  obtain ⟨a, ha, hle⟩ := harrived
  exact ⟨a, ha, Nat.le_trans hle htu⟩

/-- A poll that follows one at which not all had arrived is less than an interval after one of
the arrivals. -/
theorem exists_arrival_within_interval
    {arrival : String → Option Instant} {expected : NameSet} {start : Instant}
    {timeout interval : Duration} {k : ℕ}
    (harrived : AllArrivedBy arrival expected (Wait.nthPoll start timeout interval (k + 1)))
    (hbefore : ¬ AllArrivedBy arrival expected (Wait.nthPoll start timeout interval k)) :
    ∃ name ∈ expected, ∃ a, arrival name = some a ∧
      (Wait.nthPoll start timeout interval (k + 1)).nanos < a.nanos + interval.nanos := by
  have hlate : ∃ name, ∃ hname : name ∈ expected,
      ¬ ArrivedBy arrival (Wait.nthPoll start timeout interval k) name := by
    by_contra hnone
    apply hbefore
    intro name hname
    by_contra hunseen
    exact hnone ⟨name, hname, hunseen⟩
  obtain ⟨name, hname, hunseen⟩ := hlate
  obtain ⟨a, ha, -⟩ := harrived name hname
  refine ⟨name, hname, a, ha, ?_⟩
  have hafter : ¬ a ≤ Wait.nthPoll start timeout interval k := by
    intro hle
    exact hunseen ⟨a, ha, hle⟩
  have hstep := Wait.nthPoll_succ_le start timeout interval k
  rw [Instant.le_def] at hafter
  omega

/-- A session's wait that is on time finishes. -/
theorem exists_onTime_finished
    (L : Link σ η) {x : Session η} {h : η} (hhandle : x.handle = some h)
    (start : Instant) (s : σ) (world : Instant → σ) (hinterval : 0 < x.interval.nanos)
    (hdeadline : start.nanos + x.timeout.nanos < Instant.horizon)
    (hclock : ∀ k, k * x.interval.nanos < x.timeout.nanos →
      start.nanos + k * x.interval.nanos + x.interval.nanos < Instant.horizon)
    (htakes : ∀ t, (L.poll h (world t)).1.takes = 0) :
    ∃ w s₀, x.begin L start s = .ok (w, s₀) ∧
      ∃ n t w', Wait.onTime L h world start w n = (t, w') ∧
        Wait.Finished x.expected (Wait.snapshot L h world) start x.timeout x.interval t
          w'.phase := by
  have hlive : x.isClosed = false := isClosed_of_handle hhandle
  have hbegin : x.begin L start s =
      .ok (Wait.begin x.expected x.timeout x.interval start,
        L.tell (.waiting x.timeout x.expected) s) := by
    simp [begin, hlive]
  have hend : (Wait.begin x.expected x.timeout x.interval start).deadline.nanos =
      start.nanos + x.timeout.nanos := by
    simp [Wait.begin, Instant.after, hdeadline]
  have hcourse := Wait.onCourse_onTime (h := h) (L := L) rfl rfl rfl hend hclock htakes
    x.timeout.nanos
  exact ⟨_, _, hbegin, x.timeout.nanos, _, _, rfl, hcourse.finished hinterval⟩

theorem subset_snapshot_iff
    {L : Link σ η} {h : η} {world : Instant → σ} {arrival : String → Option Instant}
    {expected : NameSet} {t : Instant}
    (hseen : ∀ name ∈ expected,
      name ∈ (L.poll h (world t)).1.visible ↔ ArrivedBy arrival t name) :
    expected ⊆ Wait.snapshot L h world t ↔ AllArrivedBy arrival expected t := by
  constructor
  · intro hsub name hname
    exact (hseen name hname).mp (hsub name hname)
  · intro harrived name hname
    exact (hseen name hname).mpr (harrived name hname)

/-- The names that are missing after a snapshot are those that arrive later or never. -/
theorem mem_missing_iff_later
    {L : Link σ η} {x : Session η} {h : η} {world : Instant → σ}
    {arrival : String → Option Instant} {t : Instant} (hown : x.identity.name ∉ x.expected)
    (hseen : ∀ name ∈ x.expected,
      name ∈ (L.poll h (world t)).1.visible ↔ ArrivedBy arrival t name) (name : String) :
    name ∈ x.expected.diff ((Wait.snapshot L h world t).erase x.identity.name) ↔
      name ∈ x.expected ∧ ∀ a, arrival name = some a → t < a := by
  rw [mem_missing_of_keep]
  constructor
  · rintro ⟨hname, hunseen | rfl⟩
    · refine ⟨hname, ?_⟩
      intro a ha
      apply Nat.lt_of_not_le
      intro hle
      exact hunseen ((hseen name hname).mpr ⟨a, ha, hle⟩)
    · exact absurd hname hown
  · rintro ⟨hname, hlater⟩
    refine ⟨hname, Or.inl ?_⟩
    intro hvisible
    obtain ⟨a, ha, hle⟩ := (hseen name hname).mp hvisible
    exact absurd hle (Nat.not_le_of_lt (hlater a ha))

/-- A wait that is on time, for names that arrive at instants of their own or never. If all of
them arrive until the deadline, it ends with success at the first poll instant at which they have
arrived, less than an interval after the last of them. Otherwise it ends exactly at the deadline,
and the names that have not arrived by then are missing. -/
theorem wait_on_schedule
    (L : Link σ η) (x : Session η) (h : η) (hhandle : x.handle = some h)
    (start : Instant) (s : σ) (world : Instant → σ) (arrival : String → Option Instant)
    (hinterval : 0 < x.interval.nanos)
    (hdeadline : start.nanos + x.timeout.nanos < Instant.horizon)
    (hclock : ∀ k, k * x.interval.nanos < x.timeout.nanos →
      start.nanos + k * x.interval.nanos + x.interval.nanos < Instant.horizon)
    (hown : x.identity.name ∉ x.expected)
    (htakes : ∀ t, (L.poll h (world t)).1.takes = 0)
    (hseen : ∀ t, ∀ name ∈ x.expected,
      name ∈ (L.poll h (world t)).1.visible ↔ ArrivedBy arrival t name) :
    ∃ w s₀, x.begin L start s = .ok (w, s₀) ∧
      ∃ n t w' outcome visible, Wait.onTime L h world start w n = (t, w') ∧
        w'.phase = .ended outcome visible ∧
        let deadline : Instant := ⟨start.nanos + x.timeout.nanos⟩
        let x' := (x.complete L outcome visible (world t)).1
        (AllArrivedBy arrival x.expected deadline →
          outcome = .found ∧
          IsLeast {u | u ∈ Wait.pollInstants start x.timeout x.interval ∧
            AllArrivedBy arrival x.expected u} t ∧
          (t = start ∨ ∃ name ∈ x.expected, ∃ a, arrival name = some a ∧
            t.nanos < a.nanos + x.interval.nanos) ∧
          x'.missingNames = .ok ∅) ∧
        (¬ AllArrivedBy arrival x.expected deadline →
          outcome = .timedOut ∧ t = deadline ∧
          ∃ missing, x'.missingNames = .ok missing ∧
            ∀ name, name ∈ missing ↔
              name ∈ x.expected ∧ ∀ a, arrival name = some a → deadline < a) := by
  obtain ⟨w, s₀, hbegin, n, t, w', hstate, hfinished⟩ :=
    exists_onTime_finished L hhandle start s world hinterval hdeadline hclock htakes
  refine ⟨w, s₀, hbegin, n, t, w', ?_⟩
  have hall : ∀ u, x.expected ⊆ Wait.snapshot L h world u ↔
      AllArrivedBy arrival x.expected u := by
    intro u
    exact subset_snapshot_iff (hseen u)
  obtain ⟨k, rfl, hbefore, ⟨hsub, hphase⟩ | ⟨hnot, hlast, hphase⟩⟩ := hfinished
  · have harrived := (hall _).mp hsub
    have hunseen : ∀ j < k, ¬ AllArrivedBy arrival x.expected
        (Wait.nthPoll start x.timeout x.interval j) := by
      intro j hj
      exact mt (hall _).mpr (hbefore j hj)
    refine ⟨_, _, hstate, hphase, ?_, ?_⟩
    · intro _
      refine ⟨rfl, Wait.isLeast_nthPoll hinterval _ harrived hunseen, ?_, ?_⟩
      · rcases k with _ | k
        · left
          exact Wait.nthPoll_zero
        · right
          exact exists_arrival_within_interval harrived (hunseen k (Nat.lt_succ_self k))
      · exact (missingNames_complete_eq_empty_iff L _ _ x _).mpr ⟨hsub, hown⟩
    · intro hnever
      refine absurd ?_ hnever
      intro name hname
      exact (harrived name hname).mono (Nat.min_le_right _ _)
  · have hdead := Instant.eq_of_nanos (t := ⟨start.nanos + x.timeout.nanos⟩) hlast
    refine ⟨_, _, hstate, hphase, ?_, ?_⟩
    · intro harrived
      rw [← hdead] at harrived
      exact absurd ((hall _).mpr harrived) hnot
    · intro _
      refine ⟨rfl, hdead, _, rfl, ?_⟩
      intro name
      rw [← hdead]
      exact mem_missing_iff_later hown (hseen _) name

/-- Of two names the later one arrives between the last poll before the deadline and the deadline:
the wait ends with success at the deadline. -/
theorem wait_on_schedule_at_deadline :
    let L : Link Registry Registration := Registry.transport.toLink
    let h : Registration := ⟨"me", true⟩
    let x : Session Registration :=
      { identity := ⟨"me"⟩, expected := NameSet.ofList ["a", "b"],
        timeout := ⟨250, by decide⟩, interval := ⟨100, by decide⟩,
        handle := some h, found := none }
    let alone := Registry.empty.join "me"
    let world : Instant → Registry := fun t =>
      if t.nanos < 50 then alone
      else if t.nanos < 210 then alone.join "a" else (alone.join "a").join "b"
    ∃ w s₀, x.begin L ⟨0⟩ alone = .ok (w, s₀) ∧
      ∃ n w' visible, Wait.onTime L h world ⟨0⟩ w n = (⟨250⟩, w') ∧
        w'.phase = .ended .found visible := by
  intro L h x alone world
  let arrival : String → Option Instant := fun name => if name = "a" then some ⟨50⟩ else some ⟨210⟩
  have hnames : ∀ name ∈ x.expected, name = "a" ∨ name = "b" := by
    intro name hname
    simpa [x] using hname
  have hseen : ∀ t, ∀ name ∈ x.expected,
      name ∈ (L.poll h (world t)).1.visible ↔ ArrivedBy arrival t name := by
    intro t name hname
    have hshown : (L.poll h (world t)).1.visible = (world t).names := rfl
    rw [hshown]
    by_cases hfirst : t.nanos < 50
    · have hworld : world t = alone := by simp [world, hfirst]
      rw [hworld]
      rcases hnames name hname with rfl | rfl
      · have hunseen : "a" ∉ alone.names := by decide
        simp [hunseen, ArrivedBy, arrival, Instant.le_def]
        omega
      · have hunseen : "b" ∉ alone.names := by decide
        simp [hunseen, ArrivedBy, arrival, Instant.le_def]
        omega
    · by_cases hsecond : t.nanos < 210
      · have hworld : world t = alone.join "a" := by simp [world, hfirst, hsecond]
        rw [hworld]
        rcases hnames name hname with rfl | rfl
        · have hthere : "a" ∈ (alone.join "a").names := by decide
          simp [hthere, ArrivedBy, arrival, Instant.le_def]
          omega
        · have hunseen : "b" ∉ (alone.join "a").names := by decide
          simp [hunseen, ArrivedBy, arrival, Instant.le_def]
          omega
      · have hworld : world t = (alone.join "a").join "b" := by simp [world, hfirst, hsecond]
        rw [hworld]
        rcases hnames name hname with rfl | rfl
        · have hthere : "a" ∈ ((alone.join "a").join "b").names := by decide
          simp [hthere, ArrivedBy, arrival, Instant.le_def]
          omega
        · have hthere : "b" ∈ ((alone.join "a").join "b").names := by decide
          simp [hthere, ArrivedBy, arrival, Instant.le_def]
          omega
  obtain ⟨w, s₀, hbegin, n, t, w', outcome, visible, hrun, hphase, hfound, -⟩ :=
    wait_on_schedule L x h rfl ⟨0⟩ alone world arrival (by decide) (by decide)
      (by intro k hk; simp [x, Instant.horizon, nanosPerSecond] at hk ⊢; omega)
      (by decide) (fun _ => rfl) hseen
  have hall : AllArrivedBy arrival x.expected ⟨250⟩ := by
    intro name hname
    rcases hnames name hname with rfl | rfl
    · exact ⟨⟨50⟩, rfl, by decide⟩
    · exact ⟨⟨210⟩, rfl, by decide⟩
  obtain ⟨rfl, ⟨⟨hpoll, harrived⟩, -⟩, -⟩ := hfound hall
  obtain ⟨a, ha, hlate⟩ := harrived "b" (by decide)
  have hlater : 210 ≤ t.nanos := by
    cases ha
    exact hlate
  have ht : t = ⟨250⟩ := by
    apply Instant.eq_of_nanos
    rcases hpoll with ⟨k, hk, ht⟩ | ht
    · simp only [x] at hk ht
      omega
    · simpa [x] using ht
  subst ht
  exact ⟨w, s₀, hbegin, n, w', visible, hrun, hphase⟩

end Session

end RollCall
