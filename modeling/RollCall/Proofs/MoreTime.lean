import Mathlib.Data.List.Basic
import RollCall.Proofs.Schedule

/-!
# Waits that are given more time

On a schedule on which names stay once they are there, a wait that is on time succeeds exactly if
everything expected is there at its deadline: it polls then at the latest, and whatever an earlier
poll has shown is still there. So of two waits the one with the later deadline succeeds whenever
the other does.

A longer timeout does not always lead to a later deadline. If the clock can show the end of the
shorter one but not of the longer one, thirty years stand in for the longer one alone, and the
shorter one may be longer than that.
-/

namespace RollCall

namespace Instant

/-- A longer span leads to an earlier instant exactly when the clock can show the end of the
shorter span alone, and the shorter span is longer than the thirty years that stand in for the
other. -/
theorem after_le_after_iff {now : Instant} {d e : Duration} (hle : d.nanos ≤ e.nanos) :
    now.after d ≤ now.after e ↔
      ¬ (now.nanos + d.nanos < horizon ∧ horizon ≤ now.nanos + e.nanos ∧
          farAhead < d.nanos) := by
  by_cases hd : now.nanos + d.nanos < horizon
  · by_cases he : now.nanos + e.nanos < horizon
    · have hshown : ¬ horizon ≤ now.nanos + e.nanos := Nat.not_le_of_lt he
      simp [after, le_def, hd, he, hle, hshown]
    · have hlate : horizon ≤ now.nanos + e.nanos := Nat.le_of_not_lt he
      simp [after, le_def, hd, he, hlate]
  · have he : ¬ now.nanos + e.nanos < horizon := by omega
    simp [after, le_def, hd, he]

end Instant

namespace Wait

variable {σ η : Type}

/-- A schedule on which polls take no time, and an expected name that a poll shows is shown by all
later polls. -/
structure Lasting (L : Link σ η) (h : η) (world : Instant → σ) (expected : NameSet) : Prop where
  takes_eq : ∀ t, (L.poll h (world t)).1.takes = 0
  stays : ∀ name ∈ expected, ∀ t u, t ≤ u →
    name ∈ snapshot L h world t → name ∈ snapshot L h world u

theorem Lasting.subset_of_le
    {L : Link σ η} {h : η} {world : Instant → σ} {expected : NameSet}
    (hlasting : Lasting L h world expected) {t u : Instant} (htu : t ≤ u)
    (hall : expected ⊆ snapshot L h world t) : expected ⊆ snapshot L h world u :=
  fun name hname => hlasting.stays name hname t u htu (hall name hname)

def Succeeds (L : Link σ η) (h : η) (world : Instant → σ) (start : Instant) (w : Wait) : Prop :=
  ∃ n t w' visible, onTime L h world start w n = (t, w') ∧ w'.phase = .ended .found visible

/-! ## The invariant -/

section Invariant

variable (expected : NameSet) (shown : Instant → NameSet) (interval : Duration)
  (deadline : Instant)

/-- What the phase of a wait that is on time says after a poll. -/
def Observed (now : Instant) : Phase → Prop
  | .sleeping _ wake => now < wake ∧ wake ≤ deadline
  | .ended .found _ => expected ⊆ shown now
  | .ended .timedOut _ => ¬ expected ⊆ shown now ∧ now = deadline
  | _ => False

/-- What holds of a wait that is on time after each of its polls. -/
structure Punctual (now : Instant) (w : Wait) : Prop where
  expected_eq : w.expected = expected
  interval_eq : w.interval = interval
  deadline_eq : w.deadline = deadline
  soon : now ≤ deadline
  observed : Observed expected shown deadline now w.phase

end Invariant

variable {expected : NameSet} {shown : Instant → NameSet} {interval : Duration}
variable {start deadline now : Instant}

theorem punctual_observe
    {w : Wait} (hexpected : w.expected = expected) (hinterval : w.interval = interval)
    (hdeadline : w.deadline = deadline) (hpositive : 0 < interval.nanos) (hsoon : now ≤ deadline) :
    Punctual expected shown interval deadline now (w.observe (shown now) now) := by
  refine ⟨hexpected, hinterval, hdeadline, hsoon, ?_⟩
  simp only [observe]
  cases hverdict : w.verdict (shown now) now with
  | found => exact hexpected ▸ verdict_found_iff.mp hverdict
  | timedOut =>
    obtain ⟨hmissing, hlate⟩ := verdict_timedOut_iff.mp hverdict
    exact ⟨hexpected ▸ hmissing, Instant.eq_of_nanos (Nat.le_antisymm hsoon (hdeadline ▸ hlate))⟩
  | again wake =>
    obtain ⟨hlater, hwake⟩ := verdict_wake hverdict (hinterval ▸ hpositive)
    exact ⟨hlater, hdeadline ▸ hwake⟩

/-- After so many polls a wait that is on time is at least so many nanoseconds past its start, or
it is over. -/
def Advanced (start : Instant) (n : ℕ) (now : Instant) (phase : Phase) : Prop :=
  start.nanos + n ≤ now.nanos ∨ ∃ outcome visible, phase = .ended outcome visible

/-- Each poll of a wait that is on time leaves it so, and further on than the poll before. -/
theorem punctual_onTime
    {L : Link σ η} {h : η} {world : Instant → σ} {w : Wait} (hdue : w.phase = .due)
    (hexpected : w.expected = expected) (hinterval : w.interval = interval)
    (hdeadline : w.deadline = deadline) (hpositive : 0 < interval.nanos)
    (hstart : start ≤ deadline) (htakes : ∀ t, (L.poll h (world t)).1.takes = 0) (n : ℕ) :
    let out := onTime L h world start w n
    Punctual expected (snapshot L h world) interval deadline out.1 out.2 ∧
      Advanced start n out.1 out.2.phase := by
  induction n with
  | zero =>
    rw [onTime_zero hdue htakes]
    exact ⟨punctual_observe hexpected hinterval hdeadline hpositive hstart, Or.inl (Nat.le_refl _)⟩
  | succ n ih =>
    rcases hstate : onTime L h world start w n with ⟨now, v⟩
    rw [hstate] at ih
    obtain ⟨hpunctual, hadvanced⟩ := ih
    have hobserved := hpunctual.observed
    cases hphase : v.phase with
    | due => simp only [hphase, Observed] at hobserved
    | polling visible ready => simp only [hphase, Observed] at hobserved
    | sleeping visible wake =>
      simp only [hphase, Observed] at hobserved
      obtain ⟨hlater, hsoon⟩ := hobserved
      have hpolls : start.nanos + n ≤ now.nanos := by
        rcases hadvanced with hpolls | ⟨outcome, visible, hended⟩
        · exact hpolls
        · cases hphase.symm.trans hended
      rw [onTime_succ_of_sleeping hstate hphase htakes]
      refine ⟨punctual_observe hpunctual.expected_eq hpunctual.interval_eq hpunctual.deadline_eq
        hpositive hsoon, Or.inl ?_⟩
      rw [Instant.lt_def] at hlater
      change start.nanos + (n + 1) ≤ wake.nanos
      omega
    | ended outcome visible =>
      rw [onTime_succ_of_ended hstate hphase]
      exact ⟨hpunctual, Or.inr ⟨outcome, visible, hphase⟩⟩

/-- A wait that is on time comes to an end. -/
theorem exists_ended_of_punctual
    {L : Link σ η} {h : η} {world : Instant → σ} {w : Wait}
    (hruns : ∀ n, let out := onTime L h world start w n
      Punctual expected (snapshot L h world) interval deadline out.1 out.2 ∧
        Advanced start n out.1 out.2.phase) :
    ∃ n t w' outcome visible, onTime L h world start w n = (t, w') ∧
      w'.phase = .ended outcome visible := by
  let n := deadline.nanos + 1
  obtain ⟨hpunctual, hpast | ⟨outcome, visible, hphase⟩⟩ := hruns n
  · have hsoon := hpunctual.soon
    rw [Instant.le_def] at hsoon
    omega
  · exact ⟨n, _, _, outcome, visible, rfl, hphase⟩

/-- On a schedule on which names stay, a wait that is on time succeeds exactly if everything
expected is there at its deadline. -/
theorem succeeds_iff
    {L : Link σ η} {h : η} {world : Instant → σ} (hlasting : Lasting L h world expected)
    (timeout : Duration) (hpositive : 0 < interval.nanos) (start : Instant) :
    (Wait.begin expected timeout interval start).Succeeds L h world start ↔
      expected ⊆ snapshot L h world (start.after timeout) := by
  have hruns := punctual_onTime (w := Wait.begin expected timeout interval start) rfl rfl rfl rfl
    hpositive (Instant.le_after start timeout) hlasting.takes_eq
  constructor
  · rintro ⟨n, t, w', visible, hstate, hphase⟩
    obtain ⟨hpunctual, -⟩ := hruns n
    rw [hstate] at hpunctual
    have hall := hpunctual.observed
    simp only [hphase, Observed] at hall
    exact hlasting.subset_of_le hpunctual.soon hall
  · intro hall
    obtain ⟨n, t, w', outcome, visible, hstate, hphase⟩ := exists_ended_of_punctual hruns
    obtain ⟨hpunctual, -⟩ := hruns n
    rw [hstate] at hpunctual
    have hobserved := hpunctual.observed
    rw [hphase] at hobserved
    cases outcome with
    | found => exact ⟨n, t, w', visible, hstate, hphase⟩
    | timedOut =>
      obtain ⟨hmissing, rfl⟩ := hobserved
      exact absurd hall hmissing
    | cancelled => exact hobserved.elim

/-! ## A schedule on which all arrive at once -/

/-- Everyone is there from an instant on, and nobody before. -/
def allFrom (expected : NameSet) (arrival : Instant) : Link Instant Unit where
  poll _ t := (⟨if arrival ≤ t then expected else ∅, 0⟩, t)
  release _ t := t
  tell _ t := t

theorem lasting_allFrom (expected : NameSet) (arrival : Instant) :
    Lasting (allFrom expected arrival) () id expected := by
  refine ⟨fun _ => rfl, ?_⟩
  intro name hname t u htu hseen
  have harrived : arrival ≤ t := by
    by_contra hearly
    simp only [snapshot, allFrom, id, hearly, if_false] at hseen
    exact NameSet.not_mem_empty name hseen
  have hlater : arrival ≤ u := Nat.le_trans harrived htu
  simpa only [snapshot, allFrom, id, hlater, if_true] using hname

theorem subset_allFrom_iff {expected : NameSet} {arrival t : Instant} :
    expected ⊆ snapshot (allFrom expected arrival) () id t ↔ arrival ≤ t ∨ expected = ∅ := by
  by_cases hlate : arrival ≤ t
  · simp only [snapshot, allFrom, id, hlate, if_true, true_or, iff_true]
    exact fun _ hname => hname
  · simp only [snapshot, allFrom, id, hlate, if_false, false_or]
    constructor
    · intro hall
      apply NameSet.ext
      intro name
      exact ⟨fun hname => hall name hname, fun hname => absurd hname (NameSet.not_mem_empty name)⟩
    · rintro rfl
      exact fun _ hname => hname

end Wait

namespace Settings

theorem durations_setSeconds_timeout
    {settings : Settings} {more : Binary64} {shorter interval : Duration}
    (hdurations : settings.durations = .ok (shorter, interval))
    (hcheck : (settings.setSeconds more .timeout).check = .ok ()) :
    ∃ longer, (settings.setSeconds more .timeout).durations = .ok (longer, interval) := by
  obtain ⟨longer, other, hlonger⟩ := check_eq_ok_iff_durations.mp hcheck
  obtain ⟨-, hinterval, -⟩ := durations_eq_ok_iff.mp hdurations
  obtain ⟨-, hother, -⟩ := durations_eq_ok_iff.mp hlonger
  have hsame : (.ok interval : Except SettingsError Duration) = .ok other :=
    hinterval.symm.trans hother
  cases hsame
  exact ⟨longer, hlonger⟩

theorem durations_mono
    {settings : Settings} {more : Binary64} {shorter longer interval : Duration}
    (hshorter : settings.durations = .ok (shorter, interval))
    (hlonger : (settings.setSeconds more .timeout).durations = .ok (longer, interval))
    (hmore : settings.timeout.units ≤ more.units) : shorter.nanos ≤ longer.nanos := by
  obtain ⟨htimeout, -, -⟩ := durations_eq_ok_iff.mp hshorter
  obtain ⟨htimeout', -, -⟩ := durations_eq_ok_iff.mp hlonger
  exact Duration.ofSeconds?_mono (duration_eq_ok_iff.mp htimeout) (duration_eq_ok_iff.mp htimeout')
    hmore

/-- Of two timeouts that settings can be used with, the longer one keeps every success of the
shorter one, on whatever schedule on which names stay, exactly if its deadline is no earlier or
there is nothing to wait for. Its deadline is earlier exactly if the clock can show the end of the
shorter timeout and not of the longer one, and the shorter one is longer than thirty years. -/
theorem more_time_keeps_success_iff
    (settings : Settings) (more : Binary64) (hcheck : settings.check = .ok ())
    (hcheck' : (settings.setSeconds more .timeout).check = .ok ())
    (hmore : settings.timeout.units ≤ more.units) (expected : NameSet) (start : Instant) :
    ∃ shorter longer interval, settings.durations = .ok (shorter, interval) ∧
      (settings.setSeconds more .timeout).durations = .ok (longer, interval) ∧
      ((∀ (σ η : Type) (L : Link σ η) (h : η) (world : Instant → σ),
          Wait.Lasting L h world expected →
          (Wait.begin expected shorter interval start).Succeeds L h world start →
          (Wait.begin expected longer interval start).Succeeds L h world start) ↔
        start.after shorter ≤ start.after longer ∨ expected = ∅) ∧
      (start.after shorter ≤ start.after longer ↔
        ¬ (start.nanos + shorter.nanos < Instant.horizon ∧
            Instant.horizon ≤ start.nanos + longer.nanos ∧
            Instant.farAhead < shorter.nanos)) := by
  obtain ⟨shorter, interval, hshorter⟩ := check_eq_ok_iff_durations.mp hcheck
  obtain ⟨longer, hlonger⟩ := durations_setSeconds_timeout hshorter hcheck'
  obtain ⟨-, -, hpositive⟩ := durations_eq_ok_iff.mp hshorter
  refine ⟨shorter, longer, interval, hshorter, hlonger, ?_,
    Instant.after_le_after_iff (durations_mono hshorter hlonger hmore)⟩
  constructor
  · intro hkeeps
    have hlasting := Wait.lasting_allFrom expected (start.after shorter)
    have hfirst : expected ⊆ Wait.snapshot (Wait.allFrom expected (start.after shorter)) () id
        (start.after shorter) := Wait.subset_allFrom_iff.mpr (Or.inl (Nat.le_refl _))
    have hsuccess := hkeeps _ _ _ _ _ hlasting
      ((Wait.succeeds_iff hlasting shorter hpositive start).mpr hfirst)
    have hsecond := (Wait.succeeds_iff hlasting longer hpositive start).mp hsuccess
    exact Wait.subset_allFrom_iff.mp hsecond
  · intro hlater σ η L h world hlasting hsuccess
    have hall := (Wait.succeeds_iff hlasting shorter hpositive start).mp hsuccess
    refine (Wait.succeeds_iff hlasting longer hpositive start).mpr ?_
    rcases hlater with hlater | rfl
    · exact hlasting.subset_of_le hlater hall
    · exact fun name hname => absurd hname (NameSet.not_mem_empty name)

/-- Thirty years are kept by ten quintillion seconds, whose end the clock cannot show: both end at
the same instant. -/
theorem thirty_years_kept :
    let settings : Settings :=
      ⟨Binary64.ofNat 946080000, Binary64.ofNat 1000000000, Identity.defaultStem⟩
    let more := Binary64.ofNat 10000000000000000000
    let expected := NameSet.ofList ["a"]
    settings.check = .ok () ∧ (settings.setSeconds more .timeout).check = .ok () ∧
      settings.timeout.units ≤ more.units ∧
      ∃ shorter longer interval, settings.durations = .ok (shorter, interval) ∧
        (settings.setSeconds more .timeout).durations = .ok (longer, interval) ∧
        ∀ (σ η : Type) (L : Link σ η) (h : η) (world : Instant → σ),
          Wait.Lasting L h world expected →
          (Wait.begin expected shorter interval ⟨0⟩).Succeeds L h world ⟨0⟩ →
          (Wait.begin expected longer interval ⟨0⟩).Succeeds L h world ⟨0⟩ := by
  intro settings more expected
  have hcheck : settings.check = .ok () := by decide +kernel
  have hcheck' : (settings.setSeconds more .timeout).check = .ok () := by decide +kernel
  have hmore : settings.timeout.units ≤ more.units := by decide +kernel
  obtain ⟨shorter, longer, interval, hshorter, hlonger, hkeeps, hlater⟩ :=
    more_time_keeps_success_iff settings more hcheck hcheck' hmore expected ⟨0⟩
  have hthirty : settings.durations =
      .ok (⟨Instant.farAhead, by decide⟩, ⟨1000000000 * nanosPerSecond, by decide⟩) := by
    decide +kernel
  cases hthirty.symm.trans hshorter
  refine ⟨hcheck, hcheck', hmore, _, longer, _, hshorter, hlonger, hkeeps.mpr (Or.inl ?_)⟩
  rw [hlater]
  rintro ⟨-, -, hlong⟩
  exact Nat.lt_irrefl _ hlong

/-- The only participant comes when a billion seconds are over. A timeout of one quintillion
seconds finds it, and ten times that timeout, which ends after thirty years, does not. -/
theorem longer_timeout_loses_success :
    let settings : Settings :=
      ⟨Binary64.ofNat 1000000000000000000, Binary64.ofNat 1000000000, Identity.defaultStem⟩
    let more := Binary64.ofNat 10000000000000000000
    let expected := NameSet.ofList ["a"]
    let L : Link Registry Registration := Registry.transport.toLink
    let h : Registration := ⟨"me", true⟩
    let alone := Registry.empty.join "me"
    let world : Instant → Registry := fun t =>
      if t.nanos < 1000000000 * nanosPerSecond then alone else alone.join "a"
    settings.check = .ok () ∧ (settings.setSeconds more .timeout).check = .ok () ∧
      settings.timeout.units ≤ more.units ∧ Wait.Lasting L h world expected ∧
      ∃ shorter longer interval, settings.durations = .ok (shorter, interval) ∧
        (settings.setSeconds more .timeout).durations = .ok (longer, interval) ∧
        (Wait.begin expected shorter interval ⟨0⟩).Succeeds L h world ⟨0⟩ ∧
        ¬ (Wait.begin expected longer interval ⟨0⟩).Succeeds L h world ⟨0⟩ ∧
        ¬ (⟨0⟩ : Instant).after shorter ≤ (⟨0⟩ : Instant).after longer := by
  intro settings more expected L h alone world
  let shorter : Duration := ⟨1000000000000000000 * nanosPerSecond, by decide⟩
  let longer : Duration := ⟨10000000000000000000 * nanosPerSecond, by decide⟩
  let interval : Duration := ⟨1000000000 * nanosPerSecond, by decide⟩
  have hpositive : 0 < interval.nanos := by decide
  have hlasting : Wait.Lasting L h world expected := by
    refine ⟨fun _ => rfl, ?_⟩
    intro name hname t u htu hseen
    have hnames : ∀ t, Wait.snapshot L h world t = (world t).names := fun _ => rfl
    rw [hnames] at hseen ⊢
    obtain rfl : name = "a" := by simpa [expected] using hname
    have hpresent : ¬ t.nanos < 1000000000 * nanosPerSecond := by
      intro hearly
      rw [show world t = alone from if_pos hearly] at hseen
      revert hseen
      decide
    have hlater : ¬ u.nanos < 1000000000 * nanosPerSecond := by
      rw [Instant.le_def] at htu
      omega
    rw [show world u = alone.join "a" from if_neg hlater]
    decide
  refine ⟨by decide +kernel, by decide +kernel, by decide +kernel, hlasting,
    shorter, longer, interval, by decide +kernel, by decide +kernel, ?_, ?_, by decide⟩
  · refine (Wait.succeeds_iff hlasting shorter hpositive ⟨0⟩).mpr ?_
    decide +kernel
  · intro hsuccess
    have hall := (Wait.succeeds_iff hlasting longer hpositive ⟨0⟩).mp hsuccess
    revert hall
    decide +kernel

end Settings

end RollCall
