import Mathlib.Algebra.Order.Floor.Div
import Mathlib.Data.List.Chain
import RollCall.Proofs.Schedule

/-!
# How often a wait polls

The clock may go on as it likes between two readings, polls may take any time, and sleeps may end
late. Still every poll but the last comes before the deadline, and each one comes an interval
after the one before, or at the deadline: this is `Account.Paced`. So a wait makes no more polls
than intervals fit into its time, and one more, and it ends.

Where the clock cannot show the end of an interval, thirty years stand in for it. `after?` takes
the sums that lead to an instant one by one, and fails where the clock can show none of them.
-/

namespace RollCall

namespace Instant

/-- So many nanoseconds after an instant, if the clock can show that. -/
def plus? (now : Instant) (nanos : ℕ) : Option Instant :=
  if now.nanos + nanos < horizon then some ⟨now.nanos + nanos⟩ else none

/-- The instant a span after another, or else thirty years after it, if the clock can show one of
the two. -/
def after? (now : Instant) (d : Duration) : Option Instant :=
  (now.plus? d.nanos).or (now.plus? farAhead)

/-- How far it is to the instant a span after another. -/
def stride (now : Instant) (d : Duration) : ℕ :=
  if now.nanos + d.nanos < horizon then d.nanos else farAhead

/-- How many strides of some length it takes from an instant to reach another. -/
def stridesTo (start deadline : Instant) (span : ℕ) : ℕ :=
  (deadline.nanos - start.nanos) ⌈/⌉ span

theorem nanos_after (now : Instant) (d : Duration) :
    (now.after d).nanos = now.nanos + now.stride d := by
  unfold after stride
  split
  · rfl
  · rfl

theorem min_le_stride (now : Instant) (d : Duration) : min d.nanos farAhead ≤ now.stride d := by
  unfold stride
  split
  · exact Nat.min_le_left _ _
  · exact Nat.min_le_right _ _

/-- Where the clock can show thirty years from now, no sum fails. -/
theorem after?_eq_some_of_plus? {now far : Instant} (hfar : now.plus? farAhead = some far)
    (d : Duration) : now.after? d = some (now.after d) := by
  have hlater : far = ⟨now.nanos + farAhead⟩ := by
    unfold plus? at hfar
    split at hfar
    · exact (Option.some.inj hfar).symm
    · cases hfar
  rw [after?, hfar, plus?, after, hlater]
  split
  · rfl
  · rfl

end Instant

namespace Wait

/-- When a wait polls again that has an answer now. -/
def nextPoll (w : Wait) (now : Instant) : Instant := min (now.after w.interval) w.deadline

theorem verdict_again_iff {w : Wait} {visible : NameSet} {now wake : Instant} :
    w.verdict visible now = .again wake ↔
      ¬ w.expected ⊆ visible ∧ now < w.deadline ∧ wake = w.nextPoll now := by
  by_cases hall : w.expected ⊆ visible
  · simp [verdict, hall]
  · by_cases hlate : w.deadline ≤ now
    · have hpast : ¬ now < w.deadline := Nat.not_lt_of_le hlate
      simp [verdict, hall, hlate, hpast]
    · have hearly : now < w.deadline := Nat.lt_of_not_le hlate
      simp [verdict, hall, hlate, hearly, nextPoll, eq_comm]

/-! ## Polls that keep their distance -/

def clocks (polls : List Sighting) : List Instant := polls.map (·.clock)

@[simp] theorem clocks_watch (fired : Bool) (phase : Phase) (polls : List Sighting) :
    clocks (watch fired phase polls) = clocks polls := by
  unfold watch
  split
  · rfl
  · rfl

/-- Polls that come after the start and keep their distance, the latest first. -/
structure Apart (w : Wait) (start : Instant) (polls : List Sighting) : Prop where
  start_le : ∀ c ∈ clocks polls, start ≤ c
  next_le : (clocks polls).IsChain fun later earlier => w.nextPoll earlier ≤ later

def Ready (w : Wait) (now : Instant) (polls : List Sighting) : Prop :=
  ∀ c ∈ (clocks polls).head?, w.nextPoll c ≤ now

theorem Ready.later {w : Wait} {now t : Instant} {polls : List Sighting}
    (hready : w.Ready now polls) (hnow : now ≤ t) : w.Ready t polls :=
  fun c hc => Nat.le_trans (hready c hc) hnow

theorem Apart.cons {w : Wait} {start : Instant} {p : Sighting} {polls : List Sighting}
    (hapart : w.Apart start polls) (hstart : start ≤ p.clock) (hready : w.Ready p.clock polls) :
    w.Apart start (p :: polls) := by
  refine ⟨List.forall_mem_cons.mpr ⟨hstart, hapart.start_le⟩, ?_⟩
  have hnext := hapart.next_le
  unfold Ready at hready
  simp only [clocks, List.map_cons] at hnext hready ⊢
  cases hclocks : polls.map (·.clock) with
  | nil => exact List.isChain_singleton _
  | cons c earlier =>
    rw [hclocks] at hnext hready
    exact List.isChain_cons_cons.mpr ⟨hready c rfl, hnext⟩

theorem Apart.tail {w : Wait} {start : Instant} {p : Sighting} {polls : List Sighting}
    (hapart : w.Apart start (p :: polls)) : w.Apart start polls :=
  ⟨(List.forall_mem_cons.mp hapart.start_le).2, hapart.next_le.tail⟩

/-- What the phase of a wait says of its next poll. -/
def Poised (w : Wait) (now : Instant) (polls : List Sighting) : Phase → Prop
  | .due => polls = []
  | .polling _ _ => w.Ready now polls
  | .sleeping _ wake =>
    ∃ p earlier, polls = p :: earlier ∧ w.verdict p.visible p.clock = .again wake
  | .ended _ _ => True

variable {σ η : Type}

namespace Account

/-- What an account keeps true while its clock goes on. -/
structure Paced (interval : Duration) (start now : Instant) (a : Account σ) : Prop where
  interval_eq : a.wait.interval = interval
  start_le : start ≤ now
  apart : a.wait.Apart start a.polls
  poised : a.wait.Poised now a.polls a.wait.phase

variable {L : Link σ η} {cancelled : σ → Bool} {h : ℕ × η}
variable {interval : Duration} {start now : Instant}

theorem paced_of_receive
    (fired : Recorded σ → Bool) (visible : NameSet) {w : Wait} (r : Recorded σ)
    {polls : List Sighting} (hinterval : w.interval = interval) (hstart : start ≤ now)
    (hapart : w.Apart start polls) (hready : w.Ready now polls) :
    Paced interval start now
      { wait := (w.receive L.recorded fired visible now r).1
        record := (w.receive L.recorded fired visible now r).2
        polls := w.sighting L.recorded fired visible now r :: polls } := by
  have hapart' : w.Apart start (w.sighting L.recorded fired visible now r :: polls) :=
    hapart.cons hstart hready
  obtain ⟨hstops, hgoes⟩ := receive_eq L.recorded fired visible now w r
  by_cases hp : (w.sighting L.recorded fired visible now r).Stops w.expected w.deadline
  · rw [hstops hp]
    exact ⟨hinterval, hstart, ⟨hapart'.start_le, hapart'.next_le⟩, trivial⟩
  · obtain ⟨wake, hagain, hwait⟩ := hgoes hp
    rw [hwait]
    exact ⟨hinterval, hstart, ⟨hapart'.start_le, hapart'.next_le⟩, _, polls, rfl, hagain⟩

theorem paced_of_poll
    (L : Link σ η) (fired : Recorded σ → Bool) (h : ℕ × η) {w : Wait} (r : Recorded σ)
    {polls : List Sighting} (hinterval : w.interval = interval) (hstart : start ≤ now)
    (hapart : w.Apart start polls) (hready : w.Ready now polls) :
    Paced interval start now
      { wait := (w.poll L.recorded fired h now r).1
        record := (w.poll L.recorded fired h now r).2
        polls := w.see L.recorded fired now (atOnce (L.recorded.poll h r)) polls } := by
  by_cases htakes : (L.recorded.poll h r).1.takes = 0
  · rw [poll_eq_receive htakes]
    simp only [atOnce, htakes, if_true, see]
    exact paced_of_receive fired _ _ hinterval hstart hapart hready
  · rw [poll_eq_polling htakes]
    simp only [atOnce, htakes, if_false, see]
    exact ⟨hinterval, hstart, ⟨hapart.start_le, hapart.next_le⟩, hready⟩

/-- A turn keeps an account paced, whenever it comes. -/
theorem paced_turn
    {a : Account σ} (hpaced : a.Paced interval start now) {t : Turn σ} (hnow : now ≤ t.now) :
    (a.turn L cancelled h t).Paced interval start t.now := by
  obtain ⟨hinterval, hbegun, hapart, hpoised⟩ := hpaced
  have hstart : start ≤ t.now := Nat.le_trans hbegun hnow
  rcases turn_cases L cancelled h a t with
    ⟨hphase, hturn⟩ | ⟨visible, ready, hphase, hturn⟩ | ⟨visible, wake, hphase, hturn⟩ |
      ⟨-, hturn⟩
  · rw [hturn]
    refine paced_of_poll L _ h _ hinterval hstart hapart ?_
    rcases hphase with hphase | ⟨visible, wake, hphase, hwake⟩
    · have hnone : a.polls = [] := by simpa only [hphase, Poised] using hpoised
      simp [Ready, clocks, hnone]
    · simp only [hphase, Poised] at hpoised
      obtain ⟨p, earlier, hpolls, hagain⟩ := hpoised
      obtain ⟨-, -, rfl⟩ := verdict_again_iff.mp hagain
      rw [hpolls]
      rintro c ⟨⟩
      exact hwake
  · rw [hturn]
    have hready : a.wait.Ready now a.polls := by simpa only [hphase, Poised] using hpoised
    exact paced_of_receive _ visible _ hinterval hstart hapart (hready.later hnow)
  · rw [hturn]
    simp only [interrupt, hphase]
    refine ⟨hinterval, hstart, ⟨?_, ?_⟩, trivial⟩
    · rw [clocks_watch]
      exact hapart.start_le
    · rw [clocks_watch]
      exact hapart.next_le
  · rw [hturn]
    refine ⟨hinterval, hstart, hapart, ?_⟩
    cases hphase : a.wait.phase with
    | due => simpa only [hphase, Poised] using hpoised
    | polling visible ready =>
      have hready : a.wait.Ready now a.polls := by simpa only [hphase, Poised] using hpoised
      exact hready.later hnow
    | sleeping visible wake => simpa only [hphase, Poised] using hpoised
    | ended outcome visible => trivial

theorem paced_run
    (turns : List (Turn σ)) {a : Account σ} (hpaced : a.Paced interval start now)
    (hclock : (now :: turns.map (·.now)).IsChain (· ≤ ·)) :
    ∃ now', (a.run L cancelled h turns).Paced interval start now' := by
  induction turns generalizing a now with
  | nil => exact ⟨now, hpaced⟩
  | cons t turns ih =>
    obtain ⟨hnow, hrest⟩ := List.isChain_cons_cons.mp hclock
    exact ih (paced_turn hpaced hnow) hrest

/-! ## The number of polls -/

/-- Polls that keep their distance and come before the deadline are as far from the start as their
strides make together. -/
theorem mul_le_of_apart
    {w : Wait} {p : Sighting} {polls : List Sighting} {span : ℕ}
    (hapart : w.Apart start (p :: polls)) (hopen : ∀ q ∈ p :: polls, q.clock < w.deadline)
    (hspan : ∀ q ∈ p :: polls, span ≤ q.clock.stride w.interval) :
    start.nanos + polls.length * span ≤ p.clock.nanos := by
  induction polls generalizing p with
  | nil => simpa [clocks, Instant.le_def] using hapart.start_le
  | cons q earlier ih =>
    obtain ⟨hp, hopen'⟩ := List.forall_mem_cons.mp hopen
    obtain ⟨hnext, -⟩ := List.isChain_cons_cons.mp hapart.next_le
    have hbefore := ih hapart.tail hopen' (List.forall_mem_cons.mp hspan).2
    have hq : span ≤ q.clock.stride w.interval := hspan q (by simp)
    simp only [nextPoll, Instant.le_def, Instant.lt_def, Instant.nanos_min,
      Instant.nanos_after] at hnext hp
    simp only [List.length_cons, Nat.succ_mul]
    omega

/-- As many polls come before the deadline, at most, as there are strides until it. -/
theorem length_le_of_apart
    {w : Wait} {polls : List Sighting} {span : ℕ} (hpositive : 0 < span)
    (hapart : w.Apart start polls) (hopen : ∀ q ∈ polls, q.clock < w.deadline)
    (hspan : ∀ q ∈ polls, span ≤ q.clock.stride w.interval) :
    polls.length ≤ start.stridesTo w.deadline span := by
  cases polls with
  | nil => exact Nat.zero_le _
  | cons p earlier =>
    have hfar := mul_le_of_apart hapart hopen hspan
    have hbefore : p.clock.nanos < w.deadline.nanos := hopen p (by simp)
    by_contra hmore
    have hfew : start.stridesTo w.deadline span ≤ earlier.length := by
      simp only [List.length_cons] at hmore
      omega
    have hshort := (ceilDiv_le_iff_le_mul hpositive).mp hfew
    rw [Nat.mul_comm] at hshort
    omega

section Sound

variable {expected : NameSet} {deadline : Instant} {n : ℕ} {before : List Call} {a : Account σ}

theorem clock_lt_of_goes
    {polls : List Sighting} (hgoes : ∀ q ∈ polls, ¬ q.Stops expected deadline) :
    ∀ q ∈ polls, q.clock < deadline := by
  intro q hq
  apply Nat.lt_of_not_le
  intro hlate
  exact hgoes q hq (Or.inr (Or.inl hlate))

/-- Before a wait is over it has made no more polls than there are strides to its deadline. -/
theorem Sound.length_polls_le
    (hsound : Sound expected deadline n before a) (hapart : a.wait.Apart start a.polls)
    (hopen : ¬ a.Over) {span : ℕ} (hpositive : 0 < span)
    (hspan : ∀ q ∈ a.polls, q.clock < deadline → span ≤ q.clock.stride a.wait.interval) :
    a.polls.length ≤ start.stridesTo deadline span := by
  have hgoes : ∀ q ∈ a.polls, ¬ q.Stops expected deadline :=
    fun q hq hstops => hopen (hsound.over_iff.mpr ⟨q, hq, hstops⟩)
  have hearly := clock_lt_of_goes hgoes
  rw [← hsound.deadline_eq] at hearly hspan ⊢
  exact length_le_of_apart hpositive hapart hearly (fun q hq => hspan q hq (hearly q hq))

/-- A wait makes one poll more, at most, than there are strides from its start to its deadline. -/
theorem Sound.length_asked_le
    (hsound : Sound expected deadline n before a) (hapart : a.wait.Apart start a.polls)
    {span : ℕ} (hpositive : 0 < span)
    (hspan : ∀ q ∈ a.polls, q.clock < deadline → span ≤ q.clock.stride a.wait.interval) :
    (asked a.polls ++ pending a.wait.phase).length ≤ start.stridesTo deadline span + 1 := by
  have hlength : (asked a.polls ++ pending a.wait.phase).length =
      a.polls.length + (pending a.wait.phase).length := by simp [asked]
  rw [hlength]
  by_cases hover : a.Over
  · obtain ⟨outcome, visible, hphase⟩ := hover
    have hstanding := hsound.standing
    rw [hphase] at hstanding
    obtain ⟨p, earlier, hpolls, -, hgoes, -, -⟩ := hstanding
    rw [hpolls] at hapart hspan
    have hearly := clock_lt_of_goes hgoes
    have hbefore : earlier.length ≤ start.stridesTo a.wait.deadline span :=
      length_le_of_apart hpositive hapart.tail (hsound.deadline_eq ▸ hearly)
        (fun q hq => hspan q (List.mem_cons_of_mem p hq) (hearly q hq))
    rw [hsound.deadline_eq] at hbefore
    simp only [hpolls, hphase, pending, List.length_cons, List.length_nil]
    omega
  · have hpolls := hsound.length_polls_le hapart hover hpositive hspan
    have hpending : (pending a.wait.phase).length ≤ 1 := by
      unfold pending
      split <;> simp
    omega

end Sound

end Account

/-- A wait that has not everything yet sleeps past now and not past its deadline. Where the clock
can show thirty years from now, no sum on the way to the end of the sleep fails. -/
theorem wake_of_again
    {w : Wait} {visible : NameSet} {now wake : Instant} (hpositive : 0 < w.interval.nanos)
    (hagain : w.verdict visible now = .again wake) :
    now < wake ∧ wake ≤ w.deadline ∧
      ∀ far, now.plus? Instant.farAhead = some far →
        ∃ next, now.after? w.interval = some next ∧ wake = min next w.deadline := by
  obtain ⟨hlater, hsoon⟩ := verdict_wake hagain hpositive
  obtain ⟨-, -, rfl⟩ := verdict_again_iff.mp hagain
  refine ⟨hlater, hsoon, ?_⟩
  intro far hfar
  exact ⟨_, Instant.after?_eq_some_of_plus? hfar w.interval, rfl⟩

theorem verdict_congr {w v : Wait} (hexpected : w.expected = v.expected)
    (hdeadline : w.deadline = v.deadline) (hinterval : w.interval = v.interval) :
    w.verdict = v.verdict := by
  funext visible now
  simp only [verdict, hexpected, hdeadline, hinterval]

end Wait

namespace Session

variable {σ η : Type}

/-- The turns of a wait that has begun, while the clock goes on, keep its account sound and
paced. -/
theorem begin_paced
    (L : Link σ η) (cancelled : σ → Bool) {x : Session (ℕ × η)} {h : ℕ × η}
    (hhandle : x.handle = some h) (start : Instant) (r : Recorded σ) :
    let w := Wait.begin x.expected x.timeout x.interval start
    ∃ r₀, x.begin L.recorded start r = .ok (w, r₀) ∧
      ∀ turns : List (Wait.Turn σ), (start :: turns.map (·.now)).IsChain (· ≤ ·) →
        let a := Wait.Account.run L cancelled h ⟨w, r₀, []⟩ turns
        a.Sound x.expected w.deadline h.1 (r.calls h.1) ∧
          ∃ now, a.Paced x.interval start now := by
  intro w
  obtain ⟨w', r₀, hbegin, hsound⟩ := begin_sound L cancelled hhandle start r
  obtain rfl : w' = w := (begin_eq_ok_iff.mp hbegin).2.1
  refine ⟨r₀, hbegin, ?_⟩
  intro turns hclock a
  have hfirst : Wait.Account.Paced x.interval start start (⟨w, r₀, []⟩ : Wait.Account σ) :=
    ⟨rfl, Nat.le_refl _, ⟨by simp [Wait.clocks], List.isChain_nil⟩, rfl⟩
  exact ⟨hsound turns, Wait.Account.paced_run turns hfirst hclock⟩

/-- Whatever its polls show and however long they take, and whenever its sleeps end once they are
over, a wait of a session that could connect sleeps past now each time and not past its deadline,
and makes one poll more, at most, than there are strides of its interval from its start to its
deadline. Given turns when it is ready for them, it comes to an end. Where the clock can show
thirty years from now, no sum on the way to a deadline or the end of a sleep fails. -/
theorem polls_within_strides
    (T : Transport σ η) (expected : List String) (settings : Settings) (identity : Identity)
    (r₀ r₁ : Recorded σ) (x : Session (ℕ × η))
    (hconnect : connect T.recorded expected settings identity r₀ = .ok (x, r₁))
    (found : Option NameSet) (cancelled : σ → Bool) (start : Instant) (r : Recorded σ) :
    ∃ h w r₂, x.handle = some h ∧
      ({ x with found } : Session (ℕ × η)).begin T.toLink.recorded start r = .ok (w, r₂) ∧
      w.deadline = start.after x.timeout ∧
      (∀ far, start.plus? Instant.farAhead = some far →
        start.after? x.timeout = some w.deadline) ∧
      ∀ turns : List (Wait.Turn σ), (start :: turns.map (·.now)).IsChain (· ≤ ·) →
        let a := Wait.Account.run T.toLink cancelled h ⟨w, r₂, []⟩ turns
        let made := Wait.asked a.polls ++ Wait.pending a.wait.phase
        (∀ p ∈ a.polls, ∀ wake, w.verdict p.visible p.clock = .again wake →
          p.clock < wake ∧ wake ≤ w.deadline ∧
            ∀ far, p.clock.plus? Instant.farAhead = some far →
              ∃ next, p.clock.after? x.interval = some next ∧ wake = min next w.deadline) ∧
        (∀ visible wake, a.wait.phase = .sleeping visible wake →
          ∃ p earlier, a.polls = p :: earlier ∧ w.verdict p.visible p.clock = .again wake) ∧
        a.record.calls h.1 = r.calls h.1 ++ made ∧
        (∀ span, 0 < span →
          (∀ p ∈ a.polls, p.clock < w.deadline → span ≤ p.clock.stride x.interval) →
          made.length ≤ start.stridesTo w.deadline span + 1) ∧
        (Wait.Account.Timely T.toLink cancelled h ⟨w, r₂, []⟩ turns →
          2 * start.stridesTo w.deadline (min x.interval.nanos Instant.farAhead) + 1 <
            turns.length → a.Over) := by
  obtain ⟨timeout, interval, h, s, hdurations, -, rfl, -⟩ := connect_eq_ok_iff.mp hconnect
  obtain ⟨-, -, hpositive⟩ := Settings.durations_eq_ok_iff.mp hdurations
  let w := Wait.begin (NameSet.ofList expected) timeout interval start
  obtain ⟨r₂, hbegin, hpaces⟩ := begin_paced T.toLink cancelled
    (x := { identity, expected := NameSet.ofList expected, timeout, interval,
            handle := some h, found }) rfl start r
  refine ⟨h, w, r₂, rfl, hbegin, rfl, ?_, ?_⟩
  · intro far hfar
    exact Instant.after?_eq_some_of_plus? hfar timeout
  · intro turns hclock a made
    obtain ⟨hsound, now, hpaced⟩ := hpaces turns hclock
    change a.Sound (NameSet.ofList expected) w.deadline h.1 (r.calls h.1) at hsound
    change a.Paced interval start now at hpaced
    have hverdict : a.wait.verdict = w.verdict :=
      Wait.verdict_congr hsound.expected_eq hsound.deadline_eq hpaced.interval_eq
    refine ⟨?_, ?_, hsound.calls_eq, ?_, ?_⟩
    · intro p _ wake hagain
      exact Wait.wake_of_again (w := w) hpositive hagain
    · intro visible wake hphase
      have hpoised := hpaced.poised
      rw [hphase] at hpoised
      obtain ⟨p, earlier, hpolls, hagain⟩ := hpoised
      exact ⟨p, earlier, hpolls, hverdict ▸ hagain⟩
    · intro span hspan hstride
      exact hsound.length_asked_le hpaced.apart hspan (hpaced.interval_eq ▸ hstride)
    · intro htimely hmany
      by_contra hgoes
      have hleast : 0 < min interval.nanos Instant.farAhead :=
        Nat.lt_min.mpr ⟨hpositive, by decide⟩
      have hfew : a.polls.length ≤
          start.stridesTo w.deadline (min interval.nanos Instant.farAhead) :=
        hsound.length_polls_le hpaced.apart hgoes hleast
          (fun q _ _ => hpaced.interval_eq ▸ q.clock.min_le_stride interval)
      have hlast : a.stage ≤ 2 * a.polls.length + 1 := a.stage_le
      rcases Wait.Account.stage_run turns htimely with hstage | hover
      · change turns.length + _ ≤ a.stage at hstage
        change 2 * start.stridesTo w.deadline (min interval.nanos Instant.farAhead) + 1 < _ at hmany
        omega
      · exact hgoes hover

/-- A timeout that the clock cannot show the end of, and an interval longer than the thirty years
that stand in for it: the wait polls at its start and at its deadline, which is as often as it
may. -/
theorem two_polls_in_thirty_years :
    let T : Transport Registry Registration := Registry.transport
    let settings : Settings :=
      ⟨Binary64.ofNat 10000000000000000000, Binary64.ofNat 1000000000, Identity.defaultStem⟩
    let start : Instant := ⟨0⟩
    let h : ℕ × Registration := (0, ⟨"me", true⟩)
    let world := Registry.empty.join "me"
    let turns : List (Wait.Turn Registry) := [⟨start, world⟩, ⟨⟨Instant.farAhead⟩, world⟩]
    ∃ x r w r₂,
      connect T.recorded ["a"] settings ⟨"me"⟩ (Recorded.ofBase Registry.empty) = .ok (x, r) ∧
      x.begin T.toLink.recorded start r = .ok (w, r₂) ∧
      (start :: turns.map (·.now)).IsChain (· ≤ ·) ∧
      let a := Wait.Account.run T.toLink (fun _ => false) h ⟨w, r₂, []⟩ turns
      let made := Wait.asked a.polls ++ Wait.pending a.wait.phase
      w.deadline = ⟨Instant.farAhead⟩ ∧ made.length = 2 ∧
        made.length ≤ start.stridesTo w.deadline x.interval.nanos + 1 ∧
        start.stridesTo w.deadline x.interval.nanos + 1 = 2 := by
  intro T settings start h world turns
  let timeout : Duration := ⟨10000000000000000000000000000, by decide⟩
  let interval : Duration := ⟨1000000000000000000, by decide⟩
  have hdurations : settings.durations = .ok (timeout, interval) := by decide +kernel
  let x : Session (ℕ × Registration) :=
    ⟨⟨"me"⟩, NameSet.ofList ["a"], timeout, interval, some h, none⟩
  let r : Recorded Registry := ⟨{ world with tally := ⟨1, 0⟩ }, [(0, .created)]⟩
  have hconnect : connect T.recorded ["a"] settings ⟨"me"⟩ (Recorded.ofBase Registry.empty) =
      .ok (x, r) :=
    connect_eq_ok_iff.mpr ⟨timeout, interval, h, r, hdurations, rfl, rfl, rfl⟩
  have hclock : (start :: turns.map (·.now)).IsChain (· ≤ ·) := by
    simp only [start, turns, List.map_cons, List.map_nil]
    decide
  obtain ⟨h', w, r₂, ⟨⟩, hbegin, hdeadline, -, hturns⟩ :=
    polls_within_strides T ["a"] settings ⟨"me"⟩ (Recorded.ofBase Registry.empty) r x hconnect none
      (fun _ => false) start r
  obtain ⟨-, -, -, hpolls, -⟩ := hturns turns hclock
  have hfar : start.after timeout = ⟨Instant.farAhead⟩ := by decide
  refine ⟨x, r, w, r₂, hconnect, hbegin, hclock, hdeadline.trans hfar, ?_, ?_, ?_⟩
  · cases hbegin
    decide +kernel
  · refine hpolls interval.nanos (by decide) ?_
    intro p _ hopen
    have hfits : p.clock.nanos + interval.nanos < Instant.horizon := by
      rw [hdeadline.trans hfar, Instant.lt_def] at hopen
      exact Nat.lt_trans (Nat.add_lt_add_right hopen _) (by decide)
    rw [Instant.stride, if_pos hfits]
  · rw [hdeadline.trans hfar]
    decide +kernel

end Session

end RollCall
