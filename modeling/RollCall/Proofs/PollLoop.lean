import RollCall.Proofs.Trace

/-!
# The poll loop and what it stands for

A wait is given turns: at any instants, in any world that the others have left behind, with any
answers to its polls and any delay of them. An `Account` follows it and keeps what is seen from
outside: the calls that its handle receives, and for each answered poll the snapshot, the clock
when the answer was there, and whether the token had fired before the sleep after it was over.

A poll *stops* the wait if everything expected is in its snapshot, or the clock is at the deadline
or past it, or the token has fired. The facts below say that the first poll that stops is the last
one that is made, and that the outcome and the snapshot that is kept are read off that poll alone.
-/

namespace RollCall

namespace Wait

structure Turn (σ : Type) where
  now : Instant
  world : σ

/-- An answered poll as it is seen from outside. -/
structure Sighting where
  visible : NameSet
  /-- What the clock showed when the answer was there. -/
  clock : Instant
  /-- Whether the token had fired when the sleep after the poll began, or fired while it was
  pending. -/
  fired : Bool

namespace Sighting

variable (expected : NameSet) (deadline : Instant)

/-- Whether a poll ends a wait. -/
def Stops (p : Sighting) : Prop :=
  expected ⊆ p.visible ∨ deadline ≤ p.clock ∨ p.fired = true

/-- How a poll that stops a wait ends it: success comes first, then the deadline. -/
def outcome (p : Sighting) : Outcome :=
  if expected ⊆ p.visible then .found
  else if deadline ≤ p.clock then .timedOut
  else .cancelled

theorem outcome_eq_found_iff {p : Sighting} :
    p.outcome expected deadline = .found ↔ expected ⊆ p.visible := by
  unfold outcome
  split
  · simp_all
  · split <;> simp_all

end Sighting

variable {σ η : Type}

/-- The answer to a poll that is made now, if it takes no time. -/
def atOnce (x : Reply × σ) : Option (NameSet × σ) :=
  if x.1.takes = 0 then some (x.1.visible, x.2) else none

/-- The answer that comes to a wait in a turn, if one does, and the world at that moment. -/
def answered? (L : Link σ η) (cancelled : σ → Bool) (handle : η) (now : Instant) (w : Wait)
    (s : σ) : Option (NameSet × σ) :=
  match w.phase with
  | .due => atOnce (L.poll handle s)
  | .polling visible ready => if ready ≤ now then some (visible, s) else none
  | .sleeping _ wake =>
    if cancelled s then none else if wake ≤ now then atOnce (L.poll handle s) else none
  | .ended _ _ => none

/-- The world in which the sleep after a poll begins. -/
def bedtime (L : Link σ η) (visible : NameSet) (w : Wait) (s : σ) : σ :=
  L.tell (.progress (w.expected.common visible) w.expected.size) s

def sighting (L : Link σ η) (cancelled : σ → Bool) (visible : NameSet) (now : Instant) (w : Wait)
    (s : σ) : Sighting :=
  ⟨visible, now, cancelled (w.bedtime L visible s)⟩

/-- The polls so far, when the token is looked at in a sleep. -/
def watch (fired : Bool) : Phase → List Sighting → List Sighting
  | .sleeping _ _, p :: earlier => { p with fired := p.fired || fired } :: earlier
  | _, polls => polls

def see (L : Link σ η) (cancelled : σ → Bool) (now : Instant) (w : Wait)
    (answer : Option (NameSet × σ)) (polls : List Sighting) : List Sighting :=
  match answer with
  | some (visible, s) => w.sighting L cancelled visible now s :: polls
  | none => polls

def asked (polls : List Sighting) : List Call := polls.reverse.map fun p => .poll p.visible

def pending : Phase → List Call
  | .polling visible _ => [.poll visible]
  | _ => []

/-- A wait with all that has been seen of it. -/
structure Account (σ : Type) where
  wait : Wait
  record : Recorded σ
  /-- The answered polls, the latest first. -/
  polls : List Sighting

namespace Account

/-- The account after one more turn. -/
def turn (L : Link σ η) (cancelled : σ → Bool) (h : ℕ × η) (a : Account σ) (t : Turn σ) :
    Account σ :=
  let fired := fun r : Recorded σ => cancelled r.base
  let r := a.record.withBase t.world
  let (wait, record) := a.wait.advance L.recorded fired h t.now r
  { wait, record
    polls := a.wait.see L.recorded fired t.now (a.wait.answered? L.recorded fired h t.now r)
      (watch (cancelled t.world) a.wait.phase a.polls) }

def run (L : Link σ η) (cancelled : σ → Bool) (h : ℕ × η) (a : Account σ)
    (turns : List (Turn σ)) : Account σ :=
  turns.foldl (fun a t => a.turn L cancelled h t) a

end Account

/-! ## What a turn does -/

/-- A wait that receives an answer ends if the poll stops it, and sleeps otherwise. -/
theorem receive_eq (L : Link σ η) (cancelled : σ → Bool) (visible : NameSet) (now : Instant)
    (w : Wait) (s : σ) :
    let p := w.sighting L cancelled visible now s
    (p.Stops w.expected w.deadline →
        (w.receive L cancelled visible now s).1 =
          { w with phase := .ended (p.outcome w.expected w.deadline) visible }) ∧
      (¬ p.Stops w.expected w.deadline →
        ∃ wake, w.verdict visible now = .again wake ∧
          (w.receive L cancelled visible now s).1 =
            { w with phase := .sleeping visible wake }) := by
  intro p
  by_cases hall : w.expected ⊆ visible
  · simp [receive, observe, verdict, Sighting.Stops, Sighting.outcome, p, sighting, hall]
  · by_cases hlate : w.deadline ≤ now
    · simp [receive, observe, verdict, Sighting.Stops, Sighting.outcome, p, sighting, hall, hlate]
    · by_cases hfired : cancelled (w.bedtime L visible s) = true
      · have hfired' := hfired
        simp only [bedtime] at hfired'
        simp [receive, observe, verdict, Sighting.Stops, Sighting.outcome, p, sighting, hall, hlate,
          hfired, hfired', interrupt]
      · have hfired' := hfired
        simp only [bedtime] at hfired'
        simp [receive, observe, verdict, Sighting.Stops, p, sighting, hall, hlate, hfired,
          hfired']

theorem poll_eq_receive
    {L : Link σ η} {cancelled : σ → Bool} {handle : η} {now : Instant} {w : Wait} {s : σ}
    (h : (L.poll handle s).1.takes = 0) :
    w.poll L cancelled handle now s =
      w.receive L cancelled (L.poll handle s).1.visible now (L.poll handle s).2 := by
  simp [poll, h]

theorem poll_eq_polling
    {L : Link σ η} {cancelled : σ → Bool} {handle : η} {now : Instant} {w : Wait} {s : σ}
    (h : (L.poll handle s).1.takes ≠ 0) :
    let (reply, s') := L.poll handle s
    w.poll L cancelled handle now s =
      ({ w with phase := .polling reply.visible (now.afterMillis reply.takes) }, s') := by
  simp [poll, h]

@[simp] theorem asked_cons (p : Sighting) (polls : List Sighting) :
    asked (p :: polls) = asked polls ++ [.poll p.visible] := by
  simp [asked]

@[simp] theorem asked_watch (fired : Bool) (phase : Phase) (polls : List Sighting) :
    asked (watch fired phase polls) = asked polls := by
  unfold watch
  split
  · simp
  · rfl

@[simp] theorem watch_false (phase : Phase) (polls : List Sighting) :
    watch false phase polls = polls := by
  unfold watch
  split
  · simp
  · rfl

namespace Account

def Over (a : Account σ) : Prop := ∃ outcome visible, a.wait.phase = .ended outcome visible

/-- What a turn does: it makes a poll, or takes the answer of one, or ends a sleep by the token; or
nothing comes of it, because the wait is over or not ready yet. -/
theorem turn_cases (L : Link σ η) (cancelled : σ → Bool) (h : ℕ × η) (a : Account σ) (t : Turn σ) :
    let fired := fun r : Recorded σ => cancelled r.base
    let r := a.record.withBase t.world
    ((a.wait.phase = .due ∨ ∃ visible wake, a.wait.phase = .sleeping visible wake ∧ wake ≤ t.now) ∧
      a.turn L cancelled h t =
        { wait := (a.wait.poll L.recorded fired h t.now r).1
          record := (a.wait.poll L.recorded fired h t.now r).2
          polls := a.wait.see L.recorded fired t.now (atOnce (L.recorded.poll h r)) a.polls }) ∨
    (∃ visible ready, a.wait.phase = .polling visible ready ∧
      a.turn L cancelled h t =
        { wait := (a.wait.receive L.recorded fired visible t.now r).1
          record := (a.wait.receive L.recorded fired visible t.now r).2
          polls := a.wait.sighting L.recorded fired visible t.now r :: a.polls }) ∨
    (∃ visible wake, a.wait.phase = .sleeping visible wake ∧
      a.turn L cancelled h t =
        { wait := a.wait.interrupt
          record := r
          polls := watch true a.wait.phase a.polls }) ∨
    (a.Over ∨ ∃ i, a.wait.next? = some i ∧ t.now < i) ∧
      a.turn L cancelled h t = { a with record := r } := by
  obtain ⟨w, r, polls⟩ := a
  simp only [turn, advance, answered?, Over]
  cases hphase : w.phase with
  | due =>
    left
    simp [watch]
  | polling visible ready =>
    by_cases hready : ready ≤ t.now
    · right; left
      exact ⟨visible, ready, rfl, by simp [hready, see, watch]⟩
    · right; right; right
      refine ⟨Or.inr ⟨ready, by simp [next?, hphase], Nat.lt_of_not_le hready⟩, ?_⟩
      simp [hready, see, watch]
  | sleeping visible wake =>
    by_cases hfired : cancelled t.world = true
    · right; right; left
      exact ⟨visible, wake, rfl, by simp [Chronicle.withBase, hfired, see]⟩
    · simp only [Bool.not_eq_true] at hfired
      by_cases hwake : wake ≤ t.now
      · left
        exact ⟨Or.inr ⟨visible, wake, rfl, hwake⟩, by simp [Chronicle.withBase, hfired, hwake]⟩
      · right; right; right
        refine ⟨Or.inr ⟨wake, by simp [next?, hphase], Nat.lt_of_not_le hwake⟩, ?_⟩
        simp [Chronicle.withBase, hfired, hwake, see]
  | ended outcome visible =>
    right; right; right
    exact ⟨Or.inl ⟨outcome, visible, rfl⟩, by simp [see, watch]⟩

end Account

/-! ## The invariant -/

/-- How the phase of a wait stands to the answered polls. -/
def Standing (expected : NameSet) (deadline : Instant) : Phase → List Sighting → Prop
  | .ended outcome visible, polls =>
    ∃ p earlier, polls = p :: earlier ∧ p.Stops expected deadline ∧
      (∀ q ∈ earlier, ¬ q.Stops expected deadline) ∧
      outcome = p.outcome expected deadline ∧ visible = p.visible
  | .sleeping visible _, polls =>
    (∀ q ∈ polls, ¬ q.Stops expected deadline) ∧
      ∃ p earlier, polls = p :: earlier ∧ visible = p.visible
  | _, polls => ∀ q ∈ polls, ¬ q.Stops expected deadline

namespace Account

/-- What an account of a wait for some names until a deadline keeps true. The handle had received
the calls `before` when the wait began. -/
structure Sound (expected : NameSet) (deadline : Instant) (n : ℕ) (before : List Call)
    (a : Account σ) : Prop where
  expected_eq : a.wait.expected = expected
  deadline_eq : a.wait.deadline = deadline
  calls_eq : a.record.calls n = before ++ (asked a.polls ++ pending a.wait.phase)
  standing : Standing expected deadline a.wait.phase a.polls

variable {expected : NameSet} {deadline : Instant} {before : List Call}
variable {L : Link σ η} {cancelled : σ → Bool} {h : ℕ × η} {a : Account σ}

theorem sound_of_receive
    {fired : Recorded σ → Bool} {n : ℕ} {visible : NameSet} {now : Instant}
    {w : Wait} {r : Recorded σ} {polls : List Sighting}
    (hexpected : w.expected = expected) (hdeadline : w.deadline = deadline)
    (hcalls : r.calls n = before ++ (asked polls ++ [.poll visible]))
    (hpolls : ∀ q ∈ polls, ¬ q.Stops expected deadline) :
    Sound expected deadline n before
      { wait := (w.receive L.recorded fired visible now r).1
        record := (w.receive L.recorded fired visible now r).2
        polls := w.sighting L.recorded fired visible now r :: polls } := by
  have hrecord : (w.receive L.recorded fired visible now r).2.calls n = r.calls n :=
    congrFun (Recorded.calls_congr (receive_trace L .numbered fired visible now w r)) n
  obtain ⟨hstops, hgoes⟩ := receive_eq L.recorded fired visible now w r
  rw [hexpected, hdeadline] at hstops hgoes
  by_cases hp : (w.sighting L.recorded fired visible now r).Stops expected deadline
  · have hwait := hstops hp
    refine ⟨?_, ?_, ?_, ?_⟩
    · rw [hwait]
    · rw [hwait]
    · rw [hrecord, hcalls, hwait]
      simp [pending, sighting]
    · rw [hwait]
      exact ⟨_, polls, rfl, hp, hpolls, rfl, rfl⟩
  · obtain ⟨wake, -, hwait⟩ := hgoes hp
    refine ⟨?_, ?_, ?_, ?_⟩
    · rw [hwait]
    · rw [hwait]
    · rw [hrecord, hcalls, hwait]
      simp [pending, sighting]
    · rw [hwait]
      refine ⟨?_, _, polls, rfl, rfl⟩
      intro q hq
      rcases List.mem_cons.mp hq with rfl | hq
      · exact hp
      · exact hpolls q hq

/-- A poll that is made when no poll before has stopped the wait keeps the account sound. -/
theorem sound_of_poll
    (L : Link σ η) (fired : Recorded σ → Bool) {h : ℕ × η} (now : Instant) {w : Wait}
    {r : Recorded σ} {polls : List Sighting}
    (hexpected : w.expected = expected) (hdeadline : w.deadline = deadline)
    (hcalls : r.calls h.1 = before ++ asked polls)
    (hpolls : ∀ q ∈ polls, ¬ q.Stops expected deadline) :
    Sound expected deadline h.1 before
      { wait := (w.poll L.recorded fired h now r).1
        record := (w.poll L.recorded fired h now r).2
        polls := w.see L.recorded fired now (atOnce (L.recorded.poll h r)) polls } := by
  have hnow : (L.recorded.poll h r).2.calls h.1 =
      before ++ (asked polls ++ [.poll (L.recorded.poll h r).1.visible]) := by
    rw [Recorded.calls_of_adds (L.noted_poll .numbered h r), hcalls, if_pos rfl,
      List.append_assoc]
    rfl
  by_cases htakes : (L.recorded.poll h r).1.takes = 0
  · rw [poll_eq_receive htakes]
    simp only [atOnce, htakes, if_true, see]
    exact sound_of_receive hexpected hdeadline hnow hpolls
  · rw [poll_eq_polling htakes]
    simp only [atOnce, htakes, if_false, see]
    exact ⟨hexpected, hdeadline, hnow, hpolls⟩

/-- A wait that is cancelled in its sleep keeps the account sound: its last poll has then been
stopped by the token alone. -/
theorem sound_of_interrupt
    {n : ℕ} {w : Wait} {r : Recorded σ} {polls : List Sighting} {visible : NameSet}
    {wake : Instant}
    (hphase : w.phase = .sleeping visible wake)
    (hsound : Sound expected deadline n before ⟨w, r, polls⟩) :
    Sound expected deadline n before ⟨w.interrupt, r, watch true w.phase polls⟩ := by
  have hstanding := hsound.standing
  have hcalls := hsound.calls_eq
  simp only [hphase] at hstanding hcalls
  obtain ⟨hpolls, p, earlier, rfl, rfl⟩ := hstanding
  have hp : ¬ p.Stops expected deadline := hpolls p (by simp)
  simp only [Sighting.Stops, not_or] at hp
  obtain ⟨hall, hlate, -⟩ := hp
  refine ⟨?_, ?_, ?_, ?_⟩
  · simpa [interrupt, hphase] using hsound.expected_eq
  · simpa [interrupt, hphase] using hsound.deadline_eq
  · rw [hcalls]
    simp [interrupt, hphase, pending]
  · simp only [interrupt, hphase, watch, Bool.or_true]
    refine ⟨{ p with fired := true }, earlier, rfl, ?_, ?_, ?_, rfl⟩
    · exact Or.inr (Or.inr rfl)
    · intro q hq
      exact hpolls q (List.mem_cons_of_mem p hq)
    · simp [Sighting.outcome, hall, hlate]

theorem Sound.withBase {n : ℕ} (hsound : Sound expected deadline n before a) (s : σ) :
    Sound expected deadline n before { a with record := a.record.withBase s } :=
  ⟨hsound.expected_eq, hsound.deadline_eq, hsound.calls_eq, hsound.standing⟩

/-- A turn keeps an account sound. -/
theorem sound_turn (hsound : Sound expected deadline h.1 before a) (t : Turn σ) :
    Sound expected deadline h.1 before (a.turn L cancelled h t) := by
  have hcalls := hsound.calls_eq
  have hstanding := hsound.standing
  rcases turn_cases L cancelled h a t with
    ⟨hphase, hturn⟩ | ⟨visible, ready, hphase, hturn⟩ | ⟨visible, wake, hphase, hturn⟩ |
      ⟨-, hturn⟩
  · rw [hturn]
    have hasked : a.record.calls h.1 = before ++ asked a.polls := by
      rcases hphase with hphase | ⟨_, _, hphase, -⟩ <;>
        simpa only [hphase, pending, List.append_nil] using hcalls
    have hgoes : ∀ q ∈ a.polls, ¬ q.Stops expected deadline := by
      rcases hphase with hphase | ⟨_, _, hphase, -⟩
      · rwa [hphase] at hstanding
      · rw [hphase] at hstanding
        exact hstanding.1
    exact sound_of_poll L _ t.now hsound.expected_eq hsound.deadline_eq hasked hgoes
  · rw [hturn]
    rw [hphase] at hcalls hstanding
    exact sound_of_receive hsound.expected_eq hsound.deadline_eq hcalls hstanding
  · rw [hturn]
    exact sound_of_interrupt hphase (hsound.withBase t.world)
  · rw [hturn]
    exact hsound.withBase t.world

theorem sound_run
    (turns : List (Turn σ)) {a : Account σ}
    (hsound : Sound expected deadline h.1 before a) :
    Sound expected deadline h.1 before (a.run L cancelled h turns) := by
  induction turns generalizing a with
  | nil => exact hsound
  | cons t turns ih => exact ih (sound_turn hsound t)

/-! ## Progress -/

/-- Whether each turn comes when the wait is ready for it: not before the answer of its poll is
there, and not before its sleep is over. -/
def Timely (L : Link σ η) (cancelled : σ → Bool) (h : ℕ × η) :
    Account σ → List (Turn σ) → Prop
  | _, [] => True
  | a, t :: turns =>
    (∀ i, a.wait.next? = some i → i ≤ t.now) ∧ Timely L cancelled h (a.turn L cancelled h t) turns

/-- How far an account has come: two steps for each answered poll, one for a poll under way. -/
def stage (a : Account σ) : ℕ := 2 * a.polls.length + (pending a.wait.phase).length

theorem stage_le (a : Account σ) : a.stage ≤ 2 * a.polls.length + 1 := by
  unfold stage pending
  split <;> simp

theorem over_turn (hover : a.Over) (t : Turn σ) : (a.turn L cancelled h t).Over := by
  obtain ⟨outcome, visible, hphase⟩ := hover
  exact ⟨outcome, visible, by simp [turn, advance, hphase]⟩

theorem over_run (turns : List (Turn σ)) {a : Account σ} (hover : a.Over) :
    (a.run L cancelled h turns).Over := by
  induction turns generalizing a with
  | nil => exact hover
  | cons t turns ih => exact ih (over_turn hover t)

theorem stage_lt_of_poll
    (L : Link (Recorded σ) (ℕ × η)) (fired : Recorded σ → Bool) (h : ℕ × η) (now : Instant)
    (w : Wait) (r : Recorded σ) (polls : List Sighting) :
    2 * polls.length <
      stage
        { wait := (w.poll L fired h now r).1
          record := (w.poll L fired h now r).2
          polls := w.see L fired now (atOnce (L.poll h r)) polls } := by
  by_cases htakes : (L.poll h r).1.takes = 0
  · simp only [atOnce, htakes, if_true, see, stage, List.length_cons]
    omega
  · rw [poll_eq_polling htakes]
    simp [atOnce, htakes, see, stage, pending]

/-- A turn that comes when a wait is ready for it takes the wait further, or ends it. -/
theorem stage_lt_turn
    (L : Link σ η) (cancelled : σ → Bool) (h : ℕ × η) {a : Account σ} {t : Turn σ}
    (hopen : ¬ a.Over) (htimely : ∀ i, a.wait.next? = some i → i ≤ t.now) :
    a.stage < (a.turn L cancelled h t).stage ∨ (a.turn L cancelled h t).Over := by
  rcases turn_cases L cancelled h a t with
    ⟨hphase, hturn⟩ | ⟨visible, ready, hphase, hturn⟩ | ⟨visible, wake, hphase, hturn⟩ |
      ⟨hwaits, -⟩
  · left
    rw [hturn]
    have hmade := stage_lt_of_poll L.recorded (fun r => cancelled r.base) h t.now a.wait
      (a.record.withBase t.world) a.polls
    rcases hphase with hphase | ⟨_, _, hphase, -⟩ <;> simpa [stage, hphase, pending] using hmade
  · left
    rw [hturn]
    simp only [stage, hphase, pending, List.length_cons, List.length_nil]
    omega
  · right
    rw [hturn]
    exact ⟨.cancelled, visible, by simp [interrupt, hphase]⟩
  · exfalso
    rcases hwaits with hover | ⟨i, hnext, hlater⟩
    · exact hopen hover
    · exact absurd (htimely i hnext) (Nat.not_le_of_lt hlater)

/-- A wait that is given turns when it is ready for them goes on until it is over. -/
theorem stage_run
    (turns : List (Turn σ)) {a : Account σ} (htimely : a.Timely L cancelled h turns) :
    turns.length + a.stage ≤ (a.run L cancelled h turns).stage ∨
      (a.run L cancelled h turns).Over := by
  induction turns generalizing a with
  | nil => left; simp [run]
  | cons t turns ih =>
    obtain ⟨hready, hrest⟩ := htimely
    by_cases hover : a.Over
    · right
      exact over_run (t :: turns) hover
    · rcases stage_lt_turn L cancelled h hover hready with hlt | hend
      · rcases ih hrest with hle | hend
        · left
          simp only [run, List.foldl_cons, List.length_cons] at hle ⊢
          omega
        · right
          exact hend
      · right
        exact over_run turns hend

/-! ## The first poll that stops -/

/-- An account is over exactly when one of its polls stops. -/
theorem Sound.over_iff {n : ℕ} (hsound : Sound expected deadline n before a) :
    a.Over ↔ ∃ p ∈ a.polls, p.Stops expected deadline := by
  have hstanding := hsound.standing
  constructor
  · rintro ⟨outcome, visible, hphase⟩
    rw [hphase] at hstanding
    obtain ⟨p, earlier, hpolls, hp, -⟩ := hstanding
    exact ⟨p, by simp [hpolls], hp⟩
  · rintro ⟨p, hmem, hp⟩
    cases hphase : a.wait.phase with
    | ended outcome visible => exact ⟨outcome, visible, hphase⟩
    | sleeping visible wake =>
      rw [hphase] at hstanding
      exact absurd hp (hstanding.1 p hmem)
    | due =>
      rw [hphase] at hstanding
      exact absurd hp (hstanding p hmem)
    | polling visible ready =>
      rw [hphase] at hstanding
      exact absurd hp (hstanding p hmem)

/-- A poll that stops, and none before it does, is the last one, and decides how the wait ends. -/
theorem Sound.ended_of_stops
    {n : ℕ} (hsound : Sound expected deadline n before a)
    {later earlier : List Sighting} {p : Sighting} (hpolls : a.polls = later ++ p :: earlier)
    (hp : p.Stops expected deadline) :
    later = [] ∧ a.wait.phase = .ended (p.outcome expected deadline) p.visible ∧
      a.record.calls n = before ++ asked (p :: earlier) := by
  have hmem : p ∈ a.polls := by simp [hpolls]
  obtain ⟨outcome, visible, hphase⟩ := hsound.over_iff.mpr ⟨p, hmem, hp⟩
  have hstanding := hsound.standing
  rw [hphase] at hstanding
  obtain ⟨last, others, hlast, -, hothers, rfl, rfl⟩ := hstanding
  have hsplit : later ++ p :: earlier = last :: others := by rw [← hpolls, hlast]
  rcases List.append_eq_cons_iff.mp hsplit with ⟨rfl, hcons⟩ | ⟨rest, -, hrest⟩
  · obtain ⟨rfl, rfl⟩ := List.cons.inj hcons
    refine ⟨rfl, hphase, ?_⟩
    rw [hsound.calls_eq, hlast, hphase]
    simp [pending]
  · have hothers_p : p ∈ others := by simp [hrest]
    exact absurd hp (hothers p hothers_p)

end Account

end Wait

namespace Session

variable {σ η : Type}

/-- A session with a handle can begin a wait, and no turns take it out of what a poll loop for the
session's names until its deadline keeps true. -/
theorem begin_sound
    (L : Link σ η) (cancelled : σ → Bool) {x : Session (ℕ × η)} {h : ℕ × η}
    (hhandle : x.handle = some h) (start : Instant) (r : Recorded σ) :
    ∃ w r₀, x.begin L.recorded start r = .ok (w, r₀) ∧
      ∀ turns, Wait.Account.Sound x.expected (start.after x.timeout) h.1 (r.calls h.1)
        (Wait.Account.run L cancelled h ⟨w, r₀, []⟩ turns) := by
  obtain ⟨(r₀ : Recorded σ), hbegin, hadds⟩ := begin_adds (L := L) (c := .numbered) hhandle start r
  refine ⟨_, r₀, hbegin, ?_⟩
  intro turns
  apply Wait.Account.sound_run turns
  have hcalls : r₀.calls h.1 = r.calls h.1 := by
    simpa using Recorded.calls_of_adds hadds h.1
  refine ⟨rfl, rfl, ?_, ?_⟩
  · simpa [Wait.asked, Wait.pending, Wait.begin] using hcalls
  · simp [Wait.Standing, Wait.begin]

/-- A wait makes exactly the polls up to the first one that stops it, whatever they show, when
they are answered, and when the token fires. Its outcome is read off that poll, and so is what
the session keeps: that snapshot without its own name. Before such a poll the wait is not over,
and it polls on for as long as it is given turns that it is ready for. -/
theorem wait_ends_at_first_stop
    (L : Link σ η) (cancelled : σ → Bool) (x : Session (ℕ × η)) (h : ℕ × η)
    (hhandle : x.handle = some h) (start : Instant) (r : Recorded σ) :
    ∃ w r₀, x.begin L.recorded start r = .ok (w, r₀) ∧
      ∀ turns : List (Wait.Turn σ),
        let a := Wait.Account.run L cancelled h ⟨w, r₀, []⟩ turns
        let deadline := start.after x.timeout
        (∀ later p earlier, a.polls = later ++ p :: earlier → p.Stops x.expected deadline →
          later = [] ∧
            a.record.calls h.1 = r.calls h.1 ++ Wait.asked (p :: earlier) ∧
            a.wait.phase = .ended (p.outcome x.expected deadline) p.visible ∧
            let x' := (x.complete L.recorded (p.outcome x.expected deadline) p.visible a.record).1
            x'.foundNames = .ok (p.visible.erase x.identity.name) ∧
              x.identity.name ∉ p.visible.erase x.identity.name) ∧
        ((∀ p ∈ a.polls, ¬ p.Stops x.expected deadline) →
          ¬ a.Over ∧
            (Wait.Account.Timely L cancelled h ⟨w, r₀, []⟩ turns →
              turns.length ≤ 2 * a.polls.length + 1)) := by
  obtain ⟨w, r₀, hbegin, hruns⟩ := begin_sound L cancelled hhandle start r
  refine ⟨w, r₀, hbegin, ?_⟩
  intro turns a deadline
  have hsound : Wait.Account.Sound x.expected deadline h.1 (r.calls h.1) a := hruns turns
  constructor
  · intro later p earlier hpolls hp
    obtain ⟨hlater, hphase, hasked⟩ := hsound.ended_of_stops hpolls hp
    refine ⟨hlater, hasked, hphase, rfl, ?_⟩
    simp
  · intro hgoes
    have hopen : ¬ a.Over := by
      intro hover
      obtain ⟨p, hmem, hp⟩ := hsound.over_iff.mp hover
      exact hgoes p hmem hp
    refine ⟨hopen, ?_⟩
    intro htimely
    rcases Wait.Account.stage_run turns htimely with hle | hover
    · change turns.length + _ ≤ a.stage at hle
      have hstage : a.stage ≤ 2 * a.polls.length + 1 := a.stage_le
      omega
    · exact absurd hover hopen

/-- A wait for two names that come one after the other ends with the third poll. -/
theorem wait_ends_at_third_poll :
    let x : Session (ℕ × Registration) :=
      { identity := ⟨"me"⟩, expected := NameSet.ofList ["a", "b"],
        timeout := ⟨1000, by decide⟩, interval := ⟨100, by decide⟩,
        handle := some (0, ⟨"me", true⟩), found := none }
    let empty := Registry.empty.join "me"
    let turns : List (Wait.Turn Registry) :=
      [⟨⟨0⟩, empty⟩, ⟨⟨100⟩, empty.join "a"⟩, ⟨⟨200⟩, (empty.join "a").join "b"⟩]
    x.handle = some (0, ⟨"me", true⟩) ∧
      ∃ w r₀, x.begin Registry.transport.toLink.recorded ⟨0⟩ (Recorded.ofBase empty) =
          .ok (w, r₀) ∧
        (Wait.Account.run Registry.transport.toLink (fun _ => false) (0, ⟨"me", true⟩)
          ⟨w, r₀, []⟩ turns).wait.phase = .ended .found (NameSet.ofList ["a", "b", "me"]) := by
  intro x empty turns
  refine ⟨rfl, ?_⟩
  obtain ⟨w, r₀, hbegin, hruns⟩ := wait_ends_at_first_stop Registry.transport.toLink
    (fun _ => false) x (0, ⟨"me", true⟩) rfl ⟨0⟩ (Recorded.ofBase empty)
  refine ⟨w, r₀, hbegin, ?_⟩
  cases hbegin
  obtain ⟨hstops, -⟩ := hruns turns
  obtain ⟨-, -, hphase, -⟩ := hstops [] _ _ rfl (Or.inl (by decide))
  exact hphase

end Session

end RollCall
