import RollCall.Transport

/-!
# One wait

A wait polls until every expected name is visible, its deadline has come, or it is cancelled. It
moves through phases: a poll is due, a poll is under way, the wait sleeps with its last snapshot,
the wait has ended. What a snapshot means is decided in one place, `verdict`: success comes before
the deadline, and only a wait that would otherwise sleep can be cancelled.

Main statements: `verdict_found_iff` and `verdict_timedOut_iff`, `verdict_wake` (a sleep ends
after now and not after the deadline).
-/

namespace RollCall

inductive Outcome
  | found
  | timedOut
  | cancelled
  deriving DecidableEq

/-- Where a wait stands. -/
inductive Phase
  | due
  /-- A poll is under way, and its answer is there at an instant. -/
  | polling (visible : NameSet) (ready : Instant)
  /-- The last poll did not end the wait; the next one is made at an instant. -/
  | sleeping (visible : NameSet) (wake : Instant)
  /-- The wait has ended with the last snapshot. -/
  | ended (outcome : Outcome) (visible : NameSet)

structure Wait where
  expected : NameSet
  /-- The time between the end of a poll and the next one. -/
  interval : Duration
  deadline : Instant
  phase : Phase

namespace Wait

/-- What a snapshot means. -/
inductive Verdict
  | found
  | timedOut
  /-- The next poll is to be made at an instant. -/
  | again (wake : Instant)
  deriving DecidableEq

/-- Success if everything is visible, else failure if the deadline has come, else another poll
after the interval, or at the deadline if that is sooner. -/
def verdict (w : Wait) (visible : NameSet) (now : Instant) : Verdict :=
  if w.expected ⊆ visible then .found
  else if w.deadline ≤ now then .timedOut
  else .again (min (now.after w.interval) w.deadline)

theorem verdict_found_iff {w : Wait} {visible : NameSet} {now : Instant} :
    w.verdict visible now = .found ↔ w.expected ⊆ visible := by
  unfold verdict
  split
  · simp_all
  · split <;> simp_all

theorem verdict_timedOut_iff {w : Wait} {visible : NameSet} {now : Instant} :
    w.verdict visible now = .timedOut ↔ ¬ w.expected ⊆ visible ∧ w.deadline ≤ now := by
  unfold verdict
  split
  · simp_all
  · split <;> simp_all

/-- A sleep ends after now and not after the deadline. -/
theorem verdict_wake {w : Wait} {visible : NameSet} {now wake : Instant}
    (h : w.verdict visible now = .again wake) (hp : 0 < w.interval.nanos) :
    now < wake ∧ wake ≤ w.deadline := by
  unfold verdict at h
  split at h
  · cases h
  · split at h
    · cases h
    · rename_i hd
      cases h
      have hlt : now < now.after w.interval := Instant.lt_after hp
      simp only [Instant.lt_def, Instant.le_def] at hlt hd ⊢
      simp only [min]
      split
      · rename_i hle
        exact ⟨hlt, hle⟩
      · exact ⟨by omega, Nat.le_refl _⟩

def begin (expected : NameSet) (timeout interval : Duration) (now : Instant) : Wait where
  expected := expected
  interval := interval
  deadline := now.after timeout
  phase := .due

/-- The answer of a poll has come. -/
def observe (w : Wait) (visible : NameSet) (now : Instant) : Wait :=
  { w with
    phase :=
      match w.verdict visible now with
      | .found => .ended .found visible
      | .timedOut => .ended .timedOut visible
      | .again wake => .sleeping visible wake }

/-- The wait is cancelled. Only a wait that sleeps notices that. -/
def interrupt (w : Wait) : Wait :=
  match w.phase with
  | .sleeping visible _ => { w with phase := .ended .cancelled visible }
  | _ => w

variable {σ η : Type}

/-- The answer of a poll has come, and the wait goes on to its end or to sleep. It does not sleep
if it is cancelled already. -/
def receive (L : Link σ η) (cancelled : σ → Bool) (visible : NameSet) (now : Instant)
    (w : Wait) (s : σ) : Wait × σ :=
  let w := w.observe visible now
  match w.phase with
  | .sleeping visible _ =>
    let s := L.tell (.progress (w.expected.common visible) w.expected.size) s
    (if cancelled s then w.interrupt else w, s)
  | _ => (w, s)

/-- Makes a poll; if the answer takes no time, it is received at once. -/
def poll (L : Link σ η) (cancelled : σ → Bool) (handle : η) (now : Instant) (w : Wait)
    (s : σ) : Wait × σ :=
  let (reply, s) := L.poll handle s
  if reply.takes = 0 then receive L cancelled reply.visible now w s
  else ({ w with phase := .polling reply.visible (now.afterMillis reply.takes) }, s)

/-- Goes on as far as it is possible at an instant. The end of a sleep and a cancellation at the
same instant is a cancellation. -/
def advance (L : Link σ η) (cancelled : σ → Bool) (handle : η) (now : Instant) (w : Wait)
    (s : σ) : Wait × σ :=
  match w.phase with
  | .due => poll L cancelled handle now w s
  | .polling visible ready =>
    if ready ≤ now then receive L cancelled visible now w s else (w, s)
  | .sleeping _ wake =>
    if cancelled s then (w.interrupt, s)
    else if wake ≤ now then poll L cancelled handle now w s
    else (w, s)
  | .ended _ _ => (w, s)

/-- The instant until which nothing happens of itself. -/
def next? (w : Wait) : Option Instant :=
  match w.phase with
  | .polling _ ready => some ready
  | .sleeping _ wake => some wake
  | _ => none

end Wait

end RollCall
