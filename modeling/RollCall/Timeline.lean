import RollCall.Duration

/-!
# Virtual time

Time in a world moves only when nothing can happen any more, and then to the next instant at which
something can. At each instant the events that are due come first, then the process goes on as far
as it can. If it has ended, time stands still; else, if its limit is reached, it is abandoned;
else the world settles what waits for the process to be suspended. Then the process has a second
turn, in which it notices what it has set off itself, and time moves on.

A run ends, because every round is later than the one before and none is later than the horizon.

Main statement: `run_invariant` (what every event, turn and move of the clock keeps true).
-/

namespace RollCall

/-- How time and outside events act on a world. -/
structure Timeline (σ ε : Type) where
  moveTo : Instant → σ → σ
  /-- The instant at which a sleep until an instant ends. -/
  wakeAt : Instant → Instant
  apply : ε → σ → σ
  /-- What happens as soon as the process is suspended. -/
  settle : Instant → σ → σ
  /-- The next instant at which settling has an effect of its own. -/
  nextDue? : σ → Option Instant

/-- A process that acts on a world until it has a result. -/
structure Process (σ α ρ : Type) where
  advance : Instant → α → σ → α × σ
  result? : α → Option ρ
  /-- The instant until which nothing happens of itself. -/
  next? : α → Option Instant

namespace Timeline

variable {σ ε α ρ : Type}

def earlier : Option Instant → Option Instant → Option Instant
  | none, t => t
  | t, none => t
  | some s, some t => some (min s t)

/-- Applies the events that are due, and gives those that are not. -/
def applyDue (T : Timeline σ ε) (now : Instant) : List (Instant × ε) → σ → List (Instant × ε) × σ
  | [], s => ([], s)
  | (t, e) :: rest, s => if t ≤ now then applyDue T now rest (T.apply e s) else ((t, e) :: rest, s)

/-- How a run ended, and when. -/
inductive RunEnd (α ρ : Type)
  | finished (result : ρ) (time : Instant)
  | abandoned (process : α) (time : Instant)

/-- Runs a process from an instant on. The events are in the order of their instants. Nothing
happens after the horizon. -/
def run (T : Timeline σ ε) (P : Process σ α ρ) (horizon : Instant) (limit : Option Instant)
    (now : Instant) (events : List (Instant × ε)) (a : α) (s : σ) : RunEnd α ρ × σ :=
  let (events, s) := T.applyDue now events s
  let (a, s) := P.advance now a s
  match P.result? a with
  | some result => (.finished result now, s)
  | none =>
    if limit.any (· ≤ now) then (.abandoned a now, s)
    else
      let (a, s) := P.advance now a (T.settle now s)
      match P.result? a with
      | some result => (.finished result now, s)
      | none =>
        let wake := (P.next? a).map T.wakeAt
        let due := (T.nextDue? s).map T.wakeAt
        match earlier (earlier wake due) (earlier limit (events.head?.map (·.1))) with
        | none => (.abandoned a now, s)
        | some next =>
          if now < next ∧ next ≤ horizon then
            run T P horizon limit next events a (T.moveTo next s)
          else (.abandoned a now, s)
termination_by horizon.nanos - now.nanos
decreasing_by
  rename_i h
  simp only [Instant.lt_def, Instant.le_def] at h
  omega

/-- At the end of a run something holds of the process, with its result or as it was abandoned. -/
def RunEnd.Holds (P : Process σ α ρ) (I : Instant → α → σ → Prop) (s : σ) : RunEnd α ρ → Prop
  | .finished result time => ∃ a, P.result? a = some result ∧ I time a s
  | .abandoned a time => I time a s

section Invariant

variable {T : Timeline σ ε} {P : Process σ α ρ} {I : Instant → α → σ → Prop}

theorem applyDue_invariant {J : σ → Prop} (happly : ∀ {s} e, J s → J (T.apply e s)) (now : Instant)
    (events : List (Instant × ε)) {s : σ} (h : J s) : J (T.applyDue now events s).2 := by
  induction events generalizing s with
  | nil => exact h
  | cons event rest ih =>
    simp only [applyDue]
    split
    · exact ih (happly event.2 h)
    · exact h

/-- What every event, every turn, every settling and every move of the clock keeps true is true at
the end of a run. -/
theorem run_invariant
    (happly : ∀ {now a s} e, I now a s → I now a (T.apply e s))
    (hadvance : ∀ {now a s}, I now a s → I now (P.advance now a s).1 (P.advance now a s).2)
    (hsettle : ∀ {now a s}, I now a s → I now a (T.settle now s))
    (hmove : ∀ {now next a s}, now < next → I now a s → I next a (T.moveTo next s))
    (horizon : Instant) (limit : Option Instant) (now : Instant) (events : List (Instant × ε))
    {a : α} {s : σ} (h : I now a s) :
    let out := T.run P horizon limit now events a s
    out.1.Holds P I out.2 := by
  generalize hleft : horizon.nanos - now.nanos = left
  induction left using Nat.strongRecOn generalizing now events a s with
  | ind left ih =>
    have hturn := hadvance (applyDue_invariant (J := I now a) happly now events h)
    rw [run]
    simp only
    split
    · rename_i result hresult
      exact ⟨_, hresult, hturn⟩
    · split
      · exact hturn
      · have hsecond := hadvance (hsettle hturn)
        split
        · rename_i result hresult
          exact ⟨_, hresult, hsecond⟩
        · split
          · exact hsecond
          · rename_i next _
            split
            · rename_i hnext
              have hlt : now.nanos < next.nanos := hnext.1
              have hle : next.nanos ≤ horizon.nanos := hnext.2
              exact ih _ (by omega) next _ (hmove hnext.1 hsecond) rfl
            · exact hsecond

end Invariant

end Timeline

end RollCall
