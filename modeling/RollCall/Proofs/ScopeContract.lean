import RollCall.Proofs.PollLoop
import RollCall.Scope

/-!
# The contract of a scope

A scope is compared with the wait of its session, given the same turns. As long as the wait goes
on the scope waits, and nothing but polls has happened. If the wait ends without success the
handle is released and the scope is left with the names that are missing. If it ends with success
the body is entered once, and the handle is released after the body has come to an end, with whose
value the scope is left.
-/

namespace RollCall

open Chronicle

namespace Traced

variable {σ ε : Type}

end Traced

variable {σ η β κ ρ : Type}

def Body.traced (body : Body σ η β κ ρ) : Body (Traced σ (BodyEnd κ ρ)) η β κ ρ where
  enter x now r :=
    let (b, s) := body.enter x now r.base
    (b, r.note .entered s)
  resume x now b r :=
    match body.resume x now b r.base with
    | (.inl b, s) => (.inl b, r.note .suspended s)
    | (.inr how, s) => (.inr how, r.note (.ended how) s)
  next? := body.next?

/-- What a scope comes to when its body ends: the body's value or breakdown, as it is. -/
def BodyEnd.result : BodyEnd κ ρ → ScopeResult κ ρ
  | returned value => .returned value
  | brokeDown cause => .brokeDown cause

namespace Scope

/-- Where a scope stands, and what has happened to its handle, by the phase of the wait of its
session `x`, in which the snapshots `shown` have been shown. -/
inductive Contract (x : Session η) (shown : List NameSet) (w : Wait) :
    Scope η β κ ρ → List (Happening (BodyEnd κ ρ)) → Prop
  /-- The wait goes on, and no body has been entered. -/
  | waiting (hopen : ∀ outcome visible, w.phase ≠ .ended outcome visible) :
      Contract x shown w (.waiting x w) (.created :: shown.map .polled)
  /-- The time was over: the expected names that the last snapshot, without the session's own
  name, does not have are missing. -/
  | timedOut {visible : NameSet} (hphase : w.phase = .ended .timedOut visible) :
      Contract x shown w
        (.left (.failed (.timeout (x.expected.diff (visible.erase x.identity.name)))))
        (.created :: shown.map .polled ++ [.released])
  | cancelled {visible : NameSet} (hphase : w.phase = .ended .cancelled visible) :
      Contract x shown w
        (.left (.failed (.cancelled (x.expected.diff (visible.erase x.identity.name)))))
        (.created :: shown.map .polled ++ [.released])
  /-- Everything was found, and the body has been entered once and is under way. -/
  | inside {visible : NameSet} (hphase : w.phase = .ended .found visible) (b : β) (n : ℕ) :
      Contract x shown w (.inside (x.keep visible) b)
        (.created :: shown.map .polled ++ .entered :: List.replicate n .suspended)
  /-- Everything was found, and the body has been entered once and has ended. -/
  | left {visible : NameSet} (hphase : w.phase = .ended .found visible) (how : BodyEnd κ ρ)
      (n : ℕ) :
      Contract x shown w (.left how.result)
        (.created :: shown.map .polled ++
          .entered :: (List.replicate n .suspended ++ [.ended how, .released]))

/-! ## The parts of a scope -/

variable {T : Transport σ η} {x : Session η} {h : η} {r : Traced σ (BodyEnd κ ρ)}

variable {shown : List NameSet} {w : Wait}

/-- How a scope stands to the wait of its session: it keeps the contract, and as long as the wait
goes on both see the same world. -/
structure Keeps (x : Session η) (wait : Wait × Traced σ (BodyEnd κ ρ))
    (scope : Scope η β κ ρ × Traced σ (BodyEnd κ ρ)) : Prop where
  contract : ∃ shown, shown.getLast? = wait.1.phase.visible? ∧
    Contract x shown wait.1 scope.1 scope.2.trace
  together : (∀ outcome visible, wait.1.phase ≠ .ended outcome visible) → scope.2 = wait.2

end Scope

end RollCall
