import RollCall.Duration
import RollCall.Identity
import RollCall.Log
import RollCall.Registry

/-!
# Transports

What a session needs of the world around it: a handle registered under its identity, polls of the
names that the handle sees, the release of the handle, and a place to tell what happens. The world
is a state that each of these changes. A registry is such a world by itself, with registrations
as its handles.
-/

namespace RollCall

/-- What a poll gives: the visible names, and the milliseconds until they are there. -/
structure Reply where
  visible : NameSet
  takes : Nat := 0

/-- What handles `η` give access to in a world `σ`. -/
structure Link (σ η : Type) where
  poll : η → σ → Reply × σ
  release : η → σ → σ
  tell : Entry → σ → σ

/-- Access to a membership source: handles can be had, and used. -/
structure Transport (σ η : Type) extends Link σ η where
  /-- A handle registered under an identity, or the reason why there is none. A refusal changes
  nothing. -/
  register : Identity → σ → Except String (η × σ)

namespace Registry

/-- A registry as a world of its own, which is told nothing. A poll takes no time. -/
def transport : Transport Registry Registration where
  register identity r := Registration.create identity.name r
  poll _ r := (⟨r.names, 0⟩, r)
  release g r := (g.destroy r).2
  tell _ r := r

end Registry

end RollCall
