import RollCall.Proofs.Trace
import RollCall.Scope

/-!
# What becomes of the handle of a scope

Whatever a scope does, it either still holds its handle, and has only polled with it, or it has
been left, and the release was the last call that its handle received. `Custody` says this of
one operation, and the facts below prove it for each operation that a scope is made of.
-/

namespace RollCall

variable {σ η β κ ρ : Type}

open Chronicle

/-- What becomes of a handle from one record to a later one: it is `held` still, and has been
polled with, or whoever held it is `gone`, and has released it after the last poll. -/
inductive Custody (h : ℕ × η) (r r' : Recorded σ) : (held : Option (ℕ × η)) → (gone : Bool) → Prop
  | held (shown : List NameSet) (hadds : Adds .numbered h (shown.map .polled) r r') :
      Custody h r r' (some h) false
  | released (shown : List NameSet)
      (hadds : Adds .numbered h (shown.map .polled ++ [.released]) r r') :
      Custody h r r' none true

namespace Custody

variable {h : ℕ × η} {r r' r'' : Recorded σ} {held : Option (ℕ × η)} {gone : Bool}

theorem of_nil (hadds : Adds .numbered h [] r r') : Custody h r r' (some h) false :=
  .held [] hadds

theorem of_release (hadds : Adds .numbered h [.released] r r') : Custody h r r' none true :=
  .released [] hadds

theorem elsewhere (hcustody : Custody h r r' held gone) :
    r'.created = r.created ∧ ∀ m, m ≠ h.1 → r'.calls m = r.calls m := by
  rcases hcustody with ⟨shown, hadds⟩ | ⟨shown, hadds⟩ <;>
    refine ⟨?_, fun m hm => by simp [Recorded.calls_of_adds hadds, hm]⟩ <;>
    simp [Recorded.created_of_adds hadds, List.count_eq_zero]

theorem after_polls {shown : List NameSet} (hpolls : Adds .numbered h (shown.map .polled) r r')
    (hcustody : Custody h r' r'' held gone) : Custody h r r'' held gone := by
  rcases hcustody with ⟨later, hadds⟩ | ⟨later, hadds⟩
  · refine .held (shown ++ later) ?_
    rw [List.map_append]
    exact hpolls.trans hadds
  · refine .released (shown ++ later) ?_
    rw [List.map_append, List.append_assoc]
    exact hpolls.trans hadds

theorem after_nil (hnil : Adds .numbered h [] r r') (hcustody : Custody h r' r'' held gone) :
    Custody h r r'' held gone := by
  have hpolls : Adds .numbered h (([] : List NameSet).map .polled) r r' := hnil
  exact after_polls hpolls hcustody

end Custody

/-- A body that acts on the world under the record. It is shown the session, and can read what
the session keeps, but has no handle to call. -/
def Body.recorded (body : Body σ (ℕ × η) β κ ρ) : Body (Recorded σ) (ℕ × η) β κ ρ where
  enter x now r :=
    let (b, s) := body.enter x now r.base
    (b, r.withBase s)
  resume x now b r :=
    let (next, s) := body.resume x now b r.base
    (next, r.withBase s)
  next? := body.next?

namespace Scope

def handle? : Scope η β κ ρ → Option η
  | .waiting session _ => session.handle
  | .inside session _ => session.handle
  | .left _ => none

def isLeft (scope : Scope η β κ ρ) : Bool := scope.result?.isSome

variable (T : Transport σ η) {x : Session (ℕ × η)} {h : ℕ × η}

/-- A scope that shuts its session down has released the handle. -/
theorem leave_custody (hhandle : x.handle = some h) (result : ScopeResult κ ρ) (r : Recorded σ) :
    let out := leave (β := β) T.recorded x result r
    Custody h r out.2 out.1.handle? out.1.isLeft := by
  obtain ⟨r', hleave, hadds⟩ := leave_adds (β := β) (T := T) (c := .numbered) hhandle result r
  rw [hleave]
  exact Custody.of_release hadds

theorem drop_custody (hhandle : x.handle = some h) (result : ScopeResult κ ρ) (r : Recorded σ) :
    Custody h r (x.drop T.toLink.recorded r) (left (β := β) (η := ℕ × η) result).handle?
      (left (β := β) (η := ℕ × η) result).isLeft :=
  Custody.of_release (Session.drop_adds hhandle r)

theorem resume_custody (body : Body σ (ℕ × η) β κ ρ) (hhandle : x.handle = some h) (now : Instant)
    (b : β) (r : Recorded σ) :
    let out := resume T.recorded body.recorded x now b r
    Custody h r out.2 out.1.handle? out.1.isLeft := by
  have hbody : Adds .numbered h [] r (body.recorded.resume x now b r).2 :=
    Adds.withBase .numbered h r _
  unfold resume
  split <;> rename_i hresume <;> rw [hresume] at hbody
  · simp only [handle?, hhandle]
    exact Custody.of_nil hbody
  · exact Custody.after_nil hbody (leave_custody T hhandle _ _)
  · exact Custody.after_nil hbody (drop_custody T hhandle _ _)

theorem leaveUnfound_custody (hhandle : x.handle = some h) (error : NameSet → WaitFailure)
    (r : Recorded σ) :
    let out := leaveUnfound (β := β) (κ := κ) (ρ := ρ) T.recorded x error r
    Custody h r out.2 out.1.handle? out.1.isLeft := by
  unfold leaveUnfound
  split
  · exact drop_custody T hhandle _ r
  · exact leave_custody T hhandle _ r

theorem afterWait_custody (body : Body σ (ℕ × η) β κ ρ) (hhandle : x.handle = some h)
    (outcome : Outcome) (now : Instant) (r : Recorded σ) :
    let out := afterWait T.recorded body.recorded x outcome now r
    Custody h r out.2 out.1.handle? out.1.isLeft := by
  rcases outcome with _ | _ | _
  · have hbody : Adds .numbered h [] r (body.recorded.enter x now r).2 :=
      Adds.withBase .numbered h r _
    exact Custody.after_nil hbody (resume_custody T body hhandle now _ _)
  · exact leaveUnfound_custody T hhandle _ r
  · exact leaveUnfound_custody T hhandle _ r

/-- A turn of a scope that holds a handle makes polls with it, and releases it if the scope is
left. -/
theorem advance_custody (cancelled : Recorded σ → Bool) (body : Body σ (ℕ × η) β κ ρ)
    (now : Instant) {scope : Scope (ℕ × η) β κ ρ} (hheld : scope.handle? = some h)
    (r : Recorded σ) :
    let out := scope.advance T.recorded cancelled body.recorded now r
    Custody h r out.2 out.1.handle? out.1.isLeft := by
  rcases scope with ⟨x, w⟩ | ⟨x, b⟩ | result
  · have hhandle : x.handle = some h := hheld
    obtain ⟨shown, hpolls, -⟩ := w.advance_adds T.toLink .numbered cancelled h now r
    rcases hout : w.advance T.toLink.recorded cancelled h now r with ⟨w', r'⟩
    rw [hout] at hpolls
    rcases Session.turn_cases x hout with ⟨outcome, visible, -, hturn⟩ | ⟨-, hturn⟩
    · have hend : Adds .numbered h [] r' (x.complete T.toLink.recorded outcome visible r').2 :=
        Session.complete_adds outcome visible r'
      have hkept : (x.complete T.toLink.recorded outcome visible r').1.handle = some h := hhandle
      have hafter := afterWait_custody T body hkept outcome now
        (x.complete T.toLink.recorded outcome visible r').2
      have hscope : (waiting x w).advance T.recorded cancelled body.recorded now r =
          afterWait T.recorded body.recorded (x.complete T.toLink.recorded outcome visible r').1
            outcome now (x.complete T.toLink.recorded outcome visible r').2 := by
        simp only [advance, hhandle, Transport.noted_toLink, hturn]
      rw [hscope]
      exact Custody.after_polls hpolls (Custody.after_nil hend hafter)
    · have hscope : (waiting x w).advance T.recorded cancelled body.recorded now r =
          (waiting x w', r') := by
        simp only [advance, hhandle, Transport.noted_toLink, hturn]
      rw [hscope]
      simp only [handle?, hhandle]
      exact .held shown hpolls
  · exact resume_custody T body hheld now b r
  · cases hheld

theorem abandon_adds {scope : Scope (ℕ × η) β κ ρ} (hheld : scope.handle? = some h)
    (r : Recorded σ) : Adds .numbered h [.released] r (scope.abandon T.recorded r) := by
  rcases scope with ⟨x, w⟩ | ⟨x, b⟩ | result
  · exact Session.drop_adds hheld r
  · exact Session.drop_adds hheld r
  · cases hheld

/-- A scope that cannot connect a session changes nothing and holds nothing. -/
theorem enter_of_connect_error {expected : List String} {settings : Settings}
    {identity : Identity} {r : Recorded σ} {e : WaitFailure} (now : Instant)
    (hconnect : Session.connect T.recorded expected settings identity r = .error e) :
    enter (β := β) (κ := κ) (ρ := ρ) T.recorded expected settings identity now r =
      (.left (.failed e), r) := by
  simp only [enter, hconnect]

/-- A scope that could connect a session holds the handle that was created for it. -/
theorem enter_of_connect_ok {expected : List String} {settings : Settings}
    {identity : Identity} {r r' : Recorded σ} (now : Instant)
    (hconnect : Session.connect T.recorded expected settings identity r = .ok (x, r')) :
    ∃ handle : η,
      let out := enter (β := β) (κ := κ) (ρ := ρ) T.recorded expected settings identity now r
      Custody (r.created, handle) r' out.2 out.1.handle? out.1.isLeft := by
  obtain ⟨⟨handle, hhandle⟩, -, -⟩ := Session.connect_recorded hconnect
  obtain ⟨r₀, hbegin, hadds⟩ := Session.begin_adds (L := T.toLink) (c := .numbered) hhandle now r'
  refine ⟨handle, ?_⟩
  simp only [enter, hconnect, Transport.noted_toLink, hbegin, handle?, hhandle]
  exact Custody.of_nil hadds

end Scope

end RollCall
