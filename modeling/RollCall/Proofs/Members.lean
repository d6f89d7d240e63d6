import RollCall.Proofs.Effects
import RollCall.Proofs.Gathering

/-!
# The handles of one registry of a scenario

A session of a scenario whose handle is registered in some registry, and a handle of that registry
that somebody has in hand, do there what a member of a `Gathering` does on that registry by a few
deeds. A wait may notice that its token has fired; it ends then, so a member that is asked to
cancel its wait does the same.

Main statements: `deal_begin`, `deal_resume`, `deal_close` and `deal_drop` for sessions,
`deal_destroy` and `deal_forget` for handles.
-/

namespace RollCall

/-! ## Several deeds of one member -/

namespace Gathering

def Member.deal (now : Instant) (deeds : List Deed) (m : Member) (g : Registry) :
    Member × Registry :=
  deeds.foldl (fun s deed => (s.1.act now deed s.2).2) (m, g)

theorem run_deal (y : Gathering) (k : ℕ) (deeds : List Deed) :
    y.run (deeds.map (.act k)) =
      { y with
        registry := ((y.members k).deal y.now deeds y.registry).2
        members := Function.update y.members k ((y.members k).deal y.now deeds y.registry).1 } := by
  induction deeds generalizing y with
  | nil => simp [run, Member.deal]
  | cons deed deeds ih =>
    have hrest := ih (y.step (.act k deed)).2
    simp only [step, Function.update_self, Function.update_idem] at hrest
    exact hrest

/-- What a member has in hand, as it is seen by those who do not look at its token: once no wait is
under way, it does not matter whether that has fired. -/
inductive Role.Shows : Role → Role → Prop
  | same (role : Role) : Shows role role
  | rested (x : Session Registration) (fired : Bool) :
      Shows (.session x none fired) (.session x none false)

theorem Role.Shows.claim_eq {role shown : Role} (h : role.Shows shown) :
    role.claim = shown.claim := by
  cases h with
  | same => rfl
  | rested => rfl

theorem Role.Shows.handle {role : Role} {g : Registration} (h : role.Shows (.handle g)) :
    role = .handle g := by
  cases h
  rfl

theorem Role.Shows.session {role : Role} {x : Session Registration} {wait : Option Wait}
    (h : role.Shows (.session x wait false)) :
    ∃ fired, role = .session x wait fired ∧ (fired = true → wait = none) := by
  cases h with
  | same => exact ⟨false, rfl, nofun⟩
  | rested _ fired => exact ⟨fired, rfl, fun _ => rfl⟩

end Gathering

namespace Scenario

open World Gathering

variable {i : ℕ} {w w' : World}

/-! ## The link of one registry -/

/-- A world that has a registry with this number. -/
abbrev WorldWith (i : ℕ) := { w : World // i < w.registries.length }

/-- The handles of one registry, with the trace of each. -/
def membersOf (i : ℕ) : Link (Traced (WorldWith i) Empty) Registration :=
  Link.traced
    { poll := fun _ w => (⟨(w.1.registry i).names, 0⟩, w)
      release := fun g w =>
        ⟨w.1.setRegistry i (g.destroy (w.1.registry i)).2, by simpa [setRegistry] using w.2⟩
      tell := fun e w => ⟨w.1.tell e, w.2⟩ }

/-- They do in the world what any handles do. -/
theorem membersOf_mirrors_link (i : ℕ) :
    (membersOf i).Mirrors World.link (fun r => r.base.1) (Handle.member i) :=
  ⟨fun _ _ => rfl, fun _ _ => rfl, fun _ _ => rfl⟩

/-- They do in their registry what they do when there is nothing else. -/
theorem membersOf_mirrors_registry (i : ℕ) :
    (membersOf i).Mirrors Registry.traced.toLink (fun r => ⟨r.base.1.registry i, r.trace⟩) id where
  poll _ _ := rfl
  release g r := by
    have hreleased := registry_setRegistry r.base.2 (g.destroy (r.base.1.registry i)).2
    exact congrArg (Chronicle.mk · (r.trace ++ [.released])) hreleased.symm
  tell _ _ := rfl

/-- As long as none is released, only the journal changes. -/
theorem membersOf_within (i : ℕ) :
    (membersOf i).Within fun r r' => ∃ journal, r'.base.1 = { r.base.1 with journal } where
  refl r := ⟨r.base.1.journal, rfl⟩
  trans := by
    rintro _ _ _ ⟨_, h⟩ ⟨journal, h'⟩
    exact ⟨journal, by rw [h', h]⟩
  poll _ r := ⟨r.base.1.journal, rfl⟩
  tell e r := ⟨e :: r.base.1.journal, rfl⟩

/-! ## Sessions -/

section Session

variable {x : Session Registration} {g : Registration} {m : Member} {wait : Option Wait}

/-- A turn of a session on a registry is a turn of a member there, whose token has fired if that
of the wait has. -/
theorem turn_member (hi : i < w.registries.length) {token : Option String} {wait : Wait}
    {progress : Session.Progress} {y : Session Handle}
    (hturn : (x.map (Handle.member i)).turn link (cancelled token) (.member i g) w.now wait w =
      (progress, y, w')) (trace : List (Happening Empty)) :
    Aside w w' ∧ ∃ x' trace', y = x'.map (Handle.member i) ∧
      x.turn Registry.traced.toLink (fun _ => cancelled token w) g w.now wait
        ⟨w.registry i, trace⟩ = (progress, x', ⟨w.registry i, trace'⟩) := by
  let r : Traced (WorldWith i) Empty := ⟨⟨w, hi⟩, trace⟩
  have hworld := Session.turn_mirrors (membersOf_mirrors_link i) x r (cancelled token) g w.now wait
  have hwithin := Session.turn_within (membersOf_within i) x r (fun r => cancelled token r.base.1) g
    w.now wait
  have hconstant : x.turn (membersOf i) (fun r => cancelled token r.base.1) g w.now wait r =
      x.turn (membersOf i) (fun _ => cancelled token w) g w.now wait r := by
    refine Session.turn_congr (membersOf_within i) ?_ x wait g w.now
    rintro r' ⟨journal, hr'⟩
    rw [hr']
    rfl
  have hregistry := Session.turn_mirrors (membersOf_mirrors_registry i) x r
    (fun _ => cancelled token w) g w.now wait
  rw [hconstant] at hworld hwithin
  rcases hsame : x.turn (membersOf i) (fun _ => cancelled token w) g w.now wait r with
    ⟨progress', x', r'⟩
  rw [hsame] at hworld hwithin hregistry
  cases hturn.symm.trans hworld
  obtain ⟨journal, hjournal⟩ := hwithin
  have haside : Aside w r'.base.1 := by
    rw [show r'.base.1 = { w with journal } from hjournal]
    exact aside_rest w _ _ _ _ _ _ journal
  simp only [Session.map_id, haside.registry i] at hregistry
  exact ⟨haside, x', r'.trace, rfl, hregistry⟩

theorem deal_begin
    (hhandle : x.handle = some g) (hm : m.role.Shows (.session x wait false)) {next : Wait}
    (hbegin : (x.map (Handle.member i)).begin link w.now w = .ok (next, w')) (r : Registry) :
    ∃ deeds m', m.deal w.now deeds r = (m', r) ∧ m'.role.Shows (.session x (some next) false) := by
  obtain ⟨role, trace⟩ := m
  obtain ⟨fired, rfl, -⟩ := hm.session
  obtain ⟨-, rfl, -⟩ := Session.begin_eq_ok_iff.mp hbegin
  refine ⟨[.begin false], ⟨.session x _ false, trace⟩, ?_, .same _⟩
  simp only [Member.deal, List.foldl_cons, List.foldl_nil, Member.act, Role.act, actSession,
    Session.begin_registry hhandle]
  rfl

theorem deal_resume
    (hi : i < w.registries.length) (hhandle : x.handle = some g) {wait : Wait}
    (hm : m.role.Shows (.session x (some wait) false)) {token : Option String}
    {progress : Session.Progress} {x' : Session Registration}
    (hturn : (x.map (Handle.member i)).turn link (cancelled token) (.member i g) w.now wait w =
      (progress, x'.map (Handle.member i), w')) :
    ∃ deeds m', m.deal w.now deeds (w.registry i) = (m', w.registry i) ∧
      m'.role.Shows (.session x' progress.wait? false) := by
  obtain ⟨role, trace⟩ := m
  obtain ⟨fired, rfl, hfired⟩ := hm.session
  obtain rfl : fired = false := by simpa using hfired
  obtain ⟨-, x₁, trace', hx₁, hregistry⟩ := turn_member hi hturn trace
  obtain rfl : x' = x₁ := Session.map_injective (fun _ _ => (Handle.member.inj · |>.2)) hx₁
  have hresume (fired : Bool) (hsame : x.turn Registry.traced.toLink (fun _ => fired) g w.now wait
      ⟨w.registry i, trace⟩ = (progress, x', ⟨w.registry i, trace'⟩)) :
      (Member.act w.now .resume ⟨.session x (some wait) fired, trace⟩ (w.registry i)).2 =
        (⟨.session x' progress.wait? fired, trace'⟩, w.registry i) := by
    simp only [Member.act, Role.act, actSession, resumeSession, hhandle, hsame, afterTurn]
  have hunfired (hsame : x.turn Registry.traced.toLink (fun _ => false) g w.now wait
      ⟨w.registry i, trace⟩ = (progress, x', ⟨w.registry i, trace'⟩)) :
      ∃ deeds m', Member.deal w.now deeds ⟨.session x (some wait) false, trace⟩ (w.registry i) =
        (m', w.registry i) ∧ m'.role.Shows (.session x' progress.wait? false) :=
    ⟨[.resume], _, hresume false hsame, .same _⟩
  cases htoken : cancelled token w with
  | false =>
    rw [htoken] at hregistry
    exact hunfired hregistry
  | true =>
    rw [htoken] at hregistry
    rcases Session.turn_fired Registry.traced.toLink x wait g w.now ⟨w.registry i, trace⟩ with
      hsame | hended
    · rw [hsame] at hregistry
      exact hunfired hregistry
    · rw [hregistry] at hended
      have hnone : progress.wait? = none := hended
      rw [hnone]
      exact ⟨[.cancel, .resume], _, hresume true hregistry, by rw [hnone]; exact .rested x' true⟩

theorem deal_giveUp (hm : m.role.Shows (.session x wait false)) (now : Instant) (r : Registry) :
    ∃ deeds m', m.deal now deeds r = (m', r) ∧ m'.role.Shows (.session x none false) := by
  obtain ⟨role, trace⟩ := m
  obtain ⟨fired, rfl, -⟩ := hm.session
  exact ⟨[.giveUp], _, rfl, .rested x fired⟩

theorem deal_close
    (hhandle : x.handle = some g) (hm : m.role.Shows (.session x wait false)) (now : Instant)
    (r : Registry) :
    ∃ deeds m', m.deal now deeds r = (m', (g.destroy r).2) ∧ m'.role.claim = none := by
  obtain ⟨role, trace⟩ := m
  obtain ⟨fired, rfl, -⟩ := hm.session
  refine ⟨[.release], ⟨.session { x with handle := none } none fired, trace ++ [.released]⟩, ?_, rfl⟩
  simp only [Member.deal, List.foldl_cons, List.foldl_nil, Member.act, Role.act, actSession,
    Session.close_registry hhandle]
  rfl

theorem deal_drop
    (hhandle : x.handle = some g) (hm : m.role.Shows (.session x wait false)) (now : Instant)
    (r : Registry) :
    ∃ deeds m', m.deal now deeds r = (m', (g.destroy r).2) ∧ m'.role.claim = none := by
  obtain ⟨role, trace⟩ := m
  obtain ⟨fired, rfl, -⟩ := hm.session
  refine ⟨[.drop], ⟨.gone, trace ++ [.released]⟩, ?_, rfl⟩
  simp only [Member.deal, List.foldl_cons, List.foldl_nil, Member.act, Role.act, actSession,
    Session.drop_registry hhandle]
  rfl

end Session

/-! ## Handles -/

section Handle

variable {g : Registration} {m : Member}

theorem deal_destroy (hm : m.role.Shows (.handle g)) (now : Instant) (r : Registry) :
    ∃ deeds m', m.deal now deeds r = (m', (g.destroy r).2) ∧
      m'.role.Shows (.handle (g.destroy r).1) := by
  obtain ⟨role, trace⟩ := m
  obtain rfl := hm.handle
  exact ⟨[.release], _, rfl, .same _⟩

theorem deal_forget (hm : m.role.Shows (.handle g)) (now : Instant) (r : Registry) :
    ∃ deeds m', m.deal now deeds r = (m', g.drop r) ∧ m'.role.claim = none := by
  obtain ⟨role, trace⟩ := m
  obtain rfl := hm.handle
  exact ⟨[.drop], _, rfl, rfl⟩

end Handle

/-! ## Newcomers -/

theorem deal_create {identity : Identity} {h : Handle} (hi : i < w.registries.length)
    (hregister : register (.graph i) identity w = .ok (h, w')) :
    ∃ g, h = .member i g ∧ ∃ deeds m',
      Member.unknown.deal w.now deeds (w.registry i) = (m', w'.registry i) ∧
        m'.role.Shows (.handle g) := by
  simp only [register] at hregister
  split at hregister
  · cases hregister
  · rename_i g r hcreate
    cases hregister
    refine ⟨g, rfl, [.register identity], ⟨.handle g, [.created]⟩, ?_, .same _⟩
    simp only [Member.deal, List.foldl_cons, List.foldl_nil, Member.act, Member.unknown, Role.act,
      actAbsent, Registry.traced, Transport.noted, Registry.transport, hcreate,
      registry_setRegistry hi]
    rfl

theorem deal_connect
    {expected : List String} {settings : Settings} {identity : Identity} {x : Session Handle}
    (hi : i < w.registries.length)
    (hconnect : Session.connect (World.transport (.graph i)) expected settings identity w =
      .ok (x, w')) :
    ∃ x' g, x = x'.map (Handle.member i) ∧ x'.handle = some g ∧ ∃ deeds m',
      Member.unknown.deal w.now deeds (w.registry i) = (m', w'.registry i) ∧
        m'.role.Shows (.session x' none false) := by
  obtain ⟨timeout, interval, handle, registered, hdurations, hregister, rfl, rfl⟩ :=
    Session.connect_eq_ok_iff.mp hconnect
  simp only [World.transport, register] at hregister
  split at hregister
  · cases hregister
  · rename_i g r hcreate
    cases hregister
    let x' : Session Registration :=
      { identity, expected := NameSet.ofList expected, timeout, interval, handle := some g,
        found := none }
    have hregistry : ((w.setRegistry i r).tell (.handleCreated identity.name)).registry i = r :=
      registry_setRegistry hi r
    have hdeal : Member.unknown.deal w.now [.connect expected settings identity] (w.registry i) =
        (⟨.session x' none false, [.created]⟩, r) := by
      simp only [Member.deal, List.foldl_cons, List.foldl_nil, Member.act, Member.unknown, Role.act,
        actAbsent, Session.connect, hdurations, Registry.traced, Transport.noted,
        Registry.transport, hcreate]
      rfl
    exact ⟨x', g, rfl, rfl, _, _, hdeal.trans (congrArg (Prod.mk _) hregistry.symm), .same _⟩

end Scenario

end RollCall
