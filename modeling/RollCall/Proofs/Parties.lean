import Mathlib.Data.List.Perm.Basic
import RollCall.Proofs.Course
import RollCall.Proofs.Release

/-!
# The sessions of a scenario as parties

All sessions of a scenario, those of its scopes and checks included, use one transport, whatever
graph or script their handles come from. They are parties of a `System` over it: each effect is a
few moves of the system, and so is a whole scenario. Hence what holds of every system holds of
every scenario. In particular every handle that was created for a session has been released exactly
once, unless a session that has a label still holds it.

Main statements: `scenario_run`, `released_once` and `released_after`.
-/

namespace RollCall.Scenario

/-- Handles from any source, which stands beside the world. -/
def anySource : Transport (Source × World) Handle where
  poll h s := ((s.2.poll h).1, s.1, (s.2.poll h).2)
  release h s := (s.1, World.link.release h s.2)
  tell e s := (s.1, s.2.tell e)
  register identity s :=
    (World.register s.1 identity s.2).map fun registered => (registered.1, s.1, registered.2)

/-- What the sessions of a scenario do is what they do with numbered handles over the one
transport. -/
theorem recorded_mirrors :
    anySource.toLink.recorded.Mirrors World.link (fun r => r.base.2) Prod.snd :=
  ⟨fun _ _ => rfl, fun _ _ => rfl, fun _ _ => rfl⟩

theorem recorded_register (identity : Identity) (r : Recorded (Source × World)) :
    (World.transport r.base.1).register identity r.base.2 =
      (anySource.recorded.register identity r).map fun (h, r) => (h.2, r.base.2) := by
  have hsource : (World.transport r.base.1).register identity r.base.2 =
      World.register r.base.1 identity r.base.2 := rfl
  rw [hsource]
  simp only [Transport.noted, anySource]
  cases World.register r.base.1 identity r.base.2 with
  | error reason => rfl
  | ok registered => rfl

def Holder.session? : Holder → Option (Session Handle × Option Wait)
  | .session x wait => some (x, wait)
  | .bare _ => none

def Company.sessions (c : Company) : List (Session Handle × Option Wait) :=
  c.holders.filterMap Holder.session?

variable {β κ ρ : Type}

/-- The systems that scenarios are runs of. -/
abbrev Parties (β κ ρ : Type) := System (Source × World) Handle β κ ρ

/-- At this place a system has a party with a session, which is in hand with this wait. -/
def At (y : Parties β κ ρ) (i : ℕ) (x : Session Handle) (wait : Option Wait) : Prop :=
  ∃ n x', y.parties[i]? = some ⟨some n, .session x' wait⟩ ∧ x'.map Prod.snd = x

/-- A system in which the sessions of a company have places of their own, and all other parties are
over. -/
structure Seated (y : Parties β κ ρ) (c : Company)
    (seats : List (ℕ × Session Handle × Option Wait)) : Prop where
  world : y.world.base.2 = c.world
  nodup : (seats.map Prod.fst).Nodup
  sessions : (seats.map Prod.snd).Perm c.sessions
  seated : ∀ seat ∈ seats, At y seat.1 seat.2.1 seat.2.2
  unseated : ∀ i p, y.parties[i]? = some p → i ∉ seats.map Prod.fst → p.holding.isOver = true

namespace Seated

variable {y : Parties β κ ρ} {c : Company} {seats others : List (ℕ × Session Handle × Option Wait)}
  {hs : List Holder} {w w' : World} {x : Session Handle} {wait : Option Wait} {i : ℕ}

/-- What has no part in the sessions leaves them where they are. -/
theorem elsewhere (h : Seated y c seats) {c' : Company} (hsessions : c'.sessions.Perm c.sessions) :
    ∃ moves seats', Seated (y.run anySource moves) c' seats' :=
  ⟨[.others fun s => (s.1, c'.world)], seats, rfl, h.nodup, h.sessions.trans hsessions.symm,
    h.seated, h.unseated⟩

/-- A session in hand has a place. -/
theorem exists_seat (h : Seated y ⟨.session x wait :: hs, w⟩ seats) :
    ∃ i others, Seated y ⟨.session x wait :: hs, w⟩ ((i, x, wait) :: others) := by
  obtain ⟨i, others, hperm⟩ := Company.exists_seat h.sessions
  refine ⟨i, others, h.world, (hperm.map _).nodup_iff.mp h.nodup,
    (hperm.map _).symm.trans h.sessions, fun seat hseat => h.seated seat (hperm.mem_iff.mpr hseat),
    fun j p hp hj => h.unseated j p hp ?_⟩
  rw [(hperm.map _).mem_iff]
  exact hj

section Act

variable (h : Seated y ⟨.session x wait :: hs, w⟩ ((i, x, wait) :: others))
  (p : Party (Source × World) Handle β κ ρ) {r : Recorded (Source × World)}
include h

theorem lt_length : i < y.parties.length := by
  obtain ⟨n, x', hparty, -⟩ := h.seated _ (List.mem_cons_self ..)
  exact (List.getElem?_eq_some_iff.mp hparty).1

/-- What the party at a place does is seen at no other place. -/
theorem others_at : ∀ seat ∈ others, At ⟨r, y.parties.set i p⟩ seat.1 seat.2.1 seat.2.2 := by
  intro seat hseat
  obtain ⟨n, x', hparty, hx⟩ := h.seated seat (List.mem_cons_of_mem _ hseat)
  have hne : i ≠ seat.1 := by
    rintro rfl
    exact (List.nodup_cons.mp h.nodup).1 (List.mem_map.mpr ⟨seat, hseat, rfl⟩)
  exact ⟨n, x', by rw [List.getElem?_set_ne hne, hparty], hx⟩

theorem stay {n : ℕ} {x' : Session (ℕ × Handle)} (wait' : Option Wait) (hw : r.base.2 = w') :
    Seated ⟨r, y.parties.set i ⟨some n, .session x' wait'⟩⟩
      ⟨.session (x'.map Prod.snd) wait' :: hs, w'⟩ ((i, x'.map Prod.snd, wait') :: others) where
  world := hw
  nodup := h.nodup
  sessions := ((List.perm_cons _).mp h.sessions).cons _
  seated := List.forall_mem_cons.mpr
    ⟨⟨n, x', List.getElem?_set_self h.lt_length, rfl⟩, h.others_at _⟩
  unseated j q hq hj := by
    have hne : i ≠ j := fun hij => hj (hij ▸ List.mem_cons_self ..)
    rw [List.getElem?_set_ne hne] at hq
    exact h.unseated j q hq hj

theorem leave (hover : p.holding.isOver = true) (hw : r.base.2 = w') :
    Seated ⟨r, y.parties.set i p⟩ ⟨hs, w'⟩ others where
  world := hw
  nodup := (List.nodup_cons.mp h.nodup).2
  sessions := (List.perm_cons _).mp h.sessions
  seated := h.others_at p
  unseated j q hq hj := by
    by_cases hij : i = j
    · subst hij
      rw [List.getElem?_set_self h.lt_length] at hq
      cases hq
      exact hover
    · rw [List.getElem?_set_ne hij] at hq
      exact h.unseated j q hq (List.not_mem_cons_of_ne_of_not_mem (Ne.symm hij) hj)

end Act

theorem join (h : Seated y ⟨hs, w⟩ seats) {r : Recorded (Source × World)} {x' : Session (ℕ × Handle)}
    (hcreated : r.created = y.world.created + 1) (hw : r.base.2 = w') :
    Seated (y.join (.session x' none) r) ⟨.session (x'.map Prod.snd) none :: hs, w'⟩
      ((y.parties.length, x'.map Prod.snd, none) :: seats) := by
  have hlt : ∀ seat ∈ seats, seat.1 < y.parties.length := by
    intro seat hseat
    obtain ⟨n, x', hparty, -⟩ := h.seated seat hseat
    exact (List.getElem?_eq_some_iff.mp hparty).1
  have hnumber : r.created ≠ y.world.created := by omega
  refine ⟨hw, List.nodup_cons.mpr ⟨fun hmem => ?_, h.nodup⟩, h.sessions.cons _,
    List.forall_mem_cons.mpr ⟨⟨y.world.created, x', ?_, rfl⟩, fun seat hseat => ?_⟩,
    fun j p hp hj => ?_⟩
  · obtain ⟨seat, hseat, hlast⟩ := List.mem_map.mp hmem
    exact Nat.lt_irrefl _ (hlast ▸ hlt seat hseat)
  · simp [System.join, hnumber]
  · obtain ⟨n, x', hparty, hx⟩ := h.seated seat hseat
    refine ⟨n, x', ?_, hx⟩
    rw [System.join, List.getElem?_append_left (hlt seat hseat), hparty]
  · have hne : j ≠ y.parties.length := fun hlast => hj (hlast ▸ List.mem_cons_self ..)
    have hold : j < y.parties.length := by
      have hle := (List.getElem?_eq_some_iff.mp hp).1
      simp only [System.join, List.length_append, List.length_singleton] at hle
      omega
    rw [System.join, List.getElem?_append_left hold] at hp
    exact h.unseated j p hp fun hmem => hj (List.mem_cons_of_mem _ hmem)

/-! ## One effect -/

/-- Who has a session in hand, and where. -/
theorem exists_party (h : Seated y ⟨.session x wait :: hs, w⟩ seats) :
    ∃ i n x' others, x'.map Prod.snd = x ∧ y.parties[i]? = some ⟨some n, .session x' wait⟩ ∧
      Seated y ⟨.session x wait :: hs, w⟩ ((i, x, wait) :: others) := by
  obtain ⟨i, others, h⟩ := h.exists_seat
  obtain ⟨n, x', hparty, hx⟩ := h.seated _ (List.mem_cons_self ..)
  exact ⟨i, n, x', others, hx, hparty, h⟩

theorem act_stay (h : Seated y ⟨.session x wait :: hs, w⟩ ((i, x, wait) :: others))
    {n : ℕ} {x' x'' : Session (ℕ × Handle)} {wait' : Option Wait} {deed : Deed (Source × World)}
    {r : Recorded (Source × World)} (hparty : y.parties[i]? = some ⟨some n, .session x' wait⟩)
    (hact : x'.act (β := β) (κ := κ) (ρ := ρ) anySource deed wait y.world =
      (.session x'' wait', r)) :
    Seated (y.run anySource [.act i deed])
      ⟨.session (x''.map Prod.snd) wait' :: hs, r.base.2⟩ ((i, x''.map Prod.snd, wait') :: others) := by
  have hstep : y.run anySource [.act i deed] =
      ⟨r, y.parties.set i ⟨some n, .session x'' wait'⟩⟩ := by
    simp only [System.run, List.foldl_cons, List.foldl_nil, System.step, hparty, Holding.act, hact]
  rw [hstep]
  exact h.stay wait' rfl

theorem connect (h : Seated y ⟨hs, w⟩ seats)
    {source : Source} {expected : List String} {settings : Settings} {identity : Identity}
    (hconnect : Session.connect (World.transport source) expected settings identity w =
      .ok (x, w')) :
    ∃ moves seats', Seated (y.run anySource moves) ⟨.session x none :: hs, w'⟩ seats' := by
  let ready : Parties β κ ρ := y.step anySource (.others fun _ => (source, w))
  have hready : Seated ready ⟨hs, w⟩ seats := ⟨rfl, h.nodup, h.sessions, h.seated, h.unseated⟩
  have hlinks : anySource.recorded.toLink.Mirrors (World.transport ready.world.base.1).toLink
      (fun r => r.base.2) Prod.snd := recorded_mirrors
  have hmirrors := Session.connect_mirrors ready.world hlinks
    (recorded_register identity ready.world) expected settings
  have hsame : Session.connect (World.transport ready.world.base.1) expected settings identity
      ready.world.base.2 = .ok (x, w') := hconnect
  rw [hsame] at hmirrors
  cases hact : Session.connect anySource.recorded expected settings identity ready.world with
  | error e =>
    rw [hact] at hmirrors
    cases hmirrors
  | ok connected =>
    obtain ⟨x', r⟩ := connected
    rw [hact] at hmirrors
    cases hmirrors
    obtain ⟨-, hcreated, -⟩ := Session.connect_recorded hact
    have hjoin : ready.step anySource (.connect expected settings identity) =
        ready.join (.session x' none) r := by
      simp only [System.step, hact]
    have hjoined : Seated _ ⟨.session (x'.map Prod.snd) none :: hs, r.base.2⟩ _ :=
      hready.join hcreated rfl
    rw [← hjoin] at hjoined
    exact ⟨[.others fun _ => (source, w), .connect expected settings identity], _, hjoined⟩

theorem begin (h : Seated y ⟨.session x wait :: hs, w⟩ seats) {now : Instant} {next : Wait}
    (hbegin : x.begin World.link now w = .ok (next, w')) :
    ∃ moves seats', Seated (y.run anySource moves) ⟨.session x (some next) :: hs, w'⟩ seats' := by
  obtain ⟨i, n, x, others, rfl, hparty, h⟩ := h.exists_party
  have hmirrors := Session.begin_mirrors recorded_mirrors x y.world now
  rw [h.world, hbegin] at hmirrors
  cases hact : x.begin anySource.toLink.recorded now y.world with
  | error e =>
    rw [hact] at hmirrors
    cases hmirrors
  | ok begun =>
    rw [hact] at hmirrors
    cases hmirrors
    have hdeed : x.act (β := β) (κ := κ) (ρ := ρ) anySource (.begin now) wait y.world =
        (.session x (some begun.1), begun.2) := by
      simp only [Session.act, hact]
    exact ⟨_, _, h.act_stay hparty hdeed⟩

theorem resume {next : Wait} (h : Seated y ⟨.session x (some next) :: hs, w⟩ seats)
    {handle : Handle} {cancelled : World → Bool} {now : Instant} {progress : Session.Progress}
    {x' : Session Handle} (hhandle : x.handle = some handle)
    (hturn : x.turn World.link cancelled handle now next w = (progress, x', w')) :
    ∃ moves seats', Seated (y.run anySource moves) ⟨.session x' progress.wait? :: hs, w'⟩ seats' := by
  obtain ⟨i, n, x, others, rfl, hparty, h⟩ := h.exists_party
  obtain ⟨numbered, hnumbered, rfl⟩ := Option.map_eq_some_iff.mp hhandle
  have hmirrors := Session.turn_mirrors recorded_mirrors x y.world cancelled numbered now next
  rcases hact : x.turn anySource.toLink.recorded (fun r => cancelled r.base.2) numbered now next
    y.world with ⟨progress', x'', r⟩
  rw [h.world, hturn, hact] at hmirrors
  cases hmirrors
  have hdeed : x.act (β := β) (κ := κ) (ρ := ρ) anySource
      (.resume now fun s => cancelled s.2) (some next) y.world =
      (.session x'' progress'.wait?, r) := by
    simp only [Session.act, Session.resume, hnumbered, hact]
  exact ⟨_, _, h.act_stay hparty hdeed⟩

theorem close (h : Seated y ⟨.session x wait :: hs, w⟩ seats) {x' : Session Handle}
    (hclose : x.close World.link w = .ok (x', w')) :
    ∃ moves seats', Seated (y.run anySource moves) ⟨.session x' none :: hs, w'⟩ seats' := by
  obtain ⟨i, n, x, others, rfl, hparty, h⟩ := h.exists_party
  have hmirrors := Session.close_mirrors recorded_mirrors x y.world
  rw [h.world, hclose] at hmirrors
  cases hact : x.close anySource.toLink.recorded y.world with
  | error e =>
    rw [hact] at hmirrors
    cases hmirrors
  | ok closed =>
    rw [hact] at hmirrors
    cases hmirrors
    have hdeed : x.act (β := β) (κ := κ) (ρ := ρ) anySource .close wait y.world =
        (.session closed.1 none, closed.2) := by
      simp only [Session.act, hact]
    exact ⟨_, _, h.act_stay hparty hdeed⟩

theorem drop (h : Seated y ⟨.session x wait :: hs, w⟩ seats) :
    ∃ moves seats', Seated (y.run anySource moves) ⟨hs, x.drop World.link w⟩ seats' := by
  obtain ⟨i, n, x, others, rfl, hparty, h⟩ := h.exists_party
  have hmirrors := Session.drop_mirrors recorded_mirrors x y.world
  rw [h.world] at hmirrors
  have hstep : y.run anySource [.act i .drop] =
      ⟨x.drop anySource.toLink.recorded y.world, y.parties.set i ⟨some n, .nothing⟩⟩ := by
    simp only [System.run, List.foldl_cons, List.foldl_nil, System.step, hparty, Holding.act,
      Session.act]
  refine ⟨[.act i .drop], others, ?_⟩
  rw [hstep]
  exact h.leave _ rfl hmirrors.symm

/-- What happens to the company of a scenario are a few moves of the system. -/
theorem effect {c c' : Company} (h : Seated y c seats) (heffect : Effect c c') :
    ∃ moves seats', Seated (y.run anySource moves) c' seats' := by
  cases heffect with
  | reorder hperm => exact h.elsewhere (hperm.symm.filterMap _)
  | connect _ hconnect => exact h.connect hconnect
  | begin hbegin => exact h.begin hbegin
  | resume hhandle hturn => exact h.resume hhandle hturn
  | @giveUp _ _ _ wait =>
    obtain ⟨i, n, x, others, rfl, hparty, h⟩ := h.exists_party
    have hdeed : x.act (β := β) (κ := κ) (ρ := ρ) anySource .giveUp wait y.world =
        (.session x none, y.world) := rfl
    have hstayed := h.act_stay hparty hdeed
    rw [h.world] at hstayed
    exact ⟨_, _, hstayed⟩
  | close hclose => exact h.close hclose
  | drop => exact h.drop
  | aside => exact h.elsewhere (.refl _)
  | relabel => exact h.elsewhere (.refl _)
  | event => exact h.elsewhere (.refl _)
  | launch => exact h.elsewhere (.refl _)
  | stop => exact h.elsewhere (.refl _)
  | turn => exact h.elsewhere (.refl _)
  | create => exact h.elsewhere (.refl _)
  | poll => exact h.elsewhere (.refl _)
  | destroy => exact h.elsewhere (.refl _)
  | forget => exact h.elsewhere (.refl _)

theorem course {c c' : Company} (h : Seated y c seats) (hcourse : Course c c') :
    ∃ moves seats', Seated (y.run anySource moves) c' seats' := by
  induction hcourse with
  | refl => exact ⟨[], seats, h⟩
  | @tail _ c' _ hlast ih =>
    obtain ⟨moves, seats₁, h₁⟩ := ih
    have hnext : ∃ later seats', Seated ((y.run anySource moves).run anySource later) c' seats' := by
      cases hlast with
      | effect heffect => exact h₁.effect heffect
      | pass => exact h₁.elsewhere (.refl _)
    obtain ⟨later, seats₂, h₂⟩ := hnext
    refine ⟨moves ++ later, seats₂, ?_⟩
    rwa [System.run, List.foldl_append]

end Seated

/-! ## Scenarios -/

/-- Who has come once stays a party, under the same number. -/
theorem number_run (moves : List (Move (Source × World) Handle β κ ρ)) {y : Parties β κ ρ} {i : ℕ}
    {p : Party (Source × World) Handle β κ ρ} (hp : y.parties[i]? = some p) :
    ∃ p', (y.run anySource moves).parties[i]? = some p' ∧ p'.number = p.number := by
  induction moves generalizing y p with
  | nil => exact ⟨p, hp, rfl⟩
  | cons move moves ih =>
    have hlt := (List.getElem?_eq_some_iff.mp hp).1
    have hjoin (holding) (r) : (y.join holding r).parties[i]? = some p := by
      rw [System.join, List.getElem?_append_left hlt, hp]
    have hstep : ∃ p', (y.step anySource move).parties[i]? = some p' ∧ p'.number = p.number := by
      cases move with
      | others change => exact ⟨p, hp, rfl⟩
      | connect expected settings identity =>
        simp only [System.step]
        split
        · exact ⟨p, hp, rfl⟩
        · exact ⟨p, hjoin _ _, rfl⟩
      | enter expected settings identity now body => exact ⟨p, hjoin _ _, rfl⟩
      | act j deed =>
        simp only [System.step]
        split
        · exact ⟨p, hp, rfl⟩
        · rename_i q hq
          by_cases hij : j = i
          · subst hij
            cases hq.symm.trans hp
            exact ⟨_, List.getElem?_set_self hlt, rfl⟩
          · exact ⟨p, by rw [List.getElem?_set_ne hij, hp], rfl⟩
    obtain ⟨p₁, hp₁, hnumber₁⟩ := hstep
    obtain ⟨p₂, hp₂, hnumber₂⟩ := ih hp₁
    exact ⟨p₂, hp₂, hnumber₂.trans hnumber₁⟩

/-- The sessions in hand between two steps are those that have a label. -/
theorem mem_sessions_company {w : World} {x : Session Handle} {wait : Option Wait}
    (h : (x, wait) ∈ w.company.sessions) : ∃ label, w.sessions.get? label = some x := by
  obtain ⟨holder, hholder, hsession⟩ := List.mem_filterMap.mp h
  rcases List.mem_append.mp hholder with hmem | hmem
  · obtain ⟨entry, hentry, rfl⟩ := List.mem_map.mp hmem
    cases hsession
    exact ⟨entry.1, Directory.get?_of_mem hentry⟩
  · obtain ⟨entry, -, rfl⟩ := List.mem_map.mp hmem
    cases hsession

/-- A scenario is a run of a system, at whatever point it is looked at. -/
theorem scenario_run (words : WordSource) (source : Source) {c : Company}
    (hcourse : Course (World.initial words).company c) :
    ∃ moves seats, Seated
      ((System.start (source, World.initial words) : Parties β κ ρ).run anySource moves) c seats := by
  have hstart : Seated (System.start (source, World.initial words) : Parties β κ ρ)
      (World.initial words).company [] :=
    ⟨rfl, .nil, .refl _, nofun, nofun⟩
  exact hstart.course hcourse

/-- The handle of a session that is in hand with it at some point of a scenario. At any later point
it has been released exactly once if the session has gone or has been shut down, and not yet if the
session is still in hand with it. -/
theorem released_once (words : WordSource) (source : Source) {c c' : Company}
    (hbefore : Course (World.initial words).company c) (hafter : Course c c')
    {x : Session Handle} {wait : Option Wait} (hx : (x, wait) ∈ c.sessions) :
    ∃ (before after : List (Move (Source × World) Handle β κ ρ)) (i n : ℕ)
      (x' : Session (ℕ × Handle)) (seats : List (ℕ × Session Handle × Option Wait)),
      let y := (System.start (source, World.initial words)).run anySource before
      let y' := y.run anySource after
      y.parties[i]? = some ⟨some n, .session x' wait⟩ ∧ x'.map Prod.snd = x ∧ Seated y' c' seats ∧
        (i ∉ seats.map Prod.fst → (y'.world.calls n).count .release = 1) ∧
        ∀ x'' wait', (i, x'', wait') ∈ seats →
          (y'.world.calls n).count .release = if x''.isClosed then 1 else 0 := by
  obtain ⟨before, seats₀, hseated⟩ := scenario_run (β := β) (κ := κ) (ρ := ρ) words source hbefore
  obtain ⟨⟨i, _⟩, hseat, rfl⟩ := List.mem_map.mp (hseated.sessions.mem_iff.mpr hx)
  obtain ⟨n, x', hparty, hsame⟩ := hseated.seated _ hseat
  obtain ⟨after, seats, hseated'⟩ := hseated.course hafter
  refine ⟨before, after, i, n, x', seats, hparty, hsame, hseated', ?_⟩
  obtain ⟨p, hp, hnumber⟩ := number_run after hparty
  have hsound := System.sound_run anySource after
    (System.sound_run anySource before (System.sound_start (source, World.initial words)))
  have hreleases := hsound.releases (List.mem_of_getElem? hp) hnumber
  constructor
  · intro hi
    rw [hreleases, hseated'.unseated i p hp hi, if_pos rfl]
  · intro x'' wait' hmem
    obtain ⟨m, x₁, hparty', hsame'⟩ := hseated'.seated _ hmem
    cases hp.symm.trans hparty'
    dsimp only at hsame'
    rw [hreleases, ← hsame', Session.isClosed_map]
    rfl

/-- After a scenario every handle that has been created for a session has been released exactly
once, unless a session that has a label still holds it. -/
theorem released_after (words : WordSource) (source : Source) (steps : List Step) :
    let w := (World.initial words).after steps
    ∃ (moves : List (Move (Source × World) Handle β κ ρ))
      (seats : List (ℕ × Session Handle × Option Wait)),
      let y := (System.start (source, World.initial words)).run anySource moves
      Seated y w.company seats ∧ ∀ n < y.world.created,
        (y.world.calls n).count .release = 1 ∨ (y.world.calls n).count .release = 0 ∧
          ∃ label x, w.sessions.get? label = some x ∧ x.isClosed = false := by
  intro w
  obtain ⟨moves, seats, hseated⟩ := scenario_run (β := β) (κ := κ) (ρ := ρ) words source
    (after_course steps (grounded_initial words))
  refine ⟨moves, seats, hseated, fun n hn => ?_⟩
  have hsound := System.sound_run anySource moves
    (System.sound_start (β := β) (κ := κ) (ρ := ρ) (source, World.initial words))
  have hmem := hsound.numbers ▸ List.mem_range.mpr hn
  obtain ⟨p, hp, hnumber⟩ := List.mem_filterMap.mp hmem
  have hreleases := hsound.releases hp hnumber
  cases hover : p.holding.isOver with
  | true =>
    rw [hover, if_pos rfl] at hreleases
    exact Or.inl hreleases
  | false =>
    rw [hover] at hreleases
    refine Or.inr ⟨hreleases, ?_⟩
    obtain ⟨i, hi⟩ := List.mem_iff_getElem?.mp hp
    have hseat : i ∈ seats.map Prod.fst := by
      by_contra hi'
      rw [hseated.unseated i p hi hi'] at hover
      cases hover
    obtain ⟨seat, hmem, rfl⟩ := List.mem_map.mp hseat
    obtain ⟨m, x', hparty, hsame⟩ := hseated.seated seat hmem
    cases hi.symm.trans hparty
    have hin := hseated.sessions.mem_iff.mp (List.mem_map_of_mem hmem)
    obtain ⟨label, hlabel⟩ := mem_sessions_company hin
    refine ⟨label, seat.2.1, hlabel, ?_⟩
    rw [← hsame, Session.isClosed_map]
    exact hover

end RollCall.Scenario
