import Mathlib.Data.List.Nodup
import RollCall.Proofs.Custody

/-!
# Every handle is released exactly once

Any number of sessions and scopes share one transport. They are entered and take their turns in
any order, in whatever world the others and everything else have left behind; waits are given up
where they stand, sessions are shut down as often as one likes, scopes are abandoned.

The invariant has one line for each party: either it still holds the handle that was created for
it, which has only been polled, or it is over, and the release was the last call to its handle.
To read the results of a session changes nothing, so it is no move. The body of a scope that uses
sessions of its own is suspended while these, as parties of their own, take their turns.
-/

namespace RollCall

variable {σ η β κ ρ : Type}

open Chronicle

inductive Deed (σ : Type)
  | begin (now : Instant)
  /-- A wait or a scope has a turn, in which it looks at a token. -/
  | resume (now : Instant) (cancelled : σ → Bool)
  | giveUp
  | close
  | drop

inductive Holding (σ η β κ ρ : Type)
  /-- A session, and its wait if one is under way. -/
  | session (session : Session η) (wait : Option Wait)
  | scope (body : Body σ η β κ ρ) (inner : Scope η β κ ρ)
  /-- Nothing any more: it has been given up. -/
  | nothing

namespace Holding

def handle? : Holding σ η β κ ρ → Option η
  | .session x _ => x.handle
  | .scope _ inner => inner.handle?
  | .nothing => none

/-- Whether the session has been shut down, the scope has been left, or either has been given
up. -/
def isOver : Holding σ η β κ ρ → Bool
  | .session x _ => x.isClosed
  | .scope _ inner => inner.isLeft
  | .nothing => true

end Holding

/-- A session takes a turn of its wait, if one is under way. -/
def Session.resume (T : Transport σ η) (now : Instant) (cancelled : σ → Bool)
    (x : Session (ℕ × η)) (wait : Option Wait) (r : Recorded σ) :
    (Session (ℕ × η) × Option Wait) × Recorded σ :=
  match wait, x.handle with
  | some w, some h =>
    let (progress, x, r) := x.turn T.toLink.recorded (fun r => cancelled r.base) h now w r
    ((x, progress.wait?), r)
  | _, _ => ((x, none), r)

def Session.act (T : Transport σ η) (deed : Deed σ) (x : Session (ℕ × η)) (wait : Option Wait)
    (r : Recorded σ) : Holding σ (ℕ × η) β κ ρ × Recorded σ :=
  match deed with
  | .begin now =>
    match x.begin T.toLink.recorded now r with
    | .ok (w, r) => (.session x (some w), r)
    | .error _ => (.session x none, r)
  | .resume now cancelled =>
    let ((x, wait), r) := x.resume T now cancelled wait r
    (.session x wait, r)
  | .giveUp => (.session x none, r)
  | .close =>
    match x.close T.toLink.recorded r with
    | .ok (x, r) => (.session x none, r)
    | .error _ => (.session x none, r)
  | .drop => (.nothing, x.drop T.toLink.recorded r)

/-- What a scope does. It can take a turn or be given up. -/
def Scope.act (T : Transport σ η) (deed : Deed σ) (body : Body σ (ℕ × η) β κ ρ)
    (scope : Scope (ℕ × η) β κ ρ) (r : Recorded σ) :
    Holding σ (ℕ × η) β κ ρ × Recorded σ :=
  match deed with
  | .resume now cancelled =>
    let (scope, r) :=
      scope.advance T.recorded (fun r => cancelled r.base) body.recorded now r
    (.scope body scope, r)
  | .drop => (.nothing, scope.abandon T.recorded r)
  | _ => (.scope body scope, r)

def Holding.act (T : Transport σ η) (deed : Deed σ) (y : Holding σ (ℕ × η) β κ ρ)
    (r : Recorded σ) : Holding σ (ℕ × η) β κ ρ × Recorded σ :=
  match y with
  | .session x wait => x.act T deed wait r
  | .scope body inner => inner.act T deed body r
  | .nothing => (.nothing, r)

/-- One of those who share the transport. -/
structure Party (σ η β κ ρ : Type) where
  /-- The number of the handle that was created for it, if one was. -/
  number : Option ℕ
  holding : Holding σ (ℕ × η) β κ ρ

/-- The transport's world, with all who share it. -/
structure System (σ η β κ ρ : Type) where
  world : Recorded σ
  parties : List (Party σ η β κ ρ)

inductive Move (σ η β κ ρ : Type)
  | others (change : σ → σ)
  | connect (expected : List String) (settings : Settings) (identity : Identity)
  | enter (expected : List String) (settings : Settings) (identity : Identity) (now : Instant)
      (body : Body σ (ℕ × η) β κ ρ)
  | act (i : ℕ) (deed : Deed σ)

namespace System

def start (s : σ) : System σ η β κ ρ := ⟨Recorded.ofBase s, []⟩

/-- Another party comes, and perhaps a handle has been created for it. -/
def join (y : System σ η β κ ρ) (holding : Holding σ (ℕ × η) β κ ρ) (r : Recorded σ) :
    System σ η β κ ρ where
  world := r
  parties :=
    y.parties ++ [{ number := if r.created = y.world.created then none else some y.world.created
                    holding }]

def step (T : Transport σ η) (y : System σ η β κ ρ) : Move σ η β κ ρ → System σ η β κ ρ
  | .others change => { y with world := y.world.withBase (change y.world.base) }
  | .connect expected settings identity =>
    match Session.connect T.recorded expected settings identity y.world with
    | .error _ => y
    | .ok (x, r) => y.join (.session x none) r
  | .enter expected settings identity now body =>
    let (scope, r) := Scope.enter T.recorded expected settings identity now y.world
    y.join (.scope body scope) r
  | .act i deed =>
    match y.parties[i]? with
    | none => y
    | some p =>
      let (holding, r) := p.holding.act T deed y.world
      { world := r, parties := y.parties.set i { p with holding } }

def run (T : Transport σ η) (y : System σ η β κ ρ) (moves : List (Move σ η β κ ρ)) :
    System σ η β κ ρ :=
  moves.foldl (step T) y

end System

/-! ## One deed -/

/-- A turn of a session makes polls with its handle, which it keeps. -/
theorem Session.resume_custody
    (T : Transport σ η) {h : ℕ × η} {x : Session (ℕ × η)} (hhandle : x.handle = some h)
    (now : Instant) (cancelled : σ → Bool) (wait : Option Wait) (r : Recorded σ) :
    let out := x.resume T now cancelled wait r
    Custody h r out.2 out.1.1.handle out.1.1.isClosed := by
  have hopen : x.isClosed = false := Session.isClosed_of_handle hhandle
  rcases wait with _ | w
  · simp only [Session.resume, hhandle, hopen]
    exact Custody.of_nil (Adds.refl .numbered h r)
  · obtain ⟨shown, hpolls, -⟩ :=
      w.advance_adds T.toLink .numbered (fun r => cancelled r.base) h now r
    rcases hout : w.advance T.toLink.recorded (fun r => cancelled r.base) h now r with ⟨w', r'⟩
    rw [hout] at hpolls
    simp only [Session.resume, hhandle]
    rcases Session.turn_cases x hout with ⟨outcome, visible, -, hturn⟩ | ⟨-, hturn⟩
    · have hend : Adds .numbered h [] r' (x.complete T.toLink.recorded outcome visible r').2 :=
        Session.complete_adds outcome visible r'
      have hkept := Custody.after_polls hpolls (Custody.of_nil hend)
      rw [hturn]
      simpa [Session.complete, Session.keep, hhandle, Session.isClosed] using hkept
    · rw [hturn]
      simp only [hhandle, hopen]
      exact .held shown hpolls

/-- What a session with a handle does is polls, and a release when it is over. -/
theorem Session.act_custody
    (T : Transport σ η) {h : ℕ × η} {x : Session (ℕ × η)} (hhandle : x.handle = some h)
    (deed : Deed σ) (wait : Option Wait) (r : Recorded σ) :
    let out := x.act (β := β) (κ := κ) (ρ := ρ) T deed wait r
    Custody h r out.2 out.1.handle? out.1.isOver := by
  have hopen : x.isClosed = false := Session.isClosed_of_handle hhandle
  have hstays : Custody h r r x.handle x.isClosed := by
    rw [hhandle, hopen]
    exact Custody.of_nil (Adds.refl .numbered h r)
  rcases deed with now | ⟨now, cancelled⟩ | _ | _ | _
  · obtain ⟨r₀, hbegin, hadds⟩ := Session.begin_adds (L := T.toLink) (c := .numbered) hhandle now r
    simp only [Session.act, hbegin, Holding.handle?, Holding.isOver, hhandle, hopen]
    exact Custody.of_nil hadds
  · exact x.resume_custody T hhandle now cancelled wait r
  · exact hstays
  · obtain ⟨r', hclose, hadds⟩ := Session.close_adds (L := T.toLink) (c := .numbered) hhandle r
    simp only [Session.act, hclose, Holding.handle?, Holding.isOver, Session.isClosed]
    exact Custody.of_release hadds
  · exact Custody.of_release (Session.drop_adds hhandle r)

/-- What a scope that holds a handle does is polls, and a release when it is over. -/
theorem Scope.act_custody
    (T : Transport σ η) {h : ℕ × η} {scope : Scope (ℕ × η) β κ ρ} (hheld : scope.handle? = some h)
    (deed : Deed σ) (body : Body σ (ℕ × η) β κ ρ) (r : Recorded σ) :
    let out := scope.act T deed body r
    Custody h r out.2 out.1.handle? out.1.isOver := by
  have hopen : scope.isLeft = false := by
    rcases scope with ⟨x, w⟩ | ⟨x, b⟩ | result
    · rfl
    · rfl
    · cases hheld
  have hstays : Custody h r r scope.handle? scope.isLeft := by
    rw [hheld, hopen]
    exact Custody.of_nil (Adds.refl .numbered h r)
  rcases deed with now | ⟨now, cancelled⟩ | _ | _ | _
  · exact hstays
  · exact Scope.advance_custody T (fun r => cancelled r.base) body now hheld r
  · exact hstays
  · exact hstays
  · exact Custody.of_release (Scope.abandon_adds T hheld r)

/-- Who is over and has let go of its handle calls no handle again. -/
theorem Holding.act_over
    (T : Transport σ η) {y : Holding σ (ℕ × η) β κ ρ} (hover : y.isOver = true)
    (hlet : y.handle? = none) (deed : Deed σ) (r : Recorded σ) :
    let out := y.act T deed r
    out.1.isOver = true ∧ out.1.handle? = none ∧ out.2 = r := by
  rcases y with ⟨x, wait⟩ | ⟨body, scope⟩ | _
  · have hhandle : x.handle = none := hlet
    rcases deed with now | ⟨now, cancelled⟩ | _ | _ | _
    · rw [Holding.act, Session.act, Session.begin_closed hhandle]
      exact ⟨hover, hlet, rfl⟩
    · have hresume : x.resume T now cancelled wait r = ((x, none), r) := by
        rcases wait with _ | w
        · rfl
        · simp [Session.resume, hhandle]
      rw [Holding.act, Session.act, hresume]
      exact ⟨hover, hlet, rfl⟩
    · exact ⟨hover, hlet, rfl⟩
    · rw [Holding.act, Session.act, Session.close_closed hhandle]
      exact ⟨hover, hlet, rfl⟩
    · exact ⟨rfl, rfl, Session.drop_closed hhandle r⟩
  · rcases scope with ⟨x, w⟩ | ⟨x, b⟩ | result
    · cases hover
    · cases hover
    · rcases deed with now | ⟨now, cancelled⟩ | _ | _ | _ <;> exact ⟨rfl, rfl, rfl⟩
  · exact ⟨rfl, rfl, rfl⟩

theorem Session.isOver_close
    (T : Transport σ η) (x : Session (ℕ × η)) (wait : Option Wait) (r : Recorded σ) :
    (x.act (β := β) (κ := κ) (ρ := ρ) T .close wait r).1.isOver = true := by
  obtain hhandle | ⟨h, hhandle⟩ := x.handle.eq_none_or_eq_some
  · simp [Session.act, Session.close_closed hhandle, Holding.isOver, Session.isClosed, hhandle]
  · obtain ⟨r', hclose, -⟩ := Session.close_adds (L := T.toLink) (c := .numbered) hhandle r
    simp [Session.act, hclose, Holding.isOver, Session.isClosed]

theorem Holding.isOver_drop
    (T : Transport σ η) (y : Holding σ (ℕ × η) β κ ρ) (r : Recorded σ) :
    (y.act T .drop r).1.isOver = true := by
  rcases y with ⟨x, wait⟩ | ⟨body, inner⟩ | _
  · rfl
  · rfl
  · rfl

/-! ## The invariant -/

/-- How a party stands to the record: it holds the handle that was created for it, which has only
been polled, or it is over, and the release was the last call of its handle if it had one. -/
inductive Party.Sound (r : Recorded σ) : Party σ η β κ ρ → Prop
  | live {h : ℕ × η} {holding : Holding σ (ℕ × η) β κ ρ} (shown : List NameSet)
      (hheld : holding.handle? = some h) (hopen : holding.isOver = false)
      (hcalls : r.calls h.1 = shown.map Call.poll) : Sound r ⟨some h.1, holding⟩
  | gone {number : Option ℕ} {holding : Holding σ (ℕ × η) β κ ρ}
      (hlet : holding.handle? = none) (hover : holding.isOver = true)
      (hcalls : ∀ n, number = some n →
        ∃ shown : List NameSet, r.calls n = shown.map Call.poll ++ [.release]) :
      Sound r ⟨number, holding⟩

/-- What is known of a party whose handle has not been called since stays known. -/
theorem Party.Sound.of_same_calls
    {r r' : Recorded σ} {p : Party σ η β κ ρ} (hsound : p.Sound r)
    (hcalls : ∀ n, p.number = some n → r'.calls n = r.calls n) : p.Sound r' := by
  rcases hsound with ⟨shown, hheld, hopen, hpolls⟩ | ⟨hlet, hover, hreleased⟩
  · refine .live shown hheld hopen ?_
    rw [hcalls _ rfl, hpolls]
  · refine .gone hlet hover ?_
    intro n hn
    rw [hcalls n hn]
    exact hreleased n hn

/-- A party whose handle has received no call before the record, and is still held or has been
released since, is sound. -/
theorem Party.sound_of_custody
    {h : ℕ × η} {r r' : Recorded σ} {holding : Holding σ (ℕ × η) β κ ρ} (shown : List NameSet)
    (hcalls : r.calls h.1 = shown.map Call.poll)
    (hcustody : Custody h r r' holding.handle? holding.isOver) :
    Party.Sound r' (⟨some h.1, holding⟩ : Party σ η β κ ρ) := by
  generalize hheld : holding.handle? = held at hcustody
  generalize hover : holding.isOver = gone at hcustody
  rcases hcustody with ⟨later, hadds⟩ | ⟨later, hadds⟩
  · refine .live (shown ++ later) hheld hover ?_
    rw [Recorded.calls_of_polls hadds, hcalls, List.map_append]
  · refine .gone hheld hover ?_
    rintro n ⟨⟩
    refine ⟨shown ++ later, ?_⟩
    rw [Recorded.calls_of_release hadds, hcalls, List.map_append, List.append_assoc]

/-- What a party does calls no handle but its own, and leaves the party sound. -/
theorem Party.sound_act
    (T : Transport σ η) {r : Recorded σ} {p : Party σ η β κ ρ} (hsound : p.Sound r)
    (deed : Deed σ) :
    let out := p.holding.act T deed r
    Party.Sound out.2 { p with holding := out.1 } ∧ out.2.created = r.created ∧
      ∀ m, p.number ≠ some m → out.2.calls m = r.calls m := by
  rcases hsound with
    @⟨h, holding, shown, hheld, hopen, hcalls⟩ | @⟨number, holding, hlet, hover, hcalls⟩
  · have hcustody : Custody h r (holding.act T deed r).2 (holding.act T deed r).1.handle?
        (holding.act T deed r).1.isOver := by
      rcases holding with ⟨x, wait⟩ | ⟨body, inner⟩ | _
      · exact x.act_custody T hheld deed wait r
      · exact inner.act_custody T hheld deed body r
      · cases hheld
    obtain ⟨hcreated, hothers⟩ := hcustody.elsewhere
    refine ⟨Party.sound_of_custody shown hcalls hcustody, hcreated, ?_⟩
    intro m hm
    apply hothers m
    intro hown
    exact hm (by rw [hown])
  · obtain ⟨hover', hlet', hsame⟩ := Holding.act_over T hover hlet deed r
    dsimp only
    rw [hsame]
    exact ⟨.gone hlet' hover' hcalls, rfl, fun _ _ => rfl⟩

namespace System

/-- What every system keeps true: the handles of its parties are numbered as they were created,
handles to come have received no call, and every party is sound. -/
structure Sound (y : System σ η β κ ρ) : Prop where
  numbers : y.parties.filterMap Party.number = List.range y.world.created
  fresh : ∀ n, y.world.created ≤ n → y.world.calls n = []
  parties : ∀ p ∈ y.parties, p.Sound y.world

variable {y : System σ η β κ ρ}

theorem sound_start (s : σ) : Sound (start s : System σ η β κ ρ) := by
  refine ⟨rfl, fun n _ => rfl, ?_⟩
  intro p hp
  cases hp

theorem Sound.number_lt (hsound : y.Sound) {p : Party σ η β κ ρ} (hp : p ∈ y.parties) {n : ℕ}
    (hn : p.number = some n) : n < y.world.created := by
  have hmem : n ∈ y.parties.filterMap Party.number := List.mem_filterMap.mpr ⟨p, hp, hn⟩
  rw [hsound.numbers] at hmem
  exact List.mem_range.mp hmem

/-- A party that has come without a handle is sound if it is over. -/
theorem sound_join_without (hsound : y.Sound) {holding : Holding σ (ℕ × η) β κ ρ}
    (hlet : holding.handle? = none) (hover : holding.isOver = true) :
    (y.join holding y.world).Sound := by
  refine ⟨?_, hsound.fresh, ?_⟩
  · simp [join, hsound.numbers]
  · intro p hp
    rcases List.mem_append.mp hp with hp | hp
    · exact hsound.parties p hp
    · simp only [if_true, List.mem_singleton] at hp
      subst p
      exact .gone hlet hover (by rintro n ⟨⟩)

/-- A party that has come with a handle of its own is sound if it holds it, or has released it
already. -/
theorem sound_join_with (hsound : y.Sound) (handle : η) {r r' : Recorded σ}
    {holding : Holding σ (ℕ × η) β κ ρ} (hcreated : r.created = y.world.created + 1)
    (hcalls : r.calls = y.world.calls)
    (hcustody : Custody (y.world.created, handle) r r' holding.handle? holding.isOver) :
    (y.join holding r').Sound := by
  have hunasked : r.calls y.world.created = [] := by
    rw [hcalls]
    exact hsound.fresh _ (Nat.le_refl _)
  have hnew := Party.sound_of_custody (h := (y.world.created, handle)) [] hunasked hcustody
  obtain ⟨hcreated', hsame⟩ := hcustody.elsewhere
  rw [hcalls] at hsame
  have hnumber : r'.created ≠ y.world.created := by omega
  refine ⟨?_, ?_, ?_⟩
  · simp only [join, hnumber, if_false, List.filterMap_append, hsound.numbers]
    rw [hcreated', hcreated, List.range_succ]
    rfl
  · intro n hn
    have hlater : r'.created ≤ n := hn
    have hother : n ≠ y.world.created := by omega
    have hunborn : y.world.created ≤ n := by omega
    exact (hsame n hother).trans (hsound.fresh n hunborn)
  · intro p hp
    rcases List.mem_append.mp hp with hp | hp
    · refine (hsound.parties p hp).of_same_calls ?_
      intro n hn
      have hlt := hsound.number_lt hp hn
      exact hsame n (Nat.ne_of_lt hlt)
    · simp only [hnumber, if_false, List.mem_singleton] at hp
      subst p
      exact hnew

theorem Sound.number_ne (hsound : y.Sound) {earlier later : List (Party σ η β κ ρ)}
    {p q : Party σ η β κ ρ} (hparties : y.parties = earlier ++ p :: later)
    (hq : q ∈ earlier ++ later) {n : ℕ} (hn : q.number = some n) : p.number ≠ some n := by
  intro hp
  have hnodup : (y.parties.filterMap Party.number).Nodup := by
    rw [hsound.numbers]
    exact List.nodup_range
  simp only [hparties, List.filterMap_append, List.filterMap_cons, hp] at hnodup
  rw [List.nodup_middle, ← List.filterMap_append] at hnodup
  exact (List.nodup_cons.mp hnodup).1 (List.mem_filterMap.mpr ⟨q, hq, hn⟩)

/-- What a party does keeps a system sound. -/
theorem sound_act (T : Transport σ η) (hsound : y.Sound) (i : ℕ) (deed : Deed σ) :
    (y.step T (.act i deed)).Sound := by
  simp only [step]
  split
  · exact hsound
  · rename_i p hi
    obtain ⟨hlt, hget⟩ := List.getElem?_eq_some_iff.mp hi
    have hparties : y.parties = y.parties.take i ++ p :: y.parties.drop (i + 1) := by
      rw [← hget, List.getElem_cons_drop, List.take_append_drop]
    have hmem : p ∈ y.parties := List.mem_of_getElem? hi
    obtain ⟨hact, hcreated, hothers⟩ := Party.sound_act T (hsound.parties p hmem) deed
    rw [List.set_eq_take_append_cons_drop, if_pos hlt]
    refine ⟨?_, ?_, ?_⟩
    · have hnumbers := hsound.numbers
      rw [hparties] at hnumbers
      rw [hcreated, ← hnumbers]
      simp only [List.filterMap_append, List.filterMap_cons]
    · intro n hn
      have hunborn : y.world.created ≤ n := hcreated ▸ hn
      refine (hothers n ?_).trans (hsound.fresh n hunborn)
      intro hnumber
      have hborn := hsound.number_lt hmem hnumber
      omega
    · intro q hq
      by_cases hq' : q ∈ y.parties.take i ++ y.parties.drop (i + 1)
      · have hother : q ∈ y.parties := by
          rw [hparties]
          rcases List.mem_append.mp hq' with hq' | hq'
          · exact List.mem_append_left _ hq'
          · exact List.mem_append_right _ (List.mem_cons_of_mem p hq')
        refine (hsound.parties q hother).of_same_calls ?_
        intro n hn
        exact hothers n (hsound.number_ne hparties hq' hn)
      · have hself : q = { p with holding := (p.holding.act T deed y.world).1 } := by
          simp only [List.mem_append, List.mem_cons] at hq hq'
          rcases hq with hq | hq | hq
          · exact absurd (Or.inl hq) hq'
          · exact hq
          · exact absurd (Or.inr hq) hq'
        rw [hself]
        exact hact

theorem sound_step (T : Transport σ η) (hsound : y.Sound) (move : Move σ η β κ ρ) :
    (y.step T move).Sound := by
  rcases move with change | ⟨expected, settings, identity⟩ |
    ⟨expected, settings, identity, now, body⟩ | ⟨i, deed⟩
  · refine ⟨hsound.numbers, hsound.fresh, ?_⟩
    intro p hp
    exact (hsound.parties p hp).of_same_calls fun _ _ => rfl
  · simp only [step]
    split
    · exact hsound
    · rename_i x r hconnect
      obtain ⟨⟨handle, hhandle⟩, hcreated, hcalls⟩ := Session.connect_recorded hconnect
      refine sound_join_with hsound handle hcreated hcalls ?_
      have hopen : x.isClosed = false := Session.isClosed_of_handle hhandle
      simp only [Holding.handle?, Holding.isOver, hhandle, hopen]
      exact Custody.of_nil (Adds.refl .numbered _ r)
  · simp only [step]
    rcases hconnect : Session.connect T.recorded expected settings identity y.world with e | ⟨x, r⟩
    · rw [Scope.enter_of_connect_error T now hconnect]
      exact sound_join_without hsound rfl rfl
    · obtain ⟨-, hcreated, hcalls⟩ := Session.connect_recorded hconnect
      obtain ⟨handle, hcustody⟩ :=
        Scope.enter_of_connect_ok (β := β) (κ := κ) (ρ := ρ) T now hconnect
      exact sound_join_with hsound handle hcreated hcalls hcustody
  · exact sound_act T hsound i deed

theorem sound_run (T : Transport σ η) (moves : List (Move σ η β κ ρ)) {y : System σ η β κ ρ}
    (hsound : y.Sound) : (y.run T moves).Sound := by
  induction moves generalizing y with
  | nil => exact hsound
  | cons move moves ih => exact ih (sound_step T hsound move)

/-! ## The words of the handles -/

/-- The calls to a handle are polls, and then perhaps a release. -/
theorem Sound.word (hsound : y.Sound) (n : ℕ) :
    ∃ shown : List NameSet, y.world.calls n = shown.map Call.poll ∨
      y.world.calls n = shown.map Call.poll ++ [.release] := by
  by_cases hborn : n < y.world.created
  · have hmem : n ∈ y.parties.filterMap Party.number := by
      rw [hsound.numbers]
      exact List.mem_range.mpr hborn
    obtain ⟨p, hp, hn⟩ := List.mem_filterMap.mp hmem
    rcases hsound.parties p hp with ⟨shown, hheld, hopen, hcalls⟩ | ⟨hlet, hover, hcalls⟩
    · cases hn
      exact ⟨shown, Or.inl hcalls⟩
    · obtain ⟨shown, hword⟩ := hcalls n hn
      exact ⟨shown, Or.inr hword⟩
  · refine ⟨[], Or.inl ?_⟩
    exact hsound.fresh n (Nat.le_of_not_lt hborn)

/-- A handle has been released once if its party is over, and has not been released before. -/
theorem Sound.releases (hsound : y.Sound) {p : Party σ η β κ ρ} (hp : p ∈ y.parties) {n : ℕ}
    (hn : p.number = some n) :
    (y.world.calls n).count .release = if p.holding.isOver then 1 else 0 := by
  have hpolls : ∀ shown : List NameSet, (shown.map Call.poll).count .release = 0 := by
    intro shown
    simp [List.count_eq_zero]
  rcases hsound.parties p hp with ⟨shown, hheld, hopen, hcalls⟩ | ⟨hlet, hover, hcalls⟩
  · cases hn
    simp [hcalls, hpolls, hopen]
  · obtain ⟨shown, hword⟩ := hcalls n hn
    simp [hword, hpolls, hover]

theorem getElem?_step_act (T : Transport σ η) {i : ℕ} {p : Party σ η β κ ρ}
    (hi : y.parties[i]? = some p) (deed : Deed σ) :
    (y.step T (.act i deed)).parties[i]? =
      some { p with holding := (p.holding.act T deed y.world).1 } := by
  obtain ⟨hlt, -⟩ := List.getElem?_eq_some_iff.mp hi
  simp only [step, hi]
  rw [List.getElem?_set_self hlt]

/-- Whatever the transport and the order of moves, the calls to each handle are polls and then at
most one release. Each handle that has been created belongs to one party, and it has been
released exactly once as soon as that party has shut its session down, has left its scope or has
been given up, and not before. A connection that fails creates no handle and calls none. -/
theorem handles_released_exactly_once
    (T : Transport σ η) (s : σ) (moves : List (Move σ η β κ ρ)) :
    let y := (start s).run T moves
    (∀ n, ∃ shown : List NameSet, y.world.calls n = shown.map Call.poll ∨
      y.world.calls n = shown.map Call.poll ++ [.release]) ∧
    y.parties.filterMap Party.number = List.range y.world.created ∧
    (∀ n, y.world.created ≤ n → y.world.calls n = []) ∧
    (∀ p ∈ y.parties, ∀ n, p.number = some n →
      (y.world.calls n).count .release = if p.holding.isOver then 1 else 0) ∧
    (∀ i number x wait, y.parties[i]? = some ⟨number, .session x wait⟩ →
      ∃ holding, (y.step T (.act i .close)).parties[i]? = some ⟨number, holding⟩ ∧
        holding.isOver = true) ∧
    (∀ i p, y.parties[i]? = some p →
      ∃ holding, (y.step T (.act i .drop)).parties[i]? = some ⟨p.number, holding⟩ ∧
        holding.isOver = true) ∧
    (∀ expected settings identity e,
      Session.connect T.recorded expected settings identity y.world = .error e →
        y.step T (.connect expected settings identity) = y ∧
        ∀ now body, (y.step T (.enter expected settings identity now body)).world = y.world) := by
  intro y
  have hsound : y.Sound := sound_run T moves (sound_start s)
  refine ⟨hsound.word, hsound.numbers, hsound.fresh, ?_, ?_, ?_, ?_⟩
  · intro p hp n hn
    exact hsound.releases hp hn
  · intro i number x wait hi
    exact ⟨_, getElem?_step_act T hi .close, x.isOver_close T wait y.world⟩
  · intro i p hi
    exact ⟨_, getElem?_step_act T hi .drop, p.holding.isOver_drop T y.world⟩
  · intro expected settings identity e hconnect
    constructor
    · simp only [step, hconnect]
    · intro now body
      simp only [step, Scope.enter_of_connect_error T now hconnect]
      rfl

end System

end RollCall
