import Mathlib.Data.List.Forall2
import Mathlib.Data.List.Perm.Basic
import RollCall.Launch
import RollCall.Proofs.Attendance

/-!
# A launch amid others

The tasks of a launch take their turns in any order and at any time, in the midst of what everybody
else does on the same registry. At some moment the launch may be stopped; whoever stops it waits
for its tasks, one after the other, until each has finished.

For the registry a participant that has joined is one more guest. So the invariant `Sound` says
that the others and the participants together are `Attended`, and reads the stage of every task
off the clock and the entrant it is for. A task may take its first turn late, and only then does
its delay begin.
-/

namespace RollCall

/-! ## Turns of one task -/

namespace Task

def claim (t : Task) : Option String :=
  match t.stage with
  | .present => some t.name
  | _ => none

/-- What a turn makes of a task and of the registry. -/
inductive Turn (stopped : Bool) (now : Instant) (t : Task) (r : Registry) : Task → Registry → Prop
  | waits (due : Instant) (hstage : t.stage = .pending due) (hearly : ¬ due ≤ now)
      (hrunning : stopped = false) : Turn stopped now t r t r
  | joins (due : Instant) (hstage : t.stage = .pending due) (hdue : due ≤ now) :
      Turn stopped now t r ⟨t.name, .present⟩ (r.join t.name)
  | cancelled (due : Instant) (hstage : t.stage = .pending due) (hstopped : stopped = true) :
      Turn stopped now t r ⟨t.name, .gone⟩ r
  | stays (hstage : t.stage = .present) (hrunning : stopped = false) : Turn stopped now t r t r
  | leaves (hstage : t.stage = .present) (hstopped : stopped = true) :
      Turn stopped now t r ⟨t.name, .gone⟩ (r.leave t.name)
  | finished (hstage : t.stage = .gone) : Turn stopped now t r t r

theorem turn_step (timerFirst stopped : Bool) (now : Instant) (t : Task) (r : Registry) :
    let out := t.step timerFirst stopped now r
    Turn stopped now t r out.1 out.2 := by
  obtain ⟨name, stage⟩ := t
  cases stage with
  | gone => exact .finished rfl
  | present =>
    cases stopped with
    | false => exact .stays rfl rfl
    | true => exact .leaves rfl rfl
  | pending due =>
    simp only [step]
    split
    · rename_i hnoticed
      exact .cancelled due rfl (Bool.and_elim_left hnoticed)
    · rename_i hunnoticed
      split
      · rename_i hdue
        exact .joins due rfl hdue
      · rename_i hearly
        refine .waits due rfl hearly ?_
        simpa [hearly] using hunnoticed

theorem Turn.eq_of_gone {stopped : Bool} {now : Instant} {t t' : Task} {r r' : Registry}
    (h : Turn stopped now t r t' r') (hgone : t.stage = .gone) : t' = t ∧ r' = r := by
  cases h with
  | waits => exact ⟨rfl, rfl⟩
  | stays => exact ⟨rfl, rfl⟩
  | finished => exact ⟨rfl, rfl⟩
  | joins due hstage => exact nomatch hgone.symm.trans hstage
  | cancelled due hstage => exact nomatch hgone.symm.trans hstage
  | leaves hstage => exact nomatch hgone.symm.trans hstage

end Task

/-! ## What a task must be -/

/-- An entrant whose task takes its first turn, with which its delay begins, some time after the
launch. -/
structure Spawned where
  entrant : Entrant
  lag : Duration

namespace Spawned

variable (began : Instant) (p : Spawned)

def due : Instant := (⟨began.nanos + p.lag.nanos⟩ : Instant).afterSleep p.entrant.delay

theorem le_due : began.afterSleep p.entrant.delay ≤ p.due began :=
  Nat.add_le_add_right (Nat.le_add_right _ _) _

def task : Task := ⟨p.entrant.name, .pending (p.due began)⟩

end Spawned

/-- A task of a launch that began at an instant stands as its entrant and its lag ask. -/
structure Task.Keeps (began now : Instant) (stopped : Bool) (p : Spawned) (t : Task) : Prop where
  name : t.name = p.entrant.name
  pending : ∀ due, t.stage = .pending due → due = p.due began
  present : t.stage = .present → p.due began ≤ now
  gone : t.stage = .gone → stopped = true

namespace Task.Keeps

variable {began now : Instant} {stopped : Bool} {p : Spawned} {t : Task}

theorem later (h : t.Keeps began now stopped p) {now' : Instant} (hle : now ≤ now') :
    t.Keeps began now' stopped p where
  name := h.name
  pending := h.pending
  present hstage := Nat.le_trans (h.present hstage) hle
  gone := h.gone

theorem stop (h : t.Keeps began now stopped p) : t.Keeps began now true p where
  name := h.name
  pending := h.pending
  present := h.present
  gone _ := rfl

theorem finish (h : t.Keeps began now stopped p) (hstopped : stopped = true) :
    Task.Keeps began now stopped p ⟨t.name, .gone⟩ where
  name := h.name
  pending _ hpending := nomatch hpending
  present hpresent := nomatch hpresent
  gone _ := hstopped

theorem turn (h : t.Keeps began now stopped p) {r r' : Registry} {t' : Task}
    (hturn : t.Turn stopped now r t' r') : t'.Keeps began now stopped p := by
  cases hturn with
  | waits => exact h
  | stays => exact h
  | finished => exact h
  | joins due hstage hdue =>
    refine ⟨h.name, fun _ hpending => (nomatch hpending), fun _ => ?_, fun hgone => (nomatch hgone)⟩
    rw [← h.pending due hstage]
    exact hdue
  | cancelled due hstage hstopped => exact h.finish hstopped
  | leaves hstage hstopped => exact h.finish hstopped

end Task.Keeps

/-! ## What the tasks of a launch claim -/

/-- The names of the participants that have joined, each as often as one of them bears it. -/
def Launch.claims (l : Launch) : List String := l.tasks.filterMap Task.claim

theorem Task.filterMap_claim_cons (t : Task) (tasks : List Task) :
    (t :: tasks).filterMap claim = t.claim.toList ++ tasks.filterMap claim := by
  cases hclaim : t.claim with
  | none => simp [hclaim]
  | some name => simp [hclaim]

/-- What the other tasks claim stays when one of them has taken a turn. -/
theorem Launch.exists_other_claims {l : Launch} {i : ℕ} {t : Task} (ht : l.tasks[i]? = some t) :
    ∃ rest, l.claims.Perm (t.claim.toList ++ rest) ∧
      ∀ t', ({ l with tasks := l.tasks.set i t' } : Launch).claims.Perm
        (t'.claim.toList ++ rest) := by
  obtain ⟨hi, rfl⟩ := List.getElem?_eq_some_iff.mp ht
  refine ⟨(l.tasks.eraseIdx i).filterMap Task.claim, ?_, ?_⟩
  · rw [← Task.filterMap_claim_cons]
    exact (List.getElem_cons_eraseIdx_perm hi).symm.filterMap _
  · intro t'
    rw [← Task.filterMap_claim_cons]
    exact (List.set_perm_cons_eraseIdx hi t').filterMap _

/-! ## Launches amid others -/

/-- A launch amid all others who use its registry. Whoever stops it has seen so many of its tasks
finish, in their order. -/
structure Scene where
  others : Gathering
  launch : Launch
  awaited : ℕ

namespace Scene

inductive Move
  /-- Time passes, or somebody does something that the launch has no part in. -/
  | outside (move : Gathering.Move)
  /-- A task takes a turn. When the launch has been stopped and the delay has ended, `timerFirst`
  says which of the two the task notices. -/
  | turn (i : ℕ) (timerFirst : Bool)
  | stop
  /-- Whoever stops the launch looks whether the next task has finished. -/
  | await

/-- What others do in a move. -/
def Move.outside? : Move → Option Gathering.Move
  | .outside move => some move
  | _ => none

def start (y : Gathering) (spawned : List Spawned) : Scene :=
  ⟨y, ⟨spawned.map (Spawned.task y.now), false⟩, 0⟩

/-- In a launch without lags all delays begin with the launch. -/
theorem start_prompt (y : Gathering) (entrants : List Entrant) :
    start y (entrants.map (⟨·, Duration.zero⟩)) = ⟨y, Launch.start entrants y.now, 0⟩ := by
  simp [start, Launch.start, Function.comp_def, Spawned.task, Spawned.due, Duration.zero]

/-- The scene with a task and the registry as a turn of that task has left them. -/
def put (s : Scene) (i : ℕ) (t : Task) (r : Registry) : Scene :=
  { s with others.registry := r, launch.tasks := s.launch.tasks.set i t }

def step (s : Scene) : Move → Scene
  | .outside move => { s with others := (s.others.step move).2 }
  | .turn i timerFirst =>
    match s.launch.tasks[i]? with
    | none => s
    | some t =>
      let (t, r) := t.step timerFirst s.launch.stopped s.others.now s.others.registry
      s.put i t r
  | .stop => { s with launch := s.launch.stop }
  | .await =>
    match s.launch.tasks[s.awaited]? with
    | some ⟨_, .gone⟩ => { s with awaited := s.awaited + 1 }
    | _ => s

def run (s : Scene) (moves : List Move) : Scene := moves.foldl step s

/-- The launch has been stopped, and all its tasks have been seen to finish. -/
def Returned (s : Scene) : Prop :=
  s.launch.stopped = true ∧ s.awaited = s.launch.tasks.length

/-- A turn leaves the scene as one turn of its task leaves it, unless there is no such task. -/
theorem turn_cases (s : Scene) (i : ℕ) (timerFirst : Bool) :
    (s.launch.tasks[i]? = none ∧ s.step (.turn i timerFirst) = s) ∨
      ∃ t t' r', s.launch.tasks[i]? = some t ∧
        t.Turn s.launch.stopped s.others.now s.others.registry t' r' ∧
        s.step (.turn i timerFirst) = s.put i t' r' := by
  simp only [step]
  split
  · rename_i hnone
    exact Or.inl ⟨hnone, rfl⟩
  · rename_i t ht
    exact Or.inr ⟨t, _, _, ht, t.turn_step timerFirst _ _ _, rfl⟩

/-- All who use the registry, with the participants that have joined among the guests. -/
def crowd (s : Scene) : Gathering :=
  { s.others with guests := s.others.guests ++ s.launch.claims }

variable {s : Scene} {ids : Finset ℕ}

/-! ## Everybody together -/

/-- What somebody else does is the same among everybody. A guest of the others who leaves is the
first of that name. -/
theorem crowd_outside (s : Scene) (move : Gathering.Move) :
    (s.step (.outside move)).crowd = (s.crowd.step move).2 ∨ s.step (.outside move) = s := by
  cases move with
  | leave name =>
    by_cases hguest : name ∈ s.others.guests
    · left
      have hcrowd : name ∈ s.crowd.guests := List.mem_append_left _ hguest
      simp only [step, Gathering.step, if_pos hguest, if_pos hcrowd]
      simp only [crowd, List.erase_append_left _ hguest]
    · right
      simp only [step, Gathering.step, if_neg hguest]
  | _ => exact Or.inl rfl

/-- A turn of a task is, for everybody together, a guest who joins or leaves, or nothing. -/
theorem attended_put (hattended : Gathering.Attended ids s.crowd) {i : ℕ} {t t' : Task}
    {r' : Registry} (ht : s.launch.tasks[i]? = some t)
    (hturn : t.Turn s.launch.stopped s.others.now s.others.registry t' r') :
    Gathering.Attended ids (s.put i t' r').crowd := by
  obtain ⟨rest, hbefore, hafter⟩ := Launch.exists_other_claims ht
  have hsame (hclaim : t'.claim = t.claim) (hregistry : r' = s.others.registry) :
      Gathering.Attended ids (s.put i t' r').crowd := by
    subst hregistry
    have hclaims := (hafter t').trans (hclaim ▸ hbefore.symm)
    exact hattended.of_perm (hclaims.append_left _)
  cases hturn with
  | waits => exact hsame rfl rfl
  | stays => exact hsame rfl rfl
  | finished => exact hsame rfl rfl
  | cancelled due hstage hstopped => exact hsame (by simp [Task.claim, hstage]) rfl
  | joins due hstage hdue =>
    have hnone : t.claim = none := by simp [Task.claim, hstage]
    rw [hnone] at hbefore
    have hclaims := (hafter ⟨t.name, .present⟩).trans (hbefore.symm.cons t.name)
    have hjoined := hattended.join t.name
    exact hjoined.of_perm ((hclaims.append_left _).trans List.perm_middle)
  | leaves hstage hstopped =>
    have hclaim : t.claim = some t.name := by simp [Task.claim, hstage]
    rw [hclaim] at hbefore
    have hclaims := hbefore.trans ((hafter ⟨t.name, .gone⟩).symm.cons t.name)
    have hguests := (hclaims.append_left s.others.guests).trans List.perm_middle
    have hguest : t.name ∈ s.crowd.guests := hguests.mem_iff.mpr List.mem_cons_self
    have hleft := hattended.leave hguest
    have herased := hguests.erase t.name
    rw [List.erase_cons_head] at herased
    exact hleft.of_perm herased.symm

/-! ## The invariant -/

/-- What a relation says of all tasks it says after a turn of one of them, if the turn keeps it. -/
theorem forall₂_set {R : Spawned → Task → Prop} {spawned : List Spawned} {tasks : List Task}
    (h : List.Forall₂ R spawned tasks) {i : ℕ} {t t' : Task} (ht : tasks[i]? = some t)
    (hturn : ∀ p, R p t → R p t') : List.Forall₂ R spawned (tasks.set i t') := by
  induction h generalizing i with
  | nil => exact nomatch ht
  | cons hfirst hrest ih =>
    cases i with
    | zero =>
      cases ht
      exact .cons (hturn _ hfirst) hrest
    | succ i => exact .cons hfirst (ih ht)

/-- Everybody is counted, every task stands as it should, and whatever has been seen to
finish has finished. -/
structure Sound (ids : Finset ℕ) (began : Instant) (spawned : List Spawned) (s : Scene) :
    Prop where
  attended : Gathering.Attended ids s.crowd
  keeps : List.Forall₂ (Task.Keeps began s.others.now s.launch.stopped) spawned s.launch.tasks
  seen : ∀ i < s.awaited, ∃ t, s.launch.tasks[i]? = some t ∧ t.stage = .gone

variable {began : Instant} {spawned : List Spawned}

theorem now_le_step (y : Gathering) (move : Gathering.Move) : y.now ≤ (y.step move).2.now := by
  cases move with
  | pass time => exact Nat.le_add_right _ _
  | leave name =>
    simp only [Gathering.step]
    split <;> exact Nat.le_refl _
  | _ => exact Nat.le_refl _

theorem sound_start {y : Gathering} (hy : Gathering.Attended ids y) (spawned : List Spawned) :
    Sound ids y.now spawned (start y spawned) where
  attended := by
    refine hy.of_perm (List.Perm.of_eq ?_)
    simp [start, Launch.claims, Spawned.task, Task.claim]
  keeps := by
    refine List.forall₂_map_right_iff.mpr (List.forall₂_same.mpr fun p _ => ?_)
    exact ⟨rfl, fun _ hpending => (Stage.pending.inj hpending).symm,
      fun hpresent => (nomatch hpresent), fun hgone => (nomatch hgone)⟩
  seen _ hi := nomatch hi

namespace Sound

theorem outside (h : Sound ids began spawned s) {move : Gathering.Move}
    (hmove : ∀ i, move.number? = some i → i ∈ ids) :
    Sound ids began spawned (s.step (.outside move)) where
  attended := by
    rcases s.crowd_outside move with hcrowd | hsame
    · rw [hcrowd]
      exact h.attended.step hmove
    · rw [hsame]
      exact h.attended
  keeps := h.keeps.imp fun _ _ ht => ht.later (now_le_step s.others move)
  seen := h.seen

theorem turn (h : Sound ids began spawned s) (i : ℕ) (timerFirst : Bool) :
    Sound ids began spawned (s.step (.turn i timerFirst)) := by
  rcases s.turn_cases i timerFirst with ⟨-, hsame⟩ | ⟨t, t', r', ht, hturn, hput⟩
  · rw [hsame]
    exact h
  · rw [hput]
    refine ⟨attended_put h.attended ht hturn, ?_, ?_⟩
    · exact forall₂_set h.keeps ht fun p hkeeps => hkeeps.turn hturn
    · intro j hj
      obtain ⟨u, hu, hgone⟩ := h.seen j hj
      by_cases hij : i = j
      · subst hij
        cases ht.symm.trans hu
        obtain ⟨hi, -⟩ := List.getElem?_eq_some_iff.mp ht
        obtain ⟨rfl, rfl⟩ := hturn.eq_of_gone hgone
        exact ⟨t', List.getElem?_set_self hi, hgone⟩
      · exact ⟨u, (List.getElem?_set_ne hij).trans hu, hgone⟩

theorem stop (h : Sound ids began spawned s) : Sound ids began spawned (s.step .stop) where
  attended := h.attended
  keeps := h.keeps.imp fun _ _ ht => ht.stop
  seen := h.seen

theorem await (h : Sound ids began spawned s) : Sound ids began spawned (s.step .await) := by
  simp only [step]
  split
  · rename_i name ht
    refine ⟨h.attended, h.keeps, ?_⟩
    intro i hi
    rcases Nat.lt_succ_iff_lt_or_eq.mp hi with hlt | rfl
    · exact h.seen i hlt
    · exact ⟨_, ht, rfl⟩
  · exact h

theorem step (h : Sound ids began spawned s) {move : Move}
    (hmove : ∀ m, move.outside? = some m → ∀ i, m.number? = some i → i ∈ ids) :
    Sound ids began spawned (s.step move) := by
  cases move with
  | outside m => exact h.outside (hmove m rfl)
  | turn i timerFirst => exact h.turn i timerFirst
  | stop => exact h.stop
  | await => exact h.await

theorem run {moves : List Move} (h : Sound ids began spawned s)
    (hmoves : ∀ m ∈ moves.filterMap Move.outside?, ∀ i, m.number? = some i → i ∈ ids) :
    Sound ids began spawned (s.run moves) := by
  induction moves generalizing s with
  | nil => exact h
  | cons move moves ih =>
    have hmove : ∀ m, move.outside? = some m → ∀ i, m.number? = some i → i ∈ ids := by
      intro m hm
      exact hmoves m (List.mem_filterMap.mpr ⟨move, List.mem_cons_self, hm⟩)
    refine ih (h.step hmove) ?_
    intro m hm
    obtain ⟨later, hlater, hm⟩ := List.mem_filterMap.mp hm
    exact hmoves m (List.mem_filterMap.mpr ⟨later, List.mem_cons_of_mem _ hlater, hm⟩)

end Sound

end Scene

end RollCall
