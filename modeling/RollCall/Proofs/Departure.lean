import RollCall.Proofs.Scene

/-!
# Launches leave no trace

The participants of a launch join when their delays are over and not before, each once, whatever
the others do and whatever their names are. When whoever has stopped the launch has seen all its
tasks finish, the registry counts the others and nobody else, and no turn of a task, sooner or
later, changes that.

A stopped task finishes with its second turn at the latest: with the first it may still join, if
its delay has ended at the same moment. So the tasks finish under every order in which each of them
takes its turns, and then they are seen to.
-/

namespace RollCall

namespace Task

variable {t t' : Task} {name : String}

theorem claim_eq_some_iff : t.claim = some name ↔ t.stage = .present ∧ t.name = name := by
  obtain ⟨own, stage⟩ := t
  cases stage with
  | present => simp [claim]
  | pending due => simp [claim]
  | gone => simp [claim]

theorem claim_eq_none (hgone : t.stage = .gone) : t.claim = none := by simp [claim, hgone]

/-- How many turns a stopped task takes at most until it has finished. -/
def turnsLeft (t : Task) : ℕ :=
  match t.stage with
  | .pending _ => 2
  | .present => 1
  | .gone => 0

theorem turnsLeft_le (t : Task) : t.turnsLeft ≤ 2 := by
  unfold turnsLeft
  split <;> decide

theorem gone_of_turnsLeft (hnone : t.turnsLeft = 0) : t.stage = .gone := by
  obtain ⟨name, stage⟩ := t
  cases stage with
  | pending due => exact nomatch hnone
  | present => exact nomatch hnone
  | gone => rfl

theorem Turn.turnsLeft_le {now : Instant} {r r' : Registry} (h : Turn true now t r t' r') :
    t'.turnsLeft ≤ t.turnsLeft - 1 := by
  cases h with
  | waits due hstage hearly hrunning => exact nomatch hrunning
  | stays hstage hrunning => exact nomatch hrunning
  | joins due hstage => simp [turnsLeft, hstage]
  | cancelled => exact Nat.zero_le _
  | leaves => exact Nat.zero_le _
  | finished hstage => simp [turnsLeft, hstage]

namespace Keeps

variable {began now : Instant} {p : Spawned}

/-- A task that is not stopped joins with its first turn after its delay. -/
theorem joins {r r' : Registry}
    (h : t.Keeps began now false p) (hdue : p.due began ≤ now)
    (hturn : t.Turn false now r t' r') : t' = ⟨p.entrant.name, .present⟩ := by
  obtain ⟨name, stage⟩ := t
  obtain rfl : name = p.entrant.name := h.name
  cases hturn with
  | waits due hstage hearly =>
    rw [h.pending due hstage] at hearly
    exact absurd hdue hearly
  | joins => rfl
  | cancelled due hstage hstopped => exact nomatch hstopped
  | stays hstage =>
    obtain rfl : stage = .present := hstage
    rfl
  | leaves hstage hstopped => exact nomatch hstopped
  | finished hstage => exact nomatch h.gone hstage

/-- Whoever has joined has a delay that is over since the launch. -/
theorem elapsed {stopped : Bool} (h : t.Keeps began now stopped p) (hpresent : t.stage = .present) :
    began.afterSleep p.entrant.delay ≤ now :=
  Nat.le_trans (p.le_due began) (h.present hpresent)

/-- Of all tasks that stand as they should, those that claim a name are due. -/
theorem countP_claim_le {stopped : Bool} {spawned : List Spawned} {tasks : List Task}
    (h : List.Forall₂ (Keeps began now stopped) spawned tasks) (name : String) :
    (tasks.filterMap claim).count name ≤
      spawned.countP fun p =>
        p.entrant.name = name ∧ began.afterSleep p.entrant.delay ≤ now := by
  rw [List.count_filterMap]
  induction h with
  | nil => exact Nat.le_refl _
  | cons hkeeps _ ih =>
    rw [List.countP_cons, List.countP_cons]
    refine Nat.add_le_add ih ?_
    split
    · rename_i hclaim
      obtain ⟨hpresent, hname⟩ := claim_eq_some_iff.mp (eq_of_beq hclaim)
      have hdue := hkeeps.elapsed hpresent
      simp [← hkeeps.name, hname, hdue]
    · exact Nat.zero_le _

end Keeps

end Task

namespace Scene

variable {s : Scene} {ids : Finset ℕ} {began : Instant} {spawned : List Spawned}

/-! ## On time -/

namespace Sound

theorem exists_task (h : Sound ids began spawned s) {i : ℕ} {p : Spawned}
    (hp : spawned[i]? = some p) :
    ∃ t, s.launch.tasks[i]? = some t ∧ t.Keeps began s.others.now s.launch.stopped p := by
  obtain ⟨hi, rfl⟩ := List.getElem?_eq_some_iff.mp hp
  have hlength := h.keeps.length_eq
  have hi' : i < s.launch.tasks.length := hlength ▸ hi
  exact ⟨s.launch.tasks[i], List.getElem?_eq_getElem hi', h.keeps.get hi hi'⟩

theorem joins (h : Sound ids began spawned s) (hrunning : s.launch.stopped = false) {i : ℕ}
    {p : Spawned} (hp : spawned[i]? = some p) (hdue : p.due began ≤ s.others.now)
    (timerFirst : Bool) :
    (s.step (.turn i timerFirst)).launch.tasks[i]? = some ⟨p.entrant.name, .present⟩ := by
  obtain ⟨u, hu, hkeeps⟩ := h.exists_task hp
  rcases s.turn_cases i timerFirst with ⟨hnone, -⟩ | ⟨t, t', r', ht, hturn, hput⟩
  · cases hu.symm.trans hnone
  · cases hu.symm.trans ht
    rw [hrunning] at hkeeps hturn
    obtain rfl := hkeeps.joins hdue hturn
    obtain ⟨hi, -⟩ := List.getElem?_eq_some_iff.mp ht
    rw [hput]
    exact List.getElem?_set_self hi

/-- No more participants of a name are there than have been due. -/
theorem count_claims_le (h : Sound ids began spawned s) (name : String) :
    s.launch.claims.count name ≤
      spawned.countP fun p =>
        p.entrant.name = name ∧ began.afterSleep p.entrant.delay ≤ s.others.now :=
  Task.Keeps.countP_claim_le h.keeps name

theorem awaited_le (h : Sound ids began spawned s) : s.awaited ≤ s.launch.tasks.length := by
  by_contra hlt
  obtain ⟨t, ht, -⟩ := h.seen _ (Nat.lt_of_not_le hlt)
  simp at ht

theorem count (h : Sound ids began spawned s) (name : String) :
    s.others.registry.count name =
      s.others.guests.count name + Gathering.bearers ids s.others.members name +
        s.launch.claims.count name := by
  have hcount := h.attended.count name
  simp only [crowd, List.count_append] at hcount
  omega

end Sound

/-! ## After the stop -/

/-- A move neither adds a task nor takes one away, and a stop is not taken back. -/
theorem step_keeps (s : Scene) (move : Move) :
    (s.step move).launch.tasks.length = s.launch.tasks.length ∧
      (s.launch.stopped = true → (s.step move).launch.stopped = true) := by
  cases move with
  | outside move => exact ⟨rfl, id⟩
  | stop => exact ⟨rfl, fun _ => rfl⟩
  | turn i timerFirst =>
    rcases s.turn_cases i timerFirst with ⟨-, hsame⟩ | ⟨t, t', r', -, -, hput⟩
    · rw [hsame]
      exact ⟨rfl, id⟩
    · rw [hput]
      exact ⟨List.length_set, id⟩
  | await =>
    simp only [step]
    split <;> exact ⟨rfl, id⟩

theorem run_keeps (s : Scene) (moves : List Move) :
    (s.run moves).launch.tasks.length = s.launch.tasks.length ∧
      (s.launch.stopped = true → (s.run moves).launch.stopped = true) := by
  induction moves generalizing s with
  | nil => exact ⟨rfl, id⟩
  | cons move moves ih =>
    obtain ⟨hlength, hstopped⟩ := s.step_keeps move
    obtain ⟨hlength', hstopped'⟩ := ih (s.step move)
    exact ⟨hlength'.trans hlength, hstopped' ∘ hstopped⟩

/-- The launch is over: it has been stopped, all its tasks have finished and have been seen to. -/
structure Over (s : Scene) : Prop where
  returned : s.Returned
  finished : ∀ t ∈ s.launch.tasks, t.stage = .gone

theorem Sound.over (h : Sound ids began spawned s) (hreturned : s.Returned) : s.Over := by
  refine ⟨hreturned, ?_⟩
  intro t ht
  obtain ⟨i, hi, rfl⟩ := List.mem_iff_getElem.mp ht
  obtain ⟨u, hu, hgone⟩ := h.seen i (hreturned.2 ▸ hi)
  cases (List.getElem?_eq_getElem hi).symm.trans hu
  exact hgone

namespace Over

theorem claims_eq_nil (h : s.Over) : s.launch.claims = [] := by
  rw [Launch.claims, List.filterMap_eq_nil_iff]
  intro t ht
  exact Task.claim_eq_none (h.finished t ht)

theorem step_eq (h : s.Over) {move : Move} (hours : move.outside? = none) : s.step move = s := by
  cases move with
  | outside move => cases hours
  | stop =>
    have hstop : s.launch.stop = s.launch := by rw [Launch.stop, ← h.returned.1]
    simp only [step, hstop]
  | await =>
    have hnone : s.launch.tasks[s.awaited]? = none :=
      List.getElem?_eq_none (Nat.le_of_eq h.returned.2.symm)
    simp only [step, hnone]
  | turn i timerFirst =>
    rcases s.turn_cases i timerFirst with ⟨-, hsame⟩ | ⟨t, t', r', ht, hturn, hput⟩
    · exact hsame
    · obtain ⟨hi, rfl⟩ := List.getElem?_eq_some_iff.mp ht
      have hgone := h.finished _ (List.getElem_mem hi)
      obtain ⟨rfl, rfl⟩ := hturn.eq_of_gone hgone
      rw [hput, put, List.set_getElem_self]

theorem step (h : s.Over) (move : Move) : (s.step move).Over := by
  cases hours : move.outside? with
  | none =>
    rw [h.step_eq hours]
    exact h
  | some m =>
    cases move with
    | outside move => exact ⟨h.returned, h.finished⟩
    | _ => cases hours

theorem run (h : s.Over) (moves : List Move) : (s.run moves).Over := by
  induction moves generalizing s with
  | nil => exact h
  | cons move moves ih => exact ih (h.step move)

end Over

/-! ## Until all have finished -/

def Move.isTurnOf (i : ℕ) : Move → Bool
  | .turn j _ => j = i
  | _ => false

/-- How many turns a task takes at most until it has finished; none if there is no such task. -/
def turnsLeft (s : Scene) (i : ℕ) : ℕ := (s.launch.tasks[i]?).elim 0 Task.turnsLeft

theorem turnsLeft_le (s : Scene) (i : ℕ) : s.turnsLeft i ≤ 2 := by
  unfold turnsLeft
  cases s.launch.tasks[i]? with
  | none => exact Nat.zero_le 2
  | some t => exact t.turnsLeft_le

/-- Only turns of a stopped task bring it to its end, and each turn does. -/
theorem turnsLeft_step (hstopped : s.launch.stopped = true) (move : Move) (i : ℕ) :
    (s.step move).turnsLeft i ≤ s.turnsLeft i - if move.isTurnOf i then 1 else 0 := by
  cases move with
  | outside move => exact Nat.le_refl _
  | stop => exact Nat.le_refl _
  | await =>
    simp only [step]
    split <;> exact Nat.le_refl _
  | turn j timerFirst =>
    rcases s.turn_cases j timerFirst with ⟨hnone, hsame⟩ | ⟨t, t', r', ht, hturn, hput⟩
    · rw [hsame]
      by_cases hij : j = i
      · subst hij
        simp [turnsLeft, hnone]
      · simp [Move.isTurnOf, hij]
    · rw [hput]
      rw [hstopped] at hturn
      by_cases hij : j = i
      · subst hij
        obtain ⟨hj, rfl⟩ := List.getElem?_eq_some_iff.mp ht
        simpa [turnsLeft, put, Move.isTurnOf, hj] using hturn.turnsLeft_le
      · simp [turnsLeft, put, Move.isTurnOf, hij]

theorem turnsLeft_run (hstopped : s.launch.stopped = true) (moves : List Move) (i : ℕ) :
    (s.run moves).turnsLeft i ≤ s.turnsLeft i - moves.countP (Move.isTurnOf i) := by
  induction moves generalizing s with
  | nil => exact Nat.le_refl _
  | cons move moves ih =>
    have hstep := turnsLeft_step hstopped move i
    have hrun := ih ((s.step_keeps move).2 hstopped)
    rw [List.countP_cons]
    simp only [run, List.foldl_cons] at hrun ⊢
    omega

/-- When each task of a stopped launch has taken two turns, all have finished. -/
theorem finished_run (hstopped : s.launch.stopped = true) {moves : List Move}
    (hturns : ∀ i < s.launch.tasks.length, 2 ≤ moves.countP (Move.isTurnOf i)) :
    ∀ t ∈ (s.run moves).launch.tasks, t.stage = .gone := by
  intro t ht
  obtain ⟨i, hi, rfl⟩ := List.mem_iff_getElem.mp ht
  have hturnsLeft : (s.run moves).turnsLeft i = (s.run moves).launch.tasks[i].turnsLeft := by
    simp [turnsLeft, hi]
  have htwo := hturns i ((s.run_keeps moves).1 ▸ hi)
  have hrun := turnsLeft_run hstopped moves i
  have hbefore := s.turnsLeft_le i
  apply Task.gone_of_turnsLeft
  omega

/-- Whoever waits for tasks that have finished gets on with each look, until all have been seen. -/
theorem step_await (hfinished : ∀ t ∈ s.launch.tasks, t.stage = .gone)
    (hle : s.awaited ≤ s.launch.tasks.length) :
    s.step .await = { s with awaited := min (s.awaited + 1) s.launch.tasks.length } := by
  rcases Nat.lt_or_eq_of_le hle with hlt | heq
  · have hnext : s.launch.tasks[s.awaited]? = some ⟨s.launch.tasks[s.awaited].name, .gone⟩ := by
      rw [List.getElem?_eq_getElem hlt, ← hfinished _ (List.getElem_mem hlt)]
    simp only [step, hnext, Nat.min_eq_left (Nat.succ_le_of_lt hlt)]
  · have hnone : s.launch.tasks[s.awaited]? = none := List.getElem?_eq_none (Nat.le_of_eq heq.symm)
    simp only [step, hnone, ← heq, Nat.min_eq_right (Nat.le_succ s.awaited)]

theorem run_await (hfinished : ∀ t ∈ s.launch.tasks, t.stage = .gone)
    (hle : s.awaited ≤ s.launch.tasks.length) (k : ℕ) :
    s.run (List.replicate k .await) =
      { s with awaited := min (s.awaited + k) s.launch.tasks.length } := by
  induction k generalizing s with
  | zero => simp [run, hle]
  | succ k ih =>
    let next : Scene := { s with awaited := min (s.awaited + 1) s.launch.tasks.length }
    have hnext : s.run (List.replicate (k + 1) .await) = next.run (List.replicate k .await) := by
      rw [List.replicate_succ, run, List.foldl_cons, step_await hfinished hle]
      rfl
    have hrest : next.run (List.replicate k .await) =
        { next with awaited := min (next.awaited + k) s.launch.tasks.length } :=
      ih hfinished (Nat.min_le_right _ _)
    have hmin : min (next.awaited + k) s.launch.tasks.length =
        min (s.awaited + (k + 1)) s.launch.tasks.length := by
      dsimp only [next]
      omega
    rw [hnext, hrest, hmin]

/-- The participants of a launch join when their delays are over, or the longest sleep if that is
shorter, and leave no trace. Whatever the others have done before and do meanwhile, and in whatever
order the tasks take their turns: each name is counted as often as the others bear it and tasks
have joined under it; a task has joined only if its delay is over since the launch, and if it is
over since its first turn and the task is not stopped, it has joined after its next turn. When
whoever has stopped the launch has seen all tasks finish, the others are counted and nobody else,
and so it stays, for nothing that the launch does has any effect; and all tasks are seen to finish
when each has taken two turns after the stop. -/
theorem launch_leaves_no_trace (now : Instant) (before : List Gathering.Move)
    (spawned : List Spawned) (moves later : List Move) :
    let y := (Gathering.start now Registry.empty).run before
    let s := (start y spawned).run moves
    let s' := s.run later
    let ids := Gathering.numbers (before ++ (moves ++ later).filterMap Move.outside?)
    let others (s : Scene) name :=
      s.others.guests.count name + Gathering.bearers ids s.others.members name
    (∀ name, s.others.registry.count name = others s name + s.launch.claims.count name) ∧
    (∀ name, s.launch.claims.count name ≤
      spawned.countP fun p =>
        p.entrant.name = name ∧ y.now.afterSleep p.entrant.delay ≤ s.others.now) ∧
    (∀ (i : ℕ) p, spawned[i]? = some p →
      ∃ t : Task, s.launch.tasks[i]? = some t ∧ t.name = p.entrant.name ∧
        (t.stage = .present → y.now.afterSleep p.entrant.delay ≤ s.others.now)) ∧
    (s.launch.stopped = false →
      ∀ (i : ℕ) p timerFirst, spawned[i]? = some p → p.due y.now ≤ s.others.now →
        (s.step (.turn i timerFirst)).launch.tasks[i]? = some ⟨p.entrant.name, .present⟩) ∧
    (s.Returned →
      s'.launch.claims = [] ∧ (∀ name, s'.others.registry.count name = others s' name) ∧
      (∀ name, name ∈ s'.others.registry.names ↔ 1 ≤ others s' name) ∧
      ∀ move, move.outside? = none → s'.step move = s') ∧
    (s.launch.stopped = true →
      (∀ i < spawned.length, 2 ≤ later.countP (Move.isTurnOf i)) →
      (s'.run (List.replicate spawned.length .await)).Returned) := by
  intro y s s' ids others
  have hids (m) (hm : m ∈ before ++ (moves ++ later).filterMap Move.outside?) (i)
      (hi : m.number? = some i) : i ∈ ids :=
    List.mem_toFinset.mpr (List.mem_filterMap.mpr ⟨m, hm, hi⟩)
  have hy : Gathering.Attended ids y :=
    (Gathering.attended_start now ids).run fun m hm => hids m (List.mem_append_left _ hm)
  have hs : Sound ids y.now spawned s := by
    refine (sound_start hy spawned).run fun m hm => hids m (List.mem_append_right _ ?_)
    rw [List.filterMap_append]
    exact List.mem_append_left _ hm
  have hs' : Sound ids y.now spawned s' := by
    refine hs.run fun m hm => hids m (List.mem_append_right _ ?_)
    rw [List.filterMap_append]
    exact List.mem_append_right _ hm
  refine ⟨hs.count, hs.count_claims_le, ?_, ?_, ?_, ?_⟩
  · intro i p hp
    obtain ⟨t, ht, hkeeps⟩ := hs.exists_task hp
    exact ⟨t, ht, hkeeps.name, hkeeps.elapsed⟩
  · intro hrunning i p timerFirst hp hdue
    exact hs.joins hrunning hp hdue timerFirst
  · intro hreturned
    have hover : s'.Over := (hs.over hreturned).run later
    have hcount (name : String) : s'.others.registry.count name = others s' name := by
      rw [hs'.count, hover.claims_eq_nil]
      rfl
    refine ⟨hover.claims_eq_nil, hcount, ?_, fun move hours => hover.step_eq hours⟩
    intro name
    rw [← hcount]
    exact Registry.mem_names_iff hs'.attended.pos name
  · intro hstopped hturns
    have hlength : s.launch.tasks.length = spawned.length := hs.keeps.length_eq.symm
    have hlength' : s'.launch.tasks.length = spawned.length := hs'.keeps.length_eq.symm
    rw [← hlength] at hturns
    have hfinished := finished_run hstopped hturns
    rw [run_await hfinished hs'.awaited_le, hlength']
    refine ⟨(s.run_keeps later).2 hstopped, ?_⟩
    dsimp only
    rw [hlength', Nat.min_eq_right (Nat.le_add_left _ _)]

/-- A participant with a delay of thirty-one years joins after thirty. -/
theorem long_delay_cut_short :
    let y := Gathering.start Instant.start Registry.empty
    let e : Entrant := ⟨"a", 978307200000⟩
    let thirtyYears : Duration := ⟨946080000 * nanosPerSecond, by decide⟩
    let s := (start y [⟨e, Duration.zero⟩]).run [.outside (.pass thirtyYears), .turn 0 false]
    s.launch.stopped = false ∧ s.others.now < y.now.afterMillis e.delay ∧
      s.others.registry.counts = [("a", 1)] := by
  decide +kernel

end Scene

end RollCall
