import RollCall.Proofs.Dealings
import RollCall.Scenario.Run

/-!
# Activities as courses of effects

An activity runs in virtual time, while events come and the tasks of the launches take their turns.
`Activity.Tracks` says what is to be shown of an activity: that its turns are effects, and who has a
handle in hand meanwhile. It is shown of waits, scopes, checks and sleeps.

Main statements: `turned_settle`, and `runActivity_course`, which says what follows for a run.
-/

namespace RollCall.Scenario

/-! ## The tasks of the launches -/

namespace World

variable {w : World}

/-- Tasks of launches have taken turns. -/
abbrev Turned : World → World → Prop := Relation.ReflTransGen fun w w' => ∃ k j, w' = w.turnTask k j

theorem Turned.frame {w w' : World} (h : Turned w w') :
    w'.sessions = w.sessions ∧ w'.handles = w.handles := by
  induction h with
  | refl => exact ⟨rfl, rfl⟩
  | @tail w₁ _ _ hlast ih =>
    obtain ⟨k, j, rfl⟩ := hlast
    have hturn : (w₁.turnTask k j).sessions = w₁.sessions ∧
        (w₁.turnTask k j).handles = w₁.handles := by
      unfold turnTask
      split
      · exact ⟨rfl, rfl⟩
      · split
        · exact ⟨rfl, rfl⟩
        · exact ⟨rfl, rfl⟩
    exact ⟨hturn.1.trans ih.1, hturn.2.trans ih.2⟩

theorem Turned.effects {w w' : World} (hs : List Holder) (h : Turned w w') :
    Effects ⟨hs, w⟩ ⟨hs, w'⟩ := by
  induction h with
  | refl => exact .refl
  | tail _ hlast ih =>
    obtain ⟨k, j, rfl⟩ := hlast
    exact ih.tail (.turn k j)

theorem turned_settleTasks {i : ℕ} (stopped : Bool) (hi : i < w.registries.length)
    (before after : List (ℕ × Launch)) (earlier tasks : List Task) :
    let out := Launch.settleTasks stopped w.now tasks (w.registry i)
    Turned { w with launches := before ++ (i, ⟨earlier ++ tasks, stopped⟩) :: after }
      { w.setRegistry i out.2 with
        launches := before ++ (i, ⟨earlier ++ out.1, stopped⟩) :: after } := by
  induction tasks generalizing w earlier with
  | nil =>
    simp only [Launch.settleTasks, setRegistry_registry]
    exact .refl
  | cons t ts ih =>
    let out := t.step false stopped w.now (w.registry i)
    have hstep : { w.setRegistry i out.2 with
        launches := before ++ (i, ⟨earlier ++ out.1 :: ts, stopped⟩) :: after } =
        ({ w with launches := before ++ (i, ⟨earlier ++ t :: ts, stopped⟩) :: after } : World).turnTask
          before.length earlier.length := by
      simp [turnTask, out, setRegistry, registry]
    have hrest := ih (w := w.setRegistry i out.2) (by simpa [setRegistry] using hi)
      (earlier ++ [out.1])
    rw [registry_setRegistry hi] at hrest
    refine .head ⟨before.length, earlier.length, rfl⟩ ?_
    rw [← hstep]
    simpa [Launch.settleTasks, out, setRegistry] using hrest

theorem turned_settleLaunches (before launches : List (ℕ × Launch))
    (hlaunches : ∀ entry ∈ launches, entry.1 < w.registries.length) :
    let out := settleLaunches w.now launches w
    Turned { w with launches := before ++ launches } { out.2 with launches := before ++ out.1 } := by
  induction launches generalizing w before with
  | nil => exact .refl
  | cons entry rest ih =>
    obtain ⟨i, l⟩ := entry
    obtain ⟨hi, hrest⟩ := List.forall_mem_cons.mp hlaunches
    let out := l.settle w.now (w.registry i)
    have hfirst := turned_settleTasks l.stopped hi before rest [] l.tasks
    have hlater := ih (w := w.setRegistry i out.2) (before ++ [(i, out.1)])
      (by simpa [setRegistry] using hrest)
    simp only [List.append_assoc, List.singleton_append] at hlater
    exact hfirst.trans hlater

/-- To settle the launches gives each of their tasks a turn. -/
theorem turned_settle (hw : w.Grounded) : Turned w (w.settle w.now) :=
  turned_settleLaunches [] w.launches hw.launches

end World

/-! ## Activities -/

/-- All that an activity does, as long as it is under way, is effects; `Held` says who holds
handles meanwhile. When it has ended or has been given up, nobody does but those under labels. -/
structure Activity.Tracks {α : Type} (activity : Activity α)
    (Held : α → World → List Holder → Prop) : Prop where
  frame : ∀ {a w w' hs}, Held a w hs → w'.sessions = w.sessions → w'.handles = w.handles →
    Held a w' hs
  advance : ∀ {a w hs}, Held a w hs →
    let out := activity.process.advance w.now a w
    ∃ hs', Held out.1 out.2 hs' ∧ Effects ⟨hs, w⟩ ⟨hs', out.2⟩
  result : ∀ {a w hs answer}, Held a w hs → activity.process.result? a = some answer →
    Effects ⟨hs, w⟩ w.company
  abandon : ∀ {a w hs}, Held a w hs → Effects ⟨hs, w⟩ (activity.abandon a w).company

namespace World

variable {α : Type} {activity : Activity α} {Held : α → World → List Holder → Prop} {w : World}

theorem stirred_applyDue (now : Instant) (events : List (Instant × Event)) (w : World) :
    Stirred w (timeline.applyDue now events w).2 :=
  Timeline.applyDue_invariant (fun e h => h.trans (.event e (.refl _))) now events (.refl w)

theorem Stirred.company {w' : World} (h : Stirred w w') : Effects w.company w'.company := by
  have heffects : Effects ⟨w.company.holders, w⟩ ⟨w'.company.holders, w'⟩ := by
    rw [holders_company h.spares.sessions h.spares.handles]
    exact .of_stirred w.company.holders h
  exact heffects

/-- A run in virtual time keeps to what its activity is tracked by. -/
theorem run_course
    (htracks : activity.Tracks Held) {c : Company} (horizon : Instant) (limit : Option Instant)
    (events : List (Instant × Event)) {a : α} {hs : List Holder} (hw : w.Grounded)
    (hheld : Held a w hs) (hcourse : Course c ⟨hs, w⟩) :
    let out := timeline.run activity.process horizon limit w.now events a w
    out.1.Holds activity.process
      (fun _ a w => ∃ hs, Held a w hs ∧ Course c ⟨hs, w⟩) out.2 := by
  have hrun := Timeline.run_invariant (T := timeline) (P := activity.process)
    (I := fun now a w => w.now = now ∧ w.Grounded ∧ ∃ hs, Held a w hs ∧ Course c ⟨hs, w⟩)
    ?_ ?_ ?_ ?_ horizon limit w.now events ⟨rfl, hw, hs, hheld, hcourse⟩
  · dsimp only at hrun ⊢
    generalize timeline.run activity.process horizon limit w.now events a w = out at hrun ⊢
    obtain ⟨result | a', w'⟩ := out
    · obtain ⟨a', hresult, -, -, hend⟩ := hrun
      exact ⟨a', hresult, hend⟩
    · exact hrun.2.2
  · rintro now a w e ⟨hnow, hw, hs, hheld, hcourse⟩
    have hspares := spares_apply e w
    refine ⟨hspares.now.trans hnow, hspares.grounded hw, hs,
      htracks.frame hheld hspares.sessions hspares.handles, ?_⟩
    exact hcourse.tail (.effect (.event e))
  · rintro now a w ⟨rfl, hw, hs, hheld, hcourse⟩
    obtain ⟨hs', hheld', heffects⟩ := htracks.advance hheld
    exact ⟨heffects.continues.now, heffects.continues.grounded hw, hs', hheld',
      hcourse.trans heffects.course⟩
  · rintro now a w ⟨rfl, hw, hs, hheld, hcourse⟩
    have hturned := turned_settle hw
    have heffects := hturned.effects hs
    exact ⟨heffects.continues.now, heffects.continues.grounded hw, hs,
      htracks.frame hheld hturned.frame.1 hturned.frame.2, hcourse.trans heffects.course⟩
  · rintro now next a w hlt ⟨rfl, hw, hs, hheld, hcourse⟩
    refine ⟨rfl, ⟨hw.graphs, hw.participants, hw.launches⟩, hs, htracks.frame hheld rfl rfl, ?_⟩
    exact hcourse.tail (.pass (Nat.le_of_lt hlt))

/-- An activity that has run leaves nobody but those under labels. -/
theorem runActivity_course
    (htracks : activity.Tracks Held) (timing : Timing) (begin : World → α × World)
    (hw : w.Grounded)
    (hbegin : ∀ w', w.Continues w' → ∃ hs, Held (begin w').1 (begin w').2 hs ∧
      Effects w'.company ⟨hs, (begin w').2⟩) :
    Course w.company (w.runActivity activity timing begin).2.company := by
  simp only [runActivity]
  generalize List.mergeSort _ _ = events
  have hstirred := stirred_applyDue w.now events w
  generalize timeline.applyDue w.now events w = due at hstirred ⊢
  obtain ⟨later, w₁⟩ := due
  obtain ⟨hs, hheld, heffects⟩ := hbegin w₁ hstirred.spares.toContinues
  dsimp only
  generalize begin w₁ = started at hheld heffects ⊢
  obtain ⟨a, w₂⟩ := started
  have hbegun : Effects w.company ⟨hs, w₂⟩ := hstirred.company.trans heffects
  have hnow : w₂.now = w.now := hbegun.continues.now
  have hrun := run_course htracks (activity.horizon a w₂) (timing.limit.map w.now.afterMillis) later
    (hbegun.continues.grounded hw) hheld hbegun.course
  rw [hnow] at hrun
  dsimp only at hrun ⊢
  generalize timeline.run _ _ _ _ _ _ _ = out at hrun ⊢
  rcases out with ⟨⟨answer, t⟩ | ⟨a', t⟩, w₃⟩
  · obtain ⟨a', hresult, hs', hheld', hcourse⟩ := hrun
    exact hcourse.trans (htracks.result hheld' hresult).course
  · obtain ⟨hs', hheld', hcourse⟩ := hrun
    exact hcourse.trans (htracks.abandon hheld').course

end World

/-! ## Waits -/

namespace WaitTask

/-- The session that is waited for, as long as it is. -/
def label? : WaitTask → Option String
  | .fresh label => some label
  | .running label _ => some label
  | .finished _ => none

def wait? : WaitTask → Option Wait
  | .running _ wait => some wait
  | _ => none

end WaitTask

/-- The waits that are under way are those of the tasks, each of which waits for a session of its
own. -/
structure Waiting (tasks : List WaitTask) (waits : String → Option Wait) : Prop where
  labels : (tasks.filterMap WaitTask.label?).Nodup
  waits : ∀ label wait, waits label = some wait ↔ .running label wait ∈ tasks

namespace Waiting

variable {tasks tasks' rest : List WaitTask} {waits : String → Option Wait} {task : WaitTask}
  {label : String}

theorem of_perm (h : Waiting tasks waits) (hperm : tasks.Perm tasks') : Waiting tasks' waits where
  labels := (hperm.filterMap _).nodup_iff.mp h.labels
  waits label wait := (h.waits label wait).trans hperm.mem_iff

theorem ne_of_mem (h : Waiting (task :: rest) waits) (hlabel : task.label? = some label)
    {other : WaitTask} (hother : other ∈ rest) : other.label? ≠ some label := by
  intro hsame
  have hnodup := h.labels
  rw [List.filterMap_cons, hlabel] at hnodup
  exact (List.nodup_cons.mp hnodup).1 (List.mem_filterMap.mpr ⟨other, hother, hsame⟩)

/-- What becomes of a task is seen in the wait for its session, and in no other. -/
theorem replace (h : Waiting (task :: rest) waits) (hlabel : task.label? = some label)
    (task' : WaitTask) (hlabel' : ∀ other, task'.label? = some other → other = label) :
    Waiting (task' :: rest) (Function.update waits label task'.wait?) := by
  have hrest : (rest.filterMap WaitTask.label?).Nodup := by
    have hnodup := h.labels
    rw [List.filterMap_cons, hlabel] at hnodup
    exact (List.nodup_cons.mp hnodup).2
  refine ⟨?_, fun other wait => ?_⟩
  · rw [List.filterMap_cons]
    split
    · exact hrest
    · rename_i other hother
      rw [hlabel' other hother]
      refine List.nodup_cons.mpr ⟨fun hmem => ?_, hrest⟩
      obtain ⟨twin, htwin, hsame⟩ := List.mem_filterMap.mp hmem
      exact h.ne_of_mem hlabel htwin hsame
  · by_cases hother : other = label
    · subst hother
      rw [Function.update_self, List.mem_cons]
      constructor
      · intro hwait
        cases task' with
        | running other' wait' =>
          cases hwait
          rw [hlabel' other' rfl]
          exact Or.inl rfl
        | fresh => cases hwait
        | finished => cases hwait
      · rintro (rfl | hmem)
        · rfl
        · exact absurd rfl (h.ne_of_mem hlabel hmem)
    · rw [Function.update_of_ne hother, h.waits, List.mem_cons, List.mem_cons]
      refine or_congr_left' fun _ => ⟨?_, ?_⟩
      · rintro rfl
        exact absurd (Option.some.inj hlabel) hother
      · rintro rfl
        exact absurd (hlabel' other rfl) hother

end Waiting

section Waits

variable (token : Option String) (start : Instant) {rest : List WaitTask}
  {waits : String → Option Wait}

theorem advanceWait_effects {label : String} {wait : Wait}
    (hwaiting : Waiting (.running label wait :: rest) waits) (w : World) :
    let out := WaitTask.advanceWait token start w.now label wait w
    ∃ waits', Waiting (out.1 :: rest) waits' ∧
      Effects ⟨holders w.sessions w.handles waits, w⟩
        ⟨holders out.2.sessions out.2.handles waits', out.2⟩ := by
  have hwait : waits label = some wait := (hwaiting.waits label wait).mpr (List.mem_cons_self ..)
  cases hx : w.sessions.get? label with
  | none =>
    simp only [WaitTask.advanceWait, hx]
    exact ⟨waits, hwaiting, .refl⟩
  | some x =>
    cases hhandle : x.handle with
    | none =>
      simp only [WaitTask.advanceWait, hx, hhandle]
      exact ⟨waits, hwaiting, .refl⟩
    | some h =>
      obtain ⟨before, after, hholders, hsame, hput, -⟩ := exists_session hx w.handles waits
      simp only [WaitTask.advanceWait, hx, hhandle]
      rcases hout : x.turn World.link (World.cancelled token) h w.now wait w with
        ⟨progress, x', w'⟩
      have hturn : Dealing ⟨.session x (some wait) :: (before ++ after), w⟩
          ⟨.session x' progress.wait? :: (before ++ after), w'⟩ := .turn hhandle hout
      rw [hholders, hwait]
      cases progress with
      | ended outcome visible =>
        refine ⟨_, hwaiting.replace rfl (.finished _) (fun _ h => nomatch h), ?_⟩
        dsimp only
        rw [hturn.spares.sessions, hturn.spares.handles, hput]
        exact (Effects.focus hturn.effects).tail (.relabel _ _)
      | pending wait' =>
        cases Session.turn_pending hout
        refine ⟨_, hwaiting.replace rfl (.running label wait') ?_, ?_⟩
        · rintro other ⟨⟩
          rfl
        · dsimp only
          rw [hturn.spares.sessions, hturn.spares.handles, hsame]
          exact Effects.focus hturn.effects

theorem advanceTask_effects {task : WaitTask} (hwaiting : Waiting (task :: rest) waits)
    (w : World) :
    let out := task.advance token start w.now w
    ∃ waits', Waiting (out.1 :: rest) waits' ∧
      Effects ⟨holders w.sessions w.handles waits, w⟩
        ⟨holders out.2.sessions out.2.handles waits', out.2⟩ := by
  cases task with
  | finished answer => exact ⟨waits, hwaiting, .refl⟩
  | running label wait => exact advanceWait_effects token start hwaiting w
  | fresh label =>
    cases hx : w.sessions.get? label with
    | none =>
      simp only [WaitTask.advance, hx]
      exact ⟨waits, hwaiting, .refl⟩
    | some x =>
      obtain ⟨before, after, hholders, hsame, -, -⟩ := exists_session hx w.handles waits
      simp only [WaitTask.advance, hx]
      cases hbegin : x.begin World.link w.now w with
      | error e =>
        refine ⟨_, hwaiting.replace rfl (.finished _) (fun _ h => nomatch h), ?_⟩
        dsimp only
        rw [hholders, hsame]
        exact Effects.focus (.single .giveUp)
      | ok begun =>
        obtain ⟨wait, w'⟩ := begun
        have hdealing : Dealing ⟨.session x (waits label) :: (before ++ after), w⟩
            ⟨.session x (some wait) :: (before ++ after), w'⟩ := .begin hbegin
        have hwaiting' := hwaiting.replace rfl (.running label wait)
          fun _ h => (Option.some.inj h).symm
        obtain ⟨waits', hlater, heffects⟩ :=
          advanceWait_effects token start hwaiting' w'
        rw [hdealing.spares.now] at hlater heffects
        refine ⟨waits', hlater, .trans ?_ heffects⟩
        rw [hdealing.spares.sessions, hdealing.spares.handles, hholders, WaitTask.wait?, hsame]
        exact Effects.focus hdealing.effects

theorem advanceTasks_effects (tasks : List WaitTask) {w : World}
    (hwaiting : Waiting (tasks ++ rest) waits) :
    let out := advanceTasks token start w.now tasks w
    ∃ waits', Waiting (out.1 ++ rest) waits' ∧
      Effects ⟨holders w.sessions w.handles waits, w⟩
        ⟨holders out.2.sessions out.2.handles waits', out.2⟩ := by
  induction tasks generalizing w rest waits with
  | nil => exact ⟨waits, hwaiting, .refl⟩
  | cons task tasks ih =>
    obtain ⟨waits₁, hwaiting₁, heffects₁⟩ :=
      advanceTask_effects token start hwaiting w
    have hnow := (Effects.continues heffects₁).now
    dsimp only at hnow
    obtain ⟨waits₂, hwaiting₂, heffects₂⟩ := ih (hwaiting₁.of_perm List.perm_middle.symm)
    rw [hnow] at hwaiting₂ heffects₂
    exact ⟨waits₂, hwaiting₂.of_perm List.perm_middle, heffects₁.trans heffects₂⟩

end Waits

/-- Several waits at once are tracked by the waits of their tasks. -/
theorem tracks_waiting (token : Option String) (start : Instant) :
    (waiting token start).Tracks fun tasks w hs =>
      ∃ waits, Waiting tasks waits ∧ hs = holders w.sessions w.handles waits where
  frame := by
    rintro tasks w w' hs ⟨waits, hwaiting, rfl⟩ hsessions hhandles
    exact ⟨waits, hwaiting, by rw [hsessions, hhandles]⟩
  advance := by
    rintro tasks w hs ⟨waits, hwaiting, rfl⟩
    rw [← List.append_nil tasks] at hwaiting
    obtain ⟨waits', hwaiting', heffects⟩ :=
      advanceTasks_effects token start tasks hwaiting
    rw [List.append_nil] at hwaiting'
    exact ⟨_, ⟨waits', hwaiting', rfl⟩, heffects⟩
  result := by
    rintro tasks w hs answer ⟨waits, hwaiting, rfl⟩ hresult
    exact Effects.giveUp w.sessions w.handles waits w
  abandon := by
    rintro tasks w hs ⟨waits, hwaiting, rfl⟩
    exact Effects.giveUp w.sessions w.handles waits w

/-! ## Scopes, checks and sleeps -/

theorem stirs_scriptedBody (script : BodyScript) (registry : ℕ) (start : Instant) :
    Stirs (scriptedBody script registry start) where
  enter _ _ w := .of_events script.events w
  resume x now b w := by
    simp only [scriptedBody]
    split
    · exact .refl w
    · cases script.plan <;> exact .refl w

/-- An activity with holders of its own, which deals with nobody else, is tracked by them. -/
theorem tracks_of_dealing {α : Type} {activity : Activity α} (own : α → List Holder)
    (hadvance : ∀ hs a w, let out := activity.process.advance w.now a w
      Dealing ⟨own a ++ hs, w⟩ ⟨own out.1 ++ hs, out.2⟩)
    (hresult : ∀ a, (activity.process.result? a).isSome → own a = [])
    (habandon : ∀ hs a w, Dealing ⟨own a ++ hs, w⟩ ⟨hs, activity.abandon a w⟩) :
    activity.Tracks fun a w hs => hs = own a ++ w.company.holders where
  frame := by
    rintro a w w' hs rfl hsessions hhandles
    rw [World.holders_company hsessions hhandles]
  advance := by
    rintro a w hs rfl
    have hdealing := hadvance w.company.holders a w
    refine ⟨_, rfl, ?_⟩
    rw [World.holders_company hdealing.spares.sessions hdealing.spares.handles]
    exact hdealing.effects
  result := by
    rintro a w hs answer rfl hanswer
    rw [hresult a (by rw [hanswer]; rfl)]
    exact .refl
  abandon := by
    rintro a w hs rfl
    have hdealing := habandon w.company.holders a w
    have heffects : Effects ⟨own a ++ w.company.holders, w⟩
        ⟨(activity.abandon a w).company.holders, activity.abandon a w⟩ := by
      rw [World.holders_company hdealing.spares.sessions hdealing.spares.handles]
      exact hdealing.effects
    exact heffects

theorem tracks_scoping (source : Source) (script : BodyScript) (registry : ℕ)
    (token : Option String) (start : Instant) :
    (scoping source script registry token start).Tracks fun state w hs =>
      hs = scopeHolders state.1 ++ w.company.holders := by
  refine tracks_of_dealing (fun state : ScopeState => scopeHolders state.1) ?_ ?_ ?_
  · rintro hs ⟨scope, _⟩ w
    exact scope_advance_dealing (stirs_scriptedBody script registry start) source token scope w
  · rintro ⟨scope, _⟩ hresult
    cases scope with
    | left result => rfl
    | waiting x wait => cases hresult
    | inside x b => cases hresult
  · rintro hs ⟨scope, _⟩ w
    exact abandon_dealing source scope w

theorem tracks_checking (registry : ℕ) (token : Option String) (start : Instant) :
    (checking registry token start).Tracks fun state w hs =>
      hs = checkHolders state.1 ++ w.company.holders := by
  refine tracks_of_dealing (fun state : Check Handle × Instant => checkHolders state.1) ?_ ?_ ?_
  · rintro hs ⟨check, _⟩ w
    exact check_advance_dealing (.graph registry) token check w
  · rintro ⟨check, _⟩ hresult
    rcases check with ⟨x, wait⟩ | scope | result
    · cases hresult
    · cases hresult
    · rfl
  · rintro hs ⟨check, _⟩ w
    exact check_abandon_dealing (.graph registry) check w

theorem tracks_sleeping (wake : Instant) (answer : Answer) :
    (sleeping wake answer).Tracks fun _ w hs => hs = [] ++ w.company.holders :=
  tracks_of_dealing (fun _ => []) (fun _ _ _ => .refl _) (fun _ _ => rfl) fun _ _ _ => .refl _

end RollCall.Scenario
