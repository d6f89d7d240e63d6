import RollCall.Proofs.Headcount

/-!
# The launches of a scenario

From the moment at which it begins, a launch of a scenario is the launch of a `Scene`, amid all
others who use its registry. Each effect is a few moves of the scene: a turn of one of its tasks,
the request to stop, or what others do. Hence every task stands as its entrant asks, for as long as
the scenario goes on.

Main statements: `Staged.course` and `launched_keep`.
-/

namespace RollCall

namespace Scene

theorem run_append (s : Scene) (moves more : List Move) :
    s.run (moves ++ more) = (s.run moves).run more := List.foldl_append

theorem run_outside (s : Scene) (moves : List Gathering.Move) :
    s.run (moves.map .outside) = { s with others := s.others.run moves } := by
  induction moves generalizing s with
  | nil => rfl
  | cons move moves ih => exact ih (s.step (.outside move))

theorem run_turn {s : Scene} {j : ℕ} {t : Task} (ht : s.launch.tasks[j]? = some t)
    (timerFirst : Bool) :
    s.run [.turn j timerFirst] =
      s.put j (t.step timerFirst s.launch.stopped s.others.now s.others.registry).1
        (t.step timerFirst s.launch.stopped s.others.now s.others.registry).2 := by
  simp only [run, List.foldl_cons, List.foldl_nil, step, ht]

end Scene

namespace Scenario

open World

/-- After some moves a scene is the launch with this number of a company, amid all others on its
registry. -/
def Staged (i k : ℕ) (s : Scene) (c : Company) : Prop :=
  ∃ moves seats, Hosts i (s.run moves).others c (c.world.guests i (some k)) seats ∧
    c.world.launches[k]? = some (i, (s.run moves).launch)

namespace Staged

variable {i k : ℕ} {s : Scene} {c c' : Company}

theorem outside {moves : List Scene.Move}
    (hm : Mirrored i (s.run moves).others c' (c'.world.guests i (some k)))
    (hlaunch : c'.world.launches[k]? = some (i, (s.run moves).launch)) : Staged i k s c' := by
  obtain ⟨more, seats, hosts⟩ := hm
  refine ⟨moves ++ more.map .outside, seats, ?_, ?_⟩
  · rw [Scene.run_append, Scene.run_outside]
    exact hosts
  · rw [Scene.run_append, Scene.run_outside]
    exact hlaunch

theorem turn (h : Staged i k s c) (hc : c.Grounded) (j : ℕ) :
    Staged i k s ⟨c.holders, c.world.turnTask k j⟩ := by
  obtain ⟨moves, seats, hosts, hlaunch⟩ := h
  have hi := hc.world.launches _ (List.mem_of_getElem? hlaunch)
  have hk := (List.getElem?_eq_some_iff.mp hlaunch).1
  simp only [turnTask, hlaunch]
  split
  · exact ⟨moves, seats, hosts, hlaunch⟩
  · rename_i t ht
    refine ⟨moves ++ [.turn j false], seats, ?_⟩
    rw [Scene.run_append, Scene.run_turn ht, hosts.now, hosts.registry]
    refine ⟨?_, List.getElem?_set_self hk⟩
    exact
      { hosts with
        registry := (registry_setRegistry hi _).symm
        guests := by
          rw [World.guests, launchedOn_set_apart]
          exact hosts.guests }

theorem stop (h : Staged i k s c) : Staged i k s ⟨c.holders, c.world.stopTasks k⟩ := by
  obtain ⟨moves, seats, hosts, hlaunch⟩ := h
  refine ⟨moves ++ [.stop], seats, ?_⟩
  rw [Scene.run_append]
  refine ⟨?_, ?_⟩
  · exact
      { hosts with
        guests := by
          rw [World.guests, stopTasks, launchedOn_stop]
          exact hosts.guests }
  · simp only [stopTasks, List.getElem?_modify, hlaunch]
    rfl

/-- Each effect is a few moves of the scene. -/
theorem effect (h : Staged i k s c) (hc : c.Grounded) (heffect : Effect c c') :
    Staged i k s c' := by
  have houtside (hsame : c'.world.launches[k]? = c.world.launches[k]?) : Staged i k s c' := by
    obtain ⟨moves, seats, hosts, hlaunch⟩ := id h
    rcases hosts.mirrored.effect hc heffect with hm | ⟨_, j, hk, rfl⟩
    · exact outside hm (hsame.trans hlaunch)
    · cases hk
      exact h.turn hc j
  have hlt : k < c.world.launches.length := by
    obtain ⟨_, _, _, hlaunch⟩ := h
    exact (List.getElem?_eq_some_iff.mp hlaunch).1
  rcases heffect.launch_cases with ⟨-, hsame⟩ | ⟨_, _, -, rfl⟩ | ⟨k', rfl⟩ | ⟨k', j, rfl⟩
  · exact houtside (by rw [hsame])
  · exact houtside (List.getElem?_append_left hlt)
  · by_cases hk : k' = k
    · subst hk
      exact h.stop
    · refine houtside ?_
      simp [stopTasks, hk]
  · by_cases hk : k' = k
    · subst hk
      exact h.turn hc j
    · refine houtside ?_
      unfold turnTask
      split
      · rfl
      · split
        · rfl
        · exact List.getElem?_set_ne hk

theorem course (h : Staged i k s c) (hc : c.Grounded) (hcourse : Course c c') :
    Staged i k s c' := by
  induction hcourse with
  | refl => exact h
  | tail hcourse hlast ih =>
    cases hlast with
    | effect heffect => exact ih.effect (Course.grounded hcourse hc) heffect
    | pass ht =>
      obtain ⟨moves, seats, hosts, hlaunch⟩ := ih
      exact outside (hosts.pass ht) hlaunch

/-- A launch begins on a registry. -/
theorem of_launch {y : Gathering} {seats : List (ℕ × Gathering.Role)}
    (hosts : Hosts i y c (c.world.guests i none) seats) (entrants : List Entrant) :
    Staged i c.world.launches.length (Scene.start y (entrants.map (⟨·, Duration.zero⟩)))
      ⟨c.holders, c.world.addLaunch i entrants⟩ := by
  rw [Scene.start_prompt, hosts.now]
  refine ⟨[], seats, ?_, ?_⟩
  · exact
      { hosts with
        guests := by
          rw [World.guests, addLaunch, launchedOn_start, launchedOn_apart_length]
          exact hosts.guests }
  · simp [addLaunch, Scene.run]

end Staged

/-- Whatever happens in a scenario after a launch has begun, each of its tasks stands as its entrant
asks. -/
theorem launched_keep {words : WordSource} {c c' : Company} {i : ℕ} {entrants : List Entrant}
    (hbefore : Course (World.initial words).company c) (hi : i < c.world.registries.length)
    (hafter : Course ⟨c.holders, c.world.addLaunch i entrants⟩ c') :
    ∃ l, c'.world.launches[c.world.launches.length]? = some (i, l) ∧
      List.Forall₂ (fun e t => Task.Keeps c.world.now c'.world.now l.stopped ⟨e, .zero⟩ t)
        entrants l.tasks := by
  have hc := Course.grounded hbefore (grounded_initial words)
  have hlaunched : Effect c ⟨c.holders, c.world.addLaunch i entrants⟩ := .launch hi entrants
  obtain ⟨before, seats, hosts⟩ :=
    (mirrored_initial i words).course (grounded_initial words) hbefore
  obtain ⟨moves, seats', hosts', hlaunch⟩ :=
    (Staged.of_launch hosts entrants).course (hlaunched.grounded hc) hafter
  let ids := Gathering.numbers before ∪ Gathering.numbers (moves.filterMap Scene.Move.outside?)
  have hnumbers : Gathering.numbers before ⊆ ids := Finset.subset_union_left
  have hattended := attended_run before hnumbers
  have hsound := (Scene.sound_start hattended (entrants.map (⟨·, Duration.zero⟩))).run
    fun m hm n hn => Finset.mem_union_right _
      (List.mem_toFinset.mpr (List.mem_filterMap.mpr ⟨m, hm, hn⟩))
  refine ⟨_, hlaunch, ?_⟩
  have hkeeps := List.forall₂_map_left_iff.mp hsound.keeps
  rwa [hosts.now, hosts'.now] at hkeeps

end Scenario

end RollCall
