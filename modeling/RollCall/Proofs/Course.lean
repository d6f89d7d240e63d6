import RollCall.Proofs.Activities

/-!
# Scenarios as courses of effects

A step of a scenario is an interpreter for much: labels, identities, activities in virtual time,
events that come while an activity is under way. Here it is shown that nothing but effects comes
of it, in some order, and time that passes.

Main statements: `perform_course` and `after_course`.
-/

namespace RollCall.Scenario

/-! ## Steps -/

namespace World

variable {w w' : World}

theorem Aside.company (h : Aside w w') : Effects w.company w'.company :=
  (Stirred.of_aside h).company

theorem Aside.course (h : Aside w w') : Course w.company w'.company := Effects.course h.company

theorem source_eq_ok {via : Option String} {graph : String} {source : Source} (hw : w.Grounded)
    (hsource : w.source via graph = .ok (source, w')) : Aside w w' ∧ source.Grounded w' := by
  unfold World.source at hsource
  split at hsource
  · cases hsource
    exact ⟨aside_mention graph w,
      (mention_grounded hw graph).graph_lt (w.mention_get graph)⟩
  · split at hsource
    · cases hsource
    · cases hsource
      exact ⟨aside_rest w _ _ _ _ _ _ _, trivial⟩

theorem aside_freshIdentity (stem : String) (w : World) : Aside w (w.freshIdentity stem).2 := by
  unfold freshIdentity
  generalize Identity.fresh stem w.words = fresh
  exact aside_rest w _ _ _ _ _ _ _

theorem aside_identityFor {given : Option String} {stem : String} {identity : Identity}
    (hidentity : w.identityFor given stem = .ok (identity, w')) : Aside w w' := by
  unfold identityFor at hidentity
  split at hidentity
  · have haside := aside_freshIdentity stem w
    rwa [Except.ok.inj hidentity] at haside
  · split at hidentity
    · cases hidentity
    · cases hidentity
      exact aside_rest w _ _ _ _ _ _ _

/-- The company after a session has been given up that was under no label. -/
theorem company_drop (x : Session Handle) (w : World) :
    (x.drop link w).company = ⟨w.company.holders, x.drop link w⟩ := by
  have hspares := Session.drop_within link_spares x w spares_destroy
  rw [← holders_company hspares.sessions hspares.handles]
  rfl

theorem company_dropHandle (h : Handle) (w : World) :
    (w.dropHandle h).company = ⟨w.company.holders, w.dropHandle h⟩ := by
  have hspares := spares_dropHandle h w
  rw [← holders_company hspares.sessions hspares.handles]
  rfl

/-- Two who stand in a list change their places with one who comes to its front. -/
theorem perm_swap (x y : Holder) (before after : List Holder) :
    (x :: (before ++ y :: after)).Perm (y :: (before ++ x :: after)) :=
  ((List.perm_middle.cons x).trans (.swap y x _)).trans (List.perm_middle.symm.cons y)

/-- A session is put under a label, and the one that was there is given up. -/
theorem place_session (label : String) (x : Session Handle) (w : World) :
    let placed := { w with sessions := w.sessions.put label x }
    Effects ⟨.session x none :: w.company.holders, w⟩
      ((w.sessions.get? label).elim placed fun old => old.drop link placed).company := by
  intro placed
  cases hold : w.sessions.get? label with
  | none =>
    refine .head (.reorder (perm_put_session hold w.handles (fun _ => none) x)) ?_
    exact .single (.relabel _ _)
  | some old =>
    obtain ⟨before, after, hholders, -, hput, -⟩ := exists_session hold w.handles fun _ => none
    have hplaced : holders (w.sessions.put label x) w.handles (fun _ => none) =
        before ++ .session x none :: after := by
      simpa using hput x none
    rw [Option.elim_some, company_drop, company, company, hplaced, hholders]
    refine .head (.relabel placed.sessions placed.handles) ?_
    exact .head (.reorder (perm_swap _ _ before after)) (.single .drop)

theorem place_handle (label : String) (h : Handle) (w : World) :
    let placed := { w with handles := w.handles.put label h }
    Effects ⟨.bare h :: w.company.holders, w⟩
      ((w.handles.get? label).elim placed fun old => placed.dropHandle old).company := by
  intro placed
  cases hold : w.handles.get? label with
  | none =>
    refine .head (.reorder (perm_put_handle hold w.sessions (fun _ => none) h)) ?_
    exact .single (.relabel _ _)
  | some old =>
    obtain ⟨before, after, hholders, hput, -⟩ := exists_handle hold w.sessions fun _ => none
    have hplaced : placed.company.holders = before ++ .bare h :: after := hput h
    rw [Option.elim_some, company_dropHandle, hplaced, company, hholders]
    refine .head (.relabel placed.sessions placed.handles) ?_
    exact .head (.reorder (perm_swap _ _ before after)) (.single .forget)

theorem connect_effects (label : String) (expected : List String) (settings : Settings)
    (given via : Option String) (graph : String) (hw : w.Grounded) :
    Effects w.company (w.connect label expected settings given via graph).2.company := by
  simp only [World.connect]
  split
  · exact .refl
  · rename_i source w₁ hsource
    obtain ⟨haside, hgrounded⟩ := source_eq_ok hw hsource
    split
    · exact haside.company
    · rename_i identity w₂ hidentity
      have haside₂ := aside_identityFor hidentity
      refine .trans haside.company (.trans haside₂.company ?_)
      split
      · exact .refl
      · rename_i x w₃ hconnect
        have hspares := session_spares_connect hconnect
        have hsource₂ := hgrounded.of_le haside₂.length
        have hconnected : Effects w₂.company ⟨.session x none :: w₃.company.holders, w₃⟩ := by
          rw [holders_company hspares.sessions hspares.handles]
          exact .single (.connect hsource₂ hconnect)
        exact .trans hconnected (place_session label x w₃)

theorem openHandle_effects (label name : String) (via : Option String) (graph : String)
    (hw : w.Grounded) : Effects w.company (w.openHandle label name via graph).2.company := by
  simp only [World.openHandle]
  split
  · exact .refl
  · rename_i source w₁ hsource
    obtain ⟨haside, hgrounded⟩ := source_eq_ok hw hsource
    split
    · exact haside.company
    · refine .trans haside.company ?_
      split
      · exact .refl
      · rename_i h w₂ hregister
        have hspares := spares_register hregister
        have hcreated : Effects w₁.company ⟨.bare h :: w₂.company.holders, w₂⟩ := by
          rw [holders_company hspares.sessions hspares.handles]
          exact .single (.create hgrounded hregister)
        exact .trans hcreated (place_handle label h w₂)

theorem pause_course (ms : ℕ) (answer : Answer) (hw : w.Grounded) :
    Course w.company (w.pause ms answer).2.company :=
  runActivity_course (tracks_sleeping _ answer) {} _ hw fun _ _ => ⟨_, rfl, .refl⟩

theorem waitFor_course (labels : List String) (token : Option String) (timing : Timing)
    (hw : w.Grounded) : Course w.company (w.waitFor labels token timing).2.company := by
  unfold waitFor
  split
  · rename_i hlabels
    rw [answered_snd]
    refine runActivity_course (tracks_waiting token w.now) timing _ hw fun w' _ => ?_
    refine ⟨_, ⟨fun _ => none, ⟨?_, fun label wait => ?_⟩, rfl⟩, .refl⟩
    · rw [List.filterMap_map]
      simpa [Function.comp_def, WaitTask.label?] using hlabels.1
    · simp
  · exact .refl

/-- What a scope or a check that begins makes of the company: it adds a holder of its own. -/
theorem effects_of_dealing {hs : List Holder} {w₁ w₂ : World} (haside : Aside w w₁)
    (hdealing : Dealing w₁.company ⟨hs ++ w₁.company.holders, w₂⟩) :
    Effects w.company ⟨hs ++ w₂.company.holders, w₂⟩ := by
  rw [holders_company hdealing.spares.sessions hdealing.spares.handles]
  exact haside.company.trans hdealing.effects

theorem enterScope_effects {source : Source} (expected : List String) (settings : Settings)
    (w : World) (hsource : source.Grounded w) :
    let out := enterScope source expected settings w.now w
    Effects w.company ⟨scopeHolders out.1.1 ++ out.2.company.holders, out.2⟩ := by
  have hfresh := aside_freshIdentity settings.stem w
  rcases hidentity : w.freshIdentity settings.stem with ⟨identity, w₁⟩
  rw [hidentity] at hfresh
  simp only [enterScope, hidentity, ← hfresh.now]
  exact effects_of_dealing hfresh
    (enter_dealing (hsource.of_le hfresh.length) expected settings identity)

theorem startCheck_effects {registry : ℕ} (mode : Mode) (expected : List String)
    (settings : Settings) (w : World) (hregistry : registry < w.registries.length) :
    let out := startCheck registry mode expected settings w.now w
    Effects w.company ⟨checkHolders out.1.1 ++ out.2.company.holders, out.2⟩ := by
  have hfresh := aside_freshIdentity settings.stem w
  rcases hidentity : w.freshIdentity settings.stem with ⟨identity, w₁⟩
  rw [hidentity] at hfresh
  have hsource : (Source.graph registry).Grounded w := hregistry
  simp only [startCheck, hidentity, ← hfresh.now]
  exact effects_of_dealing hfresh
    (start_dealing (hsource.of_le hfresh.length) mode expected settings identity)

theorem performScope_course (expected : List String) (settings : Settings) (via : Option String)
    (graph : String) (token : Option String) (body : BodyScript) (timing : Timing)
    (hw : w.Grounded) :
    Course w.company (w.performScope expected settings via graph token body timing).2.company := by
  unfold performScope
  split
  · exact .refl
  · rename_i source w₁ hsource
    obtain ⟨haside, hgrounded⟩ := source_eq_ok hw hsource
    have hmentioned := aside_mention graph w₁
    generalize w₁.mention graph = mentioned at hmentioned ⊢
    obtain ⟨registry, w₂⟩ := mentioned
    have hbefore : Effects w.company w₂.company := haside.company.trans hmentioned.company
    have hw₂ : w₂.Grounded := hbefore.continues.grounded hw
    rw [answered_snd]
    refine (Effects.course hbefore).trans ?_
    refine runActivity_course (tracks_scoping source body registry token w₂.now) timing _ hw₂
      fun w' hcontinues => ⟨_, rfl, ?_⟩
    rw [← hcontinues.now]
    exact enterScope_effects expected settings w'
      ((hgrounded.of_le hmentioned.length).of_le hcontinues.length)

theorem performCheck_course (expected : List String) (settings : Settings) (mode : Mode)
    (token : Option String) (timing : Timing) (graph : String) (hw : w.Grounded) :
    Course w.company (w.performCheck expected settings mode token timing graph).2.company := by
  unfold performCheck
  have hmentioned := aside_mention graph w
  have hregistry := (mention_grounded hw graph).graph_lt (w.mention_get graph)
  generalize w.mention graph = mentioned at hmentioned hregistry ⊢
  obtain ⟨registry, w₁⟩ := mentioned
  have hw₁ : w₁.Grounded := hmentioned.spares.grounded hw
  rw [answered_snd]
  refine hmentioned.course.trans ?_
  refine runActivity_course (tracks_checking registry token w₁.now) timing _ hw₁
    fun w' hcontinues => ⟨_, rfl, ?_⟩
  rw [← hcontinues.now]
  exact startCheck_effects mode expected settings w' (Nat.lt_of_lt_of_le hregistry hcontinues.length)

theorem stopLaunch_effects (label : String) (w : World) :
    Effects w.company (w.stopLaunch label).2.company := by
  unfold stopLaunch
  split
  · exact .refl
  · rename_i k _
    have haside : Aside (w.stopTasks k)
        { w.stopTasks k with launchLabels := w.launchLabels.remove label } :=
      aside_rest _ _ _ _ _ _ _ _
    exact .head (.stop k) haside.company

theorem startLaunch_effects (label : String) (texts : List String) (graph : String)
    (hw : w.Grounded) : Effects w.company (w.startLaunch label texts graph).2.company := by
  unfold startLaunch
  split
  · exact .refl
  · rename_i entrants _
    have hstopped := stopLaunch_effects label w
    generalize w.stopLaunch label = stopped at hstopped ⊢
    obtain ⟨_, w₁⟩ := stopped
    have hw₁ : w₁.Grounded := (Effects.continues hstopped).grounded hw
    have hmentioned := aside_mention graph w₁
    have hregistry := (mention_grounded hw₁ graph).graph_lt (w₁.mention_get graph)
    refine hstopped.trans ?_
    dsimp only
    generalize w₁.mention graph = mentioned at hmentioned hregistry ⊢
    obtain ⟨registry, w₂⟩ := mentioned
    have haside : Aside (w₂.addLaunch registry entrants)
        { w₂.addLaunch registry entrants with
          launchLabels := w₂.launchLabels.put label w₂.launches.length } :=
      aside_rest _ _ _ _ _ _ _ _
    refine hmentioned.company.trans ?_
    exact .head (.launch hregistry entrants) haside.company

theorem close_effects {label : String} {x x' : Session Handle}
    (hx : w.sessions.get? label = some x) (hclose : x.close link w = .ok (x', w')) :
    Effects w.company ({ w' with sessions := w'.sessions.put label x' } : World).company := by
  have hspares := Session.close_within link_spares x w spares_destroy hclose
  obtain ⟨before, after, hholders, -, hput, -⟩ := exists_session hx w.handles fun _ => none
  have hclosed : holders (w'.sessions.put label x') w'.handles (fun _ => none) =
      before ++ .session x' none :: after := by
    rw [hspares.sessions, hspares.handles]
    simpa using hput x' none
  rw [company, company, hclosed, hholders]
  exact (Effects.focus (.single (.close hclose))).tail (.relabel _ _)

theorem dropSession_effects {label : String} {x : Session Handle}
    (hx : w.sessions.get? label = some x) :
    Effects w.company (x.drop link { w with sessions := w.sessions.remove label }).company := by
  obtain ⟨before, after, hholders, -, -, hremove⟩ := exists_session hx w.handles fun _ => none
  rw [company_drop, company, company, hremove, hholders]
  exact .head (.relabel (w.sessions.remove label) w.handles) (Effects.focus_out (.single .drop))

theorem poll_effects {label : String} {h : Handle} (hh : w.handles.get? label = some h) :
    Effects w.company (w.poll h).2.company := by
  have hspares := (stirred_poll h w).spares
  obtain ⟨before, after, hholders, -, -⟩ := exists_handle hh w.sessions fun _ => none
  rw [company, company, hspares.sessions, hspares.handles, hholders]
  exact Effects.focus (.single .poll)

theorem destroy_effects {label : String} {h : Handle} (hh : w.handles.get? label = some h) :
    let out := w.destroy h
    Effects w.company
      ({ out.2 with handles := out.2.handles.put label out.1 } : World).company := by
  have hspares := spares_destroy h w
  obtain ⟨before, after, hholders, hput, -⟩ := exists_handle hh w.sessions fun _ => none
  dsimp only
  rw [company, company, hspares.sessions, hspares.handles, hput, hholders]
  exact (Effects.focus (.single .destroy)).tail (.relabel _ _)

theorem dropHandle_effects {label : String} {h : Handle} (hh : w.handles.get? label = some h) :
    Effects w.company ({ w.dropHandle h with handles := w.handles.remove label } : World).company := by
  have hspares := spares_dropHandle h w
  obtain ⟨before, after, hholders, -, hremove⟩ := exists_handle hh w.sessions fun _ => none
  rw [company, company, hspares.sessions, hremove, hholders]
  exact (Effects.focus_out (.single .forget)).tail (.relabel _ _)

theorem aside_forgetGraph (graph : String) (w : World) :
    Aside w { w with graphs := w.graphs.remove graph } :=
  ⟨rfl, fun _ => rfl, Nat.le_refl _, fun _ h => Or.inl (List.mem_filter.mp h).1, rfl, rfl, rfl, rfl⟩

theorem list_course (label : String) (hw : w.Grounded) :
    Course w.company (w.perform (.list label)).2.company := by
  simp only [perform, withHandle]
  split
  · exact .refl
  · rename_i h hh
    have hpolled := poll_effects hh
    generalize w.poll h = polled at hpolled ⊢
    obtain ⟨reply, w₁⟩ := polled
    rw [answered_snd]
    refine (Effects.course hpolled).trans ?_
    exact pause_course reply.takes _ ((Effects.continues hpolled).grounded hw)

theorem stop_effects (label : String) (hw : w.Grounded) :
    Effects w.company (w.perform (.stop label)).2.company := by
  have hstopped := stopLaunch_effects label w
  rcases hstop : w.stopLaunch label with ⟨_ | l, w₁⟩
  · rw [hstop] at hstopped
    simp only [perform, hstop]
    exact hstopped
  · rw [hstop] at hstopped
    have hw₁ : w₁.Grounded := (Effects.continues hstopped).grounded hw
    have hturned := turned_settle hw₁
    have hsettled : Effects w₁.company ⟨(w₁.settle w₁.now).company.holders, w₁.settle w₁.now⟩ := by
      rw [holders_company hturned.frame.1 hturned.frame.2]
      exact hturned.effects _
    simp only [perform, hstop]
    split
    · exact hstopped
    · exact hstopped.trans hsettled

/-- Whatever a step of a scenario asks for, what happens is a course of effects. -/
theorem perform_course (step : Step) (hw : w.Grounded) :
    Course w.company (w.perform step).2.company := by
  cases step with
  | event e =>
    simp only [perform]
    exact Effects.course (Stirred.company (.event e (.refl _)))
  | participants graph =>
    simp only [perform]
    exact (aside_mention graph w).course
  | contains graph name =>
    simp only [perform]
    exact (aside_mention graph w).course
  | live graph =>
    simp only [perform]
    split
    · exact (aside_mention graph w).course
    · exact (aside_mention graph w).course
  | dropGraph graph =>
    simp only [perform]
    exact (aside_forgetGraph graph w).course
  | script label snapshots failure =>
    simp only [perform]
    exact (aside_rest w _ _ _ _ _ _ _).course
  | sleep ms =>
    rw [perform, answered_snd]
    exact pause_course ms .nothing hw
  | connect label expected settings identity via graph =>
    simp only [perform]
    exact Effects.course (connect_effects label expected settings identity via graph hw)
  | wait labels token timing =>
    simp only [perform]
    exact waitFor_course labels token timing hw
  | found label =>
    simp only [perform, withSession]
    split <;> exact .refl
  | missing label =>
    simp only [perform, withSession]
    split <;> exact .refl
  | info label =>
    simp only [perform, withSession]
    split <;> exact .refl
  | close label =>
    simp only [perform, withSession]
    split
    · exact .refl
    · rename_i x hx
      split
      · exact .refl
      · rename_i x' w' hclose
        exact Effects.course (close_effects hx hclose)
  | dropSession label =>
    simp only [perform]
    split
    · exact .refl
    · rename_i x hx
      exact Effects.course (dropSession_effects hx)
  | handle label identity via graph =>
    simp only [perform]
    exact Effects.course (openHandle_effects label identity via graph hw)
  | list label => exact list_course label hw
  | destroy label =>
    simp only [perform, withHandle]
    split
    · exact .refl
    · rename_i h hh
      exact Effects.course (destroy_effects hh)
  | dropHandle label =>
    simp only [perform]
    split
    · exact .refl
    · rename_i h hh
      exact Effects.course (dropHandle_effects hh)
  | scope expected settings via graph token body timing =>
    simp only [perform]
    exact performScope_course expected settings via graph token body timing hw
  | launch label texts graph =>
    simp only [perform]
    exact Effects.course (startLaunch_effects label texts graph hw)
  | stop label => exact Effects.course (stop_effects label hw)
  | dropLaunch label =>
    have hstopped := stopLaunch_effects label w
    simp only [perform]
    split
    all_goals
      rename_i hstop
      rw [hstop] at hstopped
      exact Effects.course hstopped
  | check expected settings mode token timing graph =>
    simp only [perform]
    exact performCheck_course expected settings mode token timing graph hw

end World

/-! ## Scenarios -/

theorem takeStep_course (step : Step) {w : World} (hw : w.Grounded) :
    Course w.company (takeStep step w).2.company := by
  have hcleared : World.Aside w { w with journal := [] } := World.aside_rest w _ _ _ _ _ _ _
  exact hcleared.course.trans (World.perform_course step (hcleared.spares.grounded hw))

def World.after (steps : List Step) (w : World) : World :=
  steps.foldl (fun w step => (takeStep step w).2) w

theorem Happens.grounded {c c' : Company} (h : Happens c c') (hc : c.Grounded) : c'.Grounded := by
  cases h with
  | effect heffect => exact heffect.grounded hc
  | pass => exact ⟨⟨hc.world.graphs, hc.world.participants, hc.world.launches⟩, hc.holders⟩

theorem Course.grounded {c c' : Company} (h : Course c c') (hc : c.Grounded) : c'.Grounded := by
  induction h with
  | refl => exact hc
  | tail _ hlast ih => exact hlast.grounded ih

theorem grounded_initial (words : WordSource) : (World.initial words).company.Grounded :=
  ⟨⟨nofun, nofun, nofun⟩, nofun⟩

/-- A scenario is a course of effects from beginning to end. -/
theorem after_course (steps : List Step) {w : World} (hw : w.company.Grounded) :
    Course w.company (w.after steps).company := by
  induction steps generalizing w with
  | nil => exact .refl
  | cons step steps ih =>
    have hstep := takeStep_course step hw.world
    exact hstep.trans (ih (Course.grounded hstep hw))

end RollCall.Scenario
