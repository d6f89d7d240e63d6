import RollCall.Proofs.Guests

/-!
# The headcount of a scenario

Each effect is a few moves of the gathering of a registry, and so is a whole scenario. Hence, at any
time and for any name, the registry counts exactly the participants that bear it and the handles
that are registered under it and have not been released.

Main statements: `Mirrored.effect`, `Mirrored.course` and `scenario_count`.
-/

namespace RollCall.Scenario

open World

variable {i : ℕ} {apart : Option ℕ} {y : Gathering} {hs : List Holder} {w w' : World}
  {x : Session Handle} {wait : Option Wait} {h : Handle}

/-! ## Handles that are not on the registry -/

theorem steady_destroy (h : Handle) (w : World) : Steady w (w.destroy h).2 := by
  cases h with
  | member j g => exact steady_setRegistry w _ _
  | replay script cursor identity =>
    simp only [destroy]
    split <;> exact ⟨rfl, rfl, rfl⟩

theorem steady_dropHandle (h : Handle) (w : World) : Steady w (w.dropHandle h) := by
  cases h with
  | member j g => exact steady_setRegistry w _ _
  | replay script cursor identity => exact ⟨rfl, rfl, rfl⟩

theorem registry_destroy (hon : h.on? i = none) : (w.destroy h).2.registry i = w.registry i := by
  cases h with
  | member j g =>
    have hji : j ≠ i := by simpa [Handle.on?] using hon
    exact registry_setRegistry_of_ne hji _ w
  | replay script cursor identity =>
    simp only [destroy]
    split <;> rfl

theorem registry_dropHandle (hon : h.on? i = none) : (w.dropHandle h).registry i = w.registry i := by
  cases h with
  | member j g =>
    have hji : j ≠ i := by simpa [Handle.on?] using hon
    exact registry_setRegistry_of_ne hji _ w
  | replay script cursor identity => rfl

theorem steady_register {source : Source} {identity : Identity}
    (hregister : register source identity w = .ok (h, w')) : Steady w w' := by
  cases source with
  | graph j =>
    simp only [register] at hregister
    split at hregister
    · cases hregister
    · cases hregister
      exact steady_setRegistry w _ _
  | script j =>
    simp only [register] at hregister
    split at hregister
    · cases hregister
    · split at hregister
      · cases hregister
      · cases hregister
        exact ⟨rfl, rfl, rfl⟩

theorem register_elsewhere {source : Source} {identity : Identity}
    (hregister : register source identity w = .ok (h, w')) (hsource : source ≠ .graph i) :
    h.on? i = none ∧ w'.registry i = w.registry i := by
  cases source with
  | graph j =>
    have hji : j ≠ i := fun hEq => hsource (congrArg _ hEq)
    simp only [register] at hregister
    split at hregister
    · cases hregister
    · cases hregister
      exact ⟨by simp [Handle.on?, hji], registry_setRegistry_of_ne hji _ w⟩
  | script j =>
    simp only [register] at hregister
    split at hregister
    · cases hregister
    · split at hregister
      · cases hregister
      · cases hregister
        exact ⟨rfl, rfl⟩

/-! ## Sessions -/

section Session

variable {guests : List String}

/-- What somebody without a role on the registry does, without changing that, is not seen there. -/
theorem Hosts.unseen {seats : List (ℕ × Gathering.Role)} {hs' : List Holder}
    (hm : Hosts i y ⟨hs, w⟩ guests seats)
    (hroles : hs'.filterMap (Holder.role? i) = hs.filterMap (Holder.role? i))
    (hnow : w'.now = w.now) (hregistry : w'.registry i = w.registry i) :
    Mirrored i y ⟨hs', w'⟩ guests :=
  hm.quiet hnow hregistry (List.Perm.of_eq hroles.symm)

theorem filterMap_session_none (hoff : x.handle.bind (Handle.on? i) = none) (wait : Option Wait)
    (hs : List Holder) :
    (.session x wait :: hs).filterMap (Holder.role? i) = hs.filterMap (Holder.role? i) :=
  List.filterMap_cons_none (role?_session_none hoff wait)

theorem aside_begin {now : Instant} {next : Wait} (hbegin : x.begin link now w = .ok (next, w')) :
    Aside w w' := by
  obtain ⟨-, -, rfl⟩ := Session.begin_eq_ok_iff.mp hbegin
  exact aside_tell _ w

theorem Mirrored.begin {next : Wait}
    (hm : Mirrored i y ⟨.session x wait :: hs, w⟩ (w.guests i apart))
    (hbegin : x.begin link w.now w = .ok (next, w')) :
    Mirrored i y ⟨.session x (some next) :: hs, w'⟩ (w'.guests i apart) := by
  have haside := aside_begin hbegin
  rw [haside.steady.guests i apart]
  refine hm.next fun y seats hm => ?_
  rcases session_cases i x with hoff | ⟨x, g, hhandle, rfl⟩
  · refine hm.unseen ?_ haside.now (haside.registry i)
    rw [filterMap_session_none hoff, filterMap_session_none hoff]
  · refine hm.act (role?_session hhandle _) (role?_session hhandle _) haside.now fun m hshows => ?_
    rw [haside.registry i]
    exact deal_begin hhandle hshows hbegin (w.registry i)

theorem Mirrored.resume {wait : Wait} {token : Option String} {progress : Session.Progress}
    {x' : Session Handle} (hm : Mirrored i y ⟨.session x (some wait) :: hs, w⟩ (w.guests i apart))
    (hw : w.Grounded) (hx : Holder.Grounded w (.session x (some wait))) (hhandle : x.handle = some h)
    (hturn : x.turn link (cancelled token) h w.now wait w = (progress, x', w')) :
    Mirrored i y ⟨.session x' progress.wait? :: hs, w'⟩ (w'.guests i apart) := by
  have hkept : x'.handle = x.handle := by
    have hsame := x.turn_handle link (cancelled token) h w.now wait w
    rwa [hturn] at hsame
  have hstirred : Stirred w w' := by
    have hwithin := Session.turn_within link_stirred x w (cancelled token) h w.now wait
    rwa [hturn] at hwithin
  rcases session_cases i x with hoff | ⟨x, g, hg, rfl⟩
  · have hoff' : x'.handle.bind (Handle.on? i) = none := by rw [hkept, hoff]
    refine Mirrored.stirred (Mirrored.next hm fun y seats hm => ?_) hw hstirred
    refine hm.unseen ?_ rfl rfl
    rw [filterMap_session_none hoff, filterMap_session_none hoff']
  · obtain rfl : Handle.member i g = h := by simpa [Session.map, hg] using hhandle
    have hi : i < w.registries.length := hx i g hhandle
    obtain ⟨haside, x₁, -, rfl, -⟩ := turn_member hi hturn []
    have hg' : x₁.handle = some g := by simpa [Session.map, hg] using hkept
    rw [haside.steady.guests i apart]
    refine hm.next fun y seats hm => ?_
    refine hm.act (role?_session hg _) (role?_session hg' _) haside.now fun m hshows => ?_
    rw [haside.registry i]
    exact deal_resume hi hg hshows hturn

theorem Mirrored.giveUp (hm : Mirrored i y ⟨.session x wait :: hs, w⟩ guests) :
    Mirrored i y ⟨.session x none :: hs, w⟩ guests := by
  refine hm.next fun y seats hm => ?_
  rcases session_cases i x with hoff | ⟨x, g, hhandle, rfl⟩
  · refine hm.unseen ?_ rfl rfl
    rw [filterMap_session_none hoff, filterMap_session_none hoff]
  · exact hm.act (role?_session hhandle _) (role?_session hhandle _) rfl fun m hshows =>
      deal_giveUp hshows w.now (w.registry i)

theorem Mirrored.close {x' : Session Handle}
    (hm : Mirrored i y ⟨.session x wait :: hs, w⟩ (w.guests i apart))
    (hx : Holder.Grounded w (.session x wait)) (hclose : x.close link w = .ok (x', w')) :
    Mirrored i y ⟨.session x' none :: hs, w'⟩ (w'.guests i apart) := by
  obtain ⟨h, hhandle, rfl, rfl⟩ := Session.close_eq_ok_iff.mp hclose
  have hsteady : Steady w (link.tell (.handleDestroyed x.identity.name) (link.release h w)) :=
    (steady_destroy h w).trans (aside_tell _ _).steady
  rw [hsteady.guests i apart]
  refine hm.next fun y seats hm => ?_
  have hgone : (Holder.session { x with handle := none } none).role? i = none := rfl
  rcases session_cases i x with hoff | ⟨x, g, hg, rfl⟩
  · have hh : h.on? i = none := by simpa [hhandle] using hoff
    refine hm.unseen ?_ hsteady.now (registry_destroy hh)
    rw [filterMap_session_none hoff, List.filterMap_cons_none hgone]
  · obtain rfl : Handle.member i g = h := by simpa [Session.map, hg] using hhandle
    have hregistry := registry_setRegistry (hx i g hhandle) (g.destroy (w.registry i)).2
    refine hm.quit (role?_session hg _) (List.filterMap_cons_none hgone) hsteady.now
      fun m hshows => ?_
    obtain ⟨deeds, m', hdeal, hclaim⟩ := deal_close hg hshows w.now (w.registry i)
    exact ⟨deeds, m', hdeal.trans (congrArg (Prod.mk m') hregistry.symm), hclaim⟩

theorem Mirrored.drop (hm : Mirrored i y ⟨.session x wait :: hs, w⟩ (w.guests i apart))
    (hx : Holder.Grounded w (.session x wait)) :
    Mirrored i y ⟨hs, x.drop link w⟩ ((x.drop link w).guests i apart) := by
  simp only [Session.drop]
  split
  · rename_i hhandle
    have hoff : x.handle.bind (Handle.on? i) = none := by rw [hhandle, Option.bind_none]
    exact hm.next fun y seats hm => hm.unseen (filterMap_session_none hoff _ hs).symm rfl rfl
  · rename_i h hhandle
    have hsteady : Steady w (link.release h (link.tell (.droppedLive x.identity.name) w)) :=
      (aside_tell _ w).steady.trans (steady_destroy h _)
    rw [hsteady.guests i apart]
    refine hm.next fun y seats hm => ?_
    rcases session_cases i x with hoff | ⟨x, g, hg, rfl⟩
    · have hh : h.on? i = none := by simpa [hhandle] using hoff
      exact hm.unseen (filterMap_session_none hoff _ hs).symm hsteady.now (registry_destroy hh)
    · obtain rfl : Handle.member i g = h := by simpa [Session.map, hg] using hhandle
      have hregistry := registry_setRegistry (hx i g hhandle) (g.destroy (w.registry i)).2
      refine hm.quit (role?_session hg _) rfl hsteady.now fun m hshows => ?_
      obtain ⟨deeds, m', hdeal, hclaim⟩ := deal_drop hg hshows w.now (w.registry i)
      exact ⟨deeds, m', hdeal.trans (congrArg (Prod.mk m') hregistry.symm), hclaim⟩

theorem Mirrored.connect
    {source : Source} {expected : List String} {settings : Settings} {identity : Identity}
    (hm : Mirrored i y ⟨hs, w⟩ (w.guests i apart)) (hsource : source.Grounded w)
    (hconnect : Session.connect (World.transport source) expected settings identity w =
      .ok (x, w')) :
    Mirrored i y ⟨.session x none :: hs, w'⟩ (w'.guests i apart) := by
  obtain ⟨_, _, h, registered, -, hregister, hx, hw'⟩ := Session.connect_eq_ok_iff.mp hconnect
  have hsteady : Steady w w' := by
    rw [hw']
    exact (steady_register hregister).trans (aside_tell (.handleCreated identity.name) _).steady
  rw [hsteady.guests i apart]
  refine hm.next fun y seats hm => ?_
  by_cases hhere : source = .graph i
  · subst hhere
    obtain ⟨x₁, g, rfl, hg, hdeal⟩ := deal_connect hsource hconnect
    exact hm.come (role?_session hg _) hsteady.now hdeal
  · obtain ⟨hoff, hregistry⟩ := register_elsewhere hregister hhere
    have hnone : x.handle.bind (Handle.on? i) = none := by
      rw [hx]
      exact hoff
    refine hm.unseen (filterMap_session_none hnone none hs) hsteady.now ?_
    rw [hw']
    exact hregistry

end Session

/-! ## Handles -/

section Handle

theorem Mirrored.create {source : Source} {identity : Identity}
    (hm : Mirrored i y ⟨hs, w⟩ (w.guests i apart)) (hsource : source.Grounded w)
    (hregister : register source identity w = .ok (h, w')) :
    Mirrored i y ⟨.bare h :: hs, w'⟩ (w'.guests i apart) := by
  have hsteady := steady_register hregister
  rw [hsteady.guests i apart]
  refine hm.next fun y seats hm => ?_
  by_cases hhere : source = .graph i
  · subst hhere
    obtain ⟨g, rfl, hdeal⟩ := deal_create hsource hregister
    exact hm.come (role?_bare g) hsteady.now hdeal
  · obtain ⟨hoff, hregistry⟩ := register_elsewhere hregister hhere
    exact hm.unseen (List.filterMap_cons_none (role?_bare_none hoff)) hsteady.now hregistry

theorem Mirrored.destroy (hm : Mirrored i y ⟨.bare h :: hs, w⟩ (w.guests i apart))
    (hx : Holder.Grounded w (.bare h)) :
    Mirrored i y ⟨.bare (w.destroy h).1 :: hs, (w.destroy h).2⟩ ((w.destroy h).2.guests i apart) := by
  have hsteady := steady_destroy h w
  rw [hsteady.guests i apart]
  refine hm.next fun y seats hm => ?_
  rcases h.on?_cases i with hoff | ⟨g, rfl⟩
  · have hoff' : (w.destroy h).1.on? i = none := by
      rcases (w.destroy h).1.on?_cases i with hoff' | ⟨g, hmember⟩
      · exact hoff'
      · obtain ⟨g', rfl⟩ := destroy_member hmember
        simp [Handle.on?] at hoff
    refine hm.unseen ?_ hsteady.now (registry_destroy hoff)
    rw [List.filterMap_cons_none (role?_bare_none hoff),
      List.filterMap_cons_none (role?_bare_none hoff')]
  · have hregistry := registry_setRegistry (hx i g rfl) (g.destroy (w.registry i)).2
    refine hm.act (role?_bare g) (role?_bare _) hsteady.now fun m hshows => ?_
    obtain ⟨deeds, m', hdeal, hshows'⟩ := deal_destroy hshows w.now (w.registry i)
    exact ⟨deeds, m', hdeal.trans (congrArg (Prod.mk m') hregistry.symm), hshows'⟩

theorem Mirrored.forget (hm : Mirrored i y ⟨.bare h :: hs, w⟩ (w.guests i apart))
    (hx : Holder.Grounded w (.bare h)) :
    Mirrored i y ⟨hs, w.dropHandle h⟩ ((w.dropHandle h).guests i apart) := by
  have hsteady := steady_dropHandle h w
  rw [hsteady.guests i apart]
  refine hm.next fun y seats hm => ?_
  rcases h.on?_cases i with hoff | ⟨g, rfl⟩
  · exact hm.unseen (List.filterMap_cons_none (role?_bare_none hoff)).symm hsteady.now
      (registry_dropHandle hoff)
  · have hregistry := registry_setRegistry (hx i g rfl) (g.drop (w.registry i))
    refine hm.quit (role?_bare g) rfl hsteady.now fun m hshows => ?_
    obtain ⟨deeds, m', hdeal, hclaim⟩ := deal_forget hshows w.now (w.registry i)
    exact ⟨deeds, m', hdeal.trans (congrArg (Prod.mk m') hregistry.symm), hclaim⟩

end Handle

/-! ## Scenarios -/

/-- Each effect is a few moves of the gathering of a registry, but for the turns of a launch whose
participants are left out. -/
theorem Mirrored.effect {c c' : Company} (hm : Mirrored i y c (c.world.guests i apart))
    (hc : c.Grounded) (heffect : Effect c c') :
    Mirrored i y c' (c'.world.guests i apart) ∨
      ∃ k j, apart = some k ∧ c' = ⟨c.holders, c.world.turnTask k j⟩ := by
  obtain ⟨hw, hholders⟩ := hc
  cases heffect with
  | reorder hperm =>
    exact Or.inl (hm.next fun _ _ hm => hm.quiet rfl rfl (hperm.filterMap _))
  | aside haside =>
    refine Or.inl ?_
    rw [haside.steady.guests i apart]
    exact hm.aside haside
  | relabel => exact Or.inl (hm.next fun _ _ hm => hm.quiet rfl rfl (.refl _))
  | event e => exact Or.inl (hm.event hw e)
  | launch hi entrants =>
    refine Or.inl (Mirrored.of_perm (hm.next fun _ _ hm => hm.quiet rfl rfl (.refl _)) ?_)
    simp only [World.guests, addLaunch, launchedOn_start]
    exact .refl _
  | stop k =>
    refine Or.inl (Mirrored.of_perm (hm.next fun _ _ hm => hm.quiet rfl rfl (.refl _)) ?_)
    simp only [World.guests, stopTasks, launchedOn_stop]
    exact .refl _
  | turn k j =>
    by_cases hk : apart = some k
    · exact Or.inr ⟨k, j, hk, rfl⟩
    · exact Or.inl (hm.turn hw hk j)
  | connect hsource hconnect => exact Or.inl (hm.connect hsource hconnect)
  | begin hbegin => exact Or.inl (hm.begin hbegin)
  | resume hhandle hturn =>
    exact Or.inl (hm.resume hw (hholders _ (List.mem_cons_self ..)) hhandle hturn)
  | giveUp => exact Or.inl hm.giveUp
  | close hclose => exact Or.inl (hm.close (hholders _ (List.mem_cons_self ..)) hclose)
  | drop => exact Or.inl (hm.drop (hholders _ (List.mem_cons_self ..)))
  | create hsource hregister => exact Or.inl (hm.create hsource hregister)
  | poll => exact Or.inl (hm.stirred hw (stirred_poll _ _))
  | destroy => exact Or.inl (hm.destroy (hholders _ (List.mem_cons_self ..)))
  | forget => exact Or.inl (hm.forget (hholders _ (List.mem_cons_self ..)))

theorem Mirrored.course {c c' : Company} (hm : Mirrored i y c (c.world.guests i none))
    (hc : c.Grounded) (hcourse : Course c c') : Mirrored i y c' (c'.world.guests i none) := by
  induction hcourse with
  | refl => exact hm
  | tail hcourse hlast ih =>
    cases hlast with
    | effect heffect =>
      rcases ih.effect (Course.grounded hcourse hc) heffect with hm | ⟨_, _, hapart, -⟩
      · exact hm
      · cases hapart
    | pass ht => exact ih.next fun _ _ hm => hm.pass ht

theorem mirrored_initial (i : ℕ) (words : WordSource) :
    Mirrored i (Gathering.start Instant.start Registry.empty) (World.initial words).company
      ((World.initial words).guests i none) :=
  ⟨[], [], rfl, rfl, .refl _, ⟨List.nodup_nil, nofun, fun _ _ => rfl, 0, nofun, fun _ _ => rfl⟩,
    .refl _⟩

/-- A scenario is, on each registry, a run of a gathering. -/
theorem scenario_mirrored (i : ℕ) (words : WordSource) (steps : List Step) :
    Mirrored i (Gathering.start Instant.start Registry.empty)
      ((World.initial words).after steps).company
      (((World.initial words).after steps).guests i none) :=
  (mirrored_initial i words).course (grounded_initial words)
    (after_course steps (grounded_initial words))

/-! ## The count -/

/-- Those who bear a name are those with a place whose role claims it. -/
theorem Seating.bearers_eq {members : ℕ → Gathering.Member} {seats : List (ℕ × Gathering.Role)}
    (h : Seating members seats) {ids : Finset ℕ} (hids : ∀ k ∈ seats.map Prod.fst, k ∈ ids)
    (name : String) :
    Gathering.bearers ids members name =
      (seats.map Prod.snd).countP (fun role => role.claim = some name) := by
  let those := (seats.filter fun seat => seat.2.claim = some name).map Prod.fst
  have hnodup : those.Nodup := h.nodup.sublist (List.filter_sublist.map _)
  have hthose : (ids.filter fun k => (members k).role.claim = some name) = those.toFinset := by
    ext k
    simp only [Finset.mem_filter, List.mem_toFinset]
    constructor
    · rintro ⟨-, hclaim⟩
      have hplace : k ∈ seats.map Prod.fst := by
        by_contra hk
        rw [h.unseated k hk] at hclaim
        cases hclaim
      obtain ⟨seat, hseat, rfl⟩ := List.mem_map.mp hplace
      rw [(h.seated seat hseat).claim_eq] at hclaim
      exact List.mem_map_of_mem (List.mem_filter.mpr ⟨hseat, by simpa using hclaim⟩)
    · intro hk
      obtain ⟨seat, hfiltered, rfl⟩ := List.mem_map.mp hk
      obtain ⟨hseat, hclaim⟩ := List.mem_filter.mp hfiltered
      refine ⟨hids _ (List.mem_map_of_mem hseat), ?_⟩
      rw [(h.seated seat hseat).claim_eq]
      simpa using hclaim
  rw [Gathering.bearers, hthose, List.toFinset_card_of_nodup hnodup, List.countP_map,
    List.countP_eq_length_filter, List.length_map]
  rfl

theorem attended_run (moves : List Gathering.Move) {ids : Finset ℕ}
    (hids : Gathering.numbers moves ⊆ ids) :
    Gathering.Attended ids ((Gathering.start Instant.start Registry.empty).run moves) := by
  refine (Gathering.attended_start Instant.start ids).run fun move hmove k hk => hids ?_
  exact List.mem_toFinset.mpr (List.mem_filterMap.mpr ⟨move, hmove, hk⟩)

/-- Whatever has happened in a scenario, a registry counts for a name the participants that bear it
and the live handles that are registered under it. -/
theorem scenario_count (words : WordSource) (steps : List Step) (i : ℕ) (name : String) :
    let w := (World.initial words).after steps
    (w.registry i).count name =
      (w.guests i none).count name +
        (w.company.roles i).countP (fun role => role.claim = some name) := by
  intro w
  obtain ⟨moves, seats, hm⟩ := scenario_mirrored i words steps
  let ids := (seats.map Prod.fst).toFinset ∪ Gathering.numbers moves
  have hids : ∀ k ∈ seats.map Prod.fst, k ∈ ids := fun k hk =>
    Finset.mem_union_left _ (List.mem_toFinset.mpr hk)
  have hmoves : Gathering.numbers moves ⊆ ids := Finset.subset_union_right
  have hcount := (attended_run moves hmoves).count name
  rw [hm.registry, hm.guests.count_eq, hm.seating.bearers_eq hids, hm.roles.countP_eq] at hcount
  exact hcount

end RollCall.Scenario
