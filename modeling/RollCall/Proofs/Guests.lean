import RollCall.Proofs.Attendees

/-!
# The guests of a registry in a scenario

Participants that are kept under labels come and go by events, and those of a launch by turns of
its tasks. In the gathering of a registry they are guests that join and leave.

Main statements: `Mirrored.event`, `Mirrored.stirred` and `Mirrored.turn`.
-/

namespace RollCall.Scenario

open World

variable {i : ℕ} {apart : Option ℕ}

/-! ## Participants under labels -/

theorem nameOn_self (name : String) : nameOn i (i, name) = some name := by simp [nameOn]

theorem nameOn_of_ne {j : ℕ} (hij : j ≠ i) (name : String) : nameOn i (j, name) = none := by
  simp [nameOn, hij]

section Labelled

variable (participants : Directory (ℕ × String)) (label : String)

theorem perm_labelledOn_put (participant : ℕ × String) :
    (((participants.get? label).bind (nameOn i)).toList ++
      labelledOn i (participants.put label participant)).Perm
        ((nameOn i participant).toList ++ labelledOn i participants) := by
  have hput := (participants.perm_put label participant).flatMap_right
    fun entry => (nameOn i entry.2).toList
  rw [List.flatMap_append, List.flatMap_cons] at hput
  cases hold : participants.get? label with
  | none => simpa [hold, labelledOn] using hput
  | some old => simpa [hold, labelledOn] using hput

theorem perm_labelledOn_remove :
    (((participants.get? label).bind (nameOn i)).toList ++
      labelledOn i (participants.remove label)).Perm (labelledOn i participants) := by
  have hremove := (participants.perm_remove label).flatMap_right
    fun entry => (nameOn i entry.2).toList
  rw [List.flatMap_append] at hremove
  cases hold : participants.get? label with
  | none => simpa [hold, labelledOn] using hremove
  | some old => simpa [hold, labelledOn] using hremove

end Labelled

/-! ## Participants of launches -/

/-- What the other launches claim stays when one of them is replaced. -/
theorem exists_launch (i : ℕ) (apart : Option ℕ) {launches : List (ℕ × Launch)} {k : ℕ}
    {entry : ℕ × Launch} (hk : launches[k]? = some entry) :
    ∃ first last, launchedOn i apart launches = first ++ (claimsOn i apart k entry ++ last) ∧
      ∀ entry', launchedOn i apart (launches.set k entry') =
        first ++ (claimsOn i apart k entry' ++ last) := by
  obtain ⟨hlt, rfl⟩ := List.getElem?_eq_some_iff.mp hk
  have hlength : min k launches.length = k := Nat.min_eq_left (Nat.le_of_lt hlt)
  have hset (entry' : ℕ × Launch) : launchedOn i apart (launches.set k entry') =
      launchedOn i apart (launches.take k) ++ (claimsOn i apart k entry' ++
        ((launches.drop (k + 1)).zipIdx (k + 1)).flatMap fun e => claimsOn i apart e.2 e.1) := by
    rw [List.set_eq_take_append_cons_drop, if_pos hlt, launchedOn, List.zipIdx_append]
    simp [launchedOn, hlength]
  refine ⟨_, _, ?_, hset⟩
  have hself := hset launches[k]
  rwa [List.set_getElem_self] at hself

theorem launchedOn_set_apart (launches : List (ℕ × Launch)) (k : ℕ) (entry : ℕ × Launch) :
    launchedOn i (some k) (launches.set k entry) = launchedOn i (some k) launches := by
  cases hk : launches[k]? with
  | none => rw [List.set_eq_of_length_le (List.getElem?_eq_none_iff.mp hk)]
  | some old =>
    obtain ⟨first, last, hbefore, hafter⟩ := exists_launch i (some k) hk
    rw [hbefore, hafter]
    simp [claimsOn]

theorem launchedOn_stop (launches : List (ℕ × Launch)) (k : ℕ) :
    launchedOn i apart (launches.modify k fun (registry, l) => (registry, l.stop)) =
      launchedOn i apart launches := by
  cases hk : launches[k]? with
  | none => rw [List.modify_eq_self (List.getElem?_eq_none_iff.mp hk)]
  | some entry =>
    obtain ⟨first, last, hbefore, hafter⟩ := exists_launch i apart hk
    obtain ⟨hlt, rfl⟩ := List.getElem?_eq_some_iff.mp hk
    have hset : launches.modify k (fun (registry, l) => (registry, l.stop)) =
        launches.set k (launches[k].1, launches[k].2.stop) := by
      refine List.ext_getElem? fun m => ?_
      rw [List.getElem?_modify, List.getElem?_set]
      by_cases hkm : k = m
      · subst hkm
        simp [hlt]
      · simp [hkm]
    rw [hset, hbefore, hafter]
    rfl

theorem claims_start (entrants : List Entrant) (now : Instant) :
    (Launch.start entrants now).claims = [] := by
  simp [Launch.claims, Launch.start, Task.claim]

theorem launchedOn_start (launches : List (ℕ × Launch)) (j : ℕ) (entrants : List Entrant)
    (now : Instant) :
    launchedOn i apart (launches ++ [(j, Launch.start entrants now)]) =
      launchedOn i apart launches := by
  simp [launchedOn, List.zipIdx_append, claimsOn, claims_start]

/-- A launch that is still to come is not missed. -/
theorem launchedOn_apart_length (launches : List (ℕ × Launch)) :
    launchedOn i (some launches.length) launches = launchedOn i none launches := by
  refine List.flatMap_congr fun entry hentry => ?_
  have hlt := List.snd_lt_of_mem_zipIdx hentry
  have hne : launches.length ≠ entry.2 := by omega
  simp [claimsOn, hne]

/-! ## Events -/

section Event

variable {y : Gathering} {hs : List Holder} {w : World} {guests rest : List String}

theorem Mirrored.arrive (h : Mirrored i y ⟨hs, w⟩ guests) {j : ℕ} (hj : j < w.registries.length)
    (name : String) :
    Mirrored i y ⟨hs, w.setRegistry j ((w.registry j).join name)⟩
      ((nameOn i (j, name)).toList ++ guests) := by
  by_cases hji : j = i
  · subst hji
    rw [nameOn_self]
    exact h.next fun _ _ h => h.join rfl (registry_setRegistry hj _)
  · rw [nameOn_of_ne hji]
    exact h.next fun _ _ h => h.quiet rfl (registry_setRegistry_of_ne hji _ w) (.refl _)

theorem Mirrored.depart (h : Mirrored i y ⟨hs, w⟩ guests) (participant : Option (ℕ × String))
    (hj : ∀ p, participant = some p → p.1 < w.registries.length)
    (hguests : guests.Perm ((participant.bind (nameOn i)).toList ++ rest)) :
    Mirrored i y ⟨hs, leaveOf participant w⟩ rest := by
  cases participant with
  | none => exact h.of_perm hguests
  | some p =>
    obtain ⟨j, name⟩ := p
    rw [Option.bind_some] at hguests
    by_cases hji : j = i
    · subst hji
      rw [nameOn_self] at hguests
      exact h.next fun _ _ h => h.leave hguests rfl (registry_setRegistry (hj _ rfl) _)
    · rw [nameOn_of_ne hji] at hguests
      exact (h.of_perm hguests).next fun _ _ h =>
        h.quiet rfl (registry_setRegistry_of_ne hji _ w) (.refl _)

theorem Mirrored.aside (h : Mirrored i y ⟨hs, w⟩ guests) {w' : World} (haside : Aside w w') :
    Mirrored i y ⟨hs, w'⟩ guests :=
  h.next fun _ _ h => h.quiet haside.now (haside.registry i) (.refl _)

theorem steady_leaveOf (participant : Option (ℕ × String)) (w : World) :
    Steady w (leaveOf participant w) := by
  cases participant with
  | none => exact ⟨rfl, rfl, rfl⟩
  | some p => exact steady_setRegistry w _ _

theorem Mirrored.event_join (h : Mirrored i y ⟨hs, w⟩ (w.guests i apart)) (hw : w.Grounded)
    (label name graph : String) :
    Mirrored i y ⟨hs, w.apply (.join label name graph)⟩
      ((w.apply (.join label name graph)).guests i apart) := by
  have haside := aside_mention graph w
  have hgrounded := mention_grounded hw graph
  have hj := hgrounded.graph_lt (w.mention_get graph)
  simp only [World.apply]
  generalize w.mention graph = mentioned at haside hgrounded hj ⊢
  obtain ⟨j, w₁⟩ := mentioned
  dsimp only at haside hgrounded hj ⊢
  let w₂ := w₁.setRegistry j ((w₁.registry j).join name)
  let w₃ : World := { w₂ with participants := w₂.participants.put label (j, name) }
  have harrived : Mirrored i y ⟨hs, w₃⟩ ((nameOn i (j, name)).toList ++ w.guests i apart) :=
    ((h.aside haside).arrive hj name).next fun _ _ h => h.quiet rfl rfl (.refl _)
  have hold : ∀ p, w₂.participants.get? label = some p → p.1 < w₃.registries.length := by
    intro p hp
    simpa [w₃, w₂, setRegistry] using hgrounded.participant_lt label p hp
  rw [(steady_leaveOf (w₂.participants.get? label) w₃).guests i apart]
  refine harrived.depart _ hold ?_
  have hput := perm_labelledOn_put (i := i) w₁.participants label (j, name)
  rw [← haside.steady.guests i apart, World.guests, World.guests, ← List.append_assoc,
    ← List.append_assoc]
  exact hput.symm.append_right _

theorem Mirrored.event_leave (h : Mirrored i y ⟨hs, w⟩ (w.guests i apart)) (hw : w.Grounded)
    (label : String) :
    Mirrored i y ⟨hs, w.apply (.leave label)⟩ ((w.apply (.leave label)).guests i apart) := by
  let w₁ : World := { w with participants := w.participants.remove label }
  have hremoved : Mirrored i y ⟨hs, w₁⟩ (w.guests i apart) :=
    h.next fun _ _ h => h.quiet rfl rfl (.refl _)
  rw [World.apply, (steady_leaveOf (w.participants.get? label) w₁).guests i apart]
  refine hremoved.depart _ (hw.participant_lt label) ?_
  rw [World.guests, World.guests, ← List.append_assoc]
  exact (perm_labelledOn_remove w.participants label).symm.append_right _

theorem Mirrored.event_setUnavailable (h : Mirrored i y ⟨hs, w⟩ (w.guests i apart))
    (hw : w.Grounded) (reason : Option String) (graph : String) :
    Mirrored i y ⟨hs, w.apply (.setUnavailable reason graph)⟩
      ((w.apply (.setUnavailable reason graph)).guests i apart) := by
  have haside := aside_mention graph w
  have hj := (mention_grounded hw graph).graph_lt (w.mention_get graph)
  simp only [World.apply]
  generalize w.mention graph = mentioned at haside hj ⊢
  obtain ⟨j, w₁⟩ := mentioned
  dsimp only at haside hj ⊢
  rw [(steady_setRegistry w₁ j _).guests i apart, haside.steady.guests i apart]
  refine (h.aside haside).next fun _ _ h => ?_
  by_cases hji : j = i
  · subst hji
    exact h.setUnavailable reason rfl (registry_setRegistry hj _)
  · exact h.quiet rfl (registry_setRegistry_of_ne hji _ w₁) (.refl _)

/-- An event lets participants join and leave, and changes nothing else about who is there. -/
theorem Mirrored.event (h : Mirrored i y ⟨hs, w⟩ (w.guests i apart)) (hw : w.Grounded) (e : Event) :
    Mirrored i y ⟨hs, w.apply e⟩ ((w.apply e).guests i apart) := by
  cases e with
  | join label name graph => exact h.event_join hw label name graph
  | leave label => exact h.event_leave hw label
  | cancel token => exact h.aside (aside_rest w _ _ _ _ _ _ _)
  | setUnavailable reason graph => exact h.event_setUnavailable hw reason graph

theorem Mirrored.stirred {w' : World} (h : Mirrored i y ⟨hs, w⟩ (w.guests i apart))
    (hw : w.Grounded) (hstirred : Stirred w w') : Mirrored i y ⟨hs, w'⟩ (w'.guests i apart) := by
  induction hstirred with
  | refl => exact h
  | aside haside _ ih =>
    refine ih ?_ (haside.spares.grounded hw)
    rw [haside.steady.guests i apart]
    exact h.aside haside
  | event e _ ih => exact ih (h.event hw e) ((spares_apply e _).grounded hw)

end Event

/-! ## Turns of tasks -/

/-- What a task claims is counted among all the others. -/
theorem perm_claimed {claims claim rest : List String} (h : claims.Perm (claim ++ rest))
    (before first last : List String) :
    (before ++ (first ++ (claims ++ last))).Perm (claim ++ (before ++ (first ++ (rest ++ last)))) := by
  refine List.perm_iff_count.mpr fun name => ?_
  have hcount := h.count_eq name
  simp only [List.count_append] at hcount ⊢
  omega

/-- A participant whose task takes a turn is a guest as long as it claims its name. -/
theorem Mirrored.task {y : Gathering} {hs : List Holder} {w w' : World} {guests : List String}
    {t t' : Task} {stopped : Bool} {now : Instant} {r' : Registry}
    (h : Mirrored i y ⟨hs, w⟩ (t.claim.toList ++ guests))
    (hturn : t.Turn stopped now (w.registry i) t' r') (hnow : w'.now = w.now)
    (hregistry : w'.registry i = r') : Mirrored i y ⟨hs, w'⟩ (t'.claim.toList ++ guests) := by
  have hsame (hclaim : t'.claim = t.claim) (hr : r' = w.registry i) :
      Mirrored i y ⟨hs, w'⟩ (t'.claim.toList ++ guests) := by
    rw [hclaim]
    exact h.next fun _ _ h => h.quiet hnow (hregistry.trans hr) (.refl _)
  cases hturn with
  | waits => exact hsame rfl rfl
  | stays => exact hsame rfl rfl
  | finished => exact hsame rfl rfl
  | cancelled due hstage => exact hsame (by simp [Task.claim, hstage]) rfl
  | joins due hstage =>
    have hnone : t.claim = none := by simp [Task.claim, hstage]
    rw [hnone] at h
    exact h.next fun _ _ h => h.join hnow hregistry
  | leaves hstage =>
    have hsome : t.claim = some t.name := by simp [Task.claim, hstage]
    rw [hsome] at h
    exact h.next fun _ _ h => h.leave (.refl _) hnow hregistry

/-- A task of a launch that is not left out takes a turn. -/
theorem Mirrored.turn {y : Gathering} {hs : List Holder} {w : World}
    (h : Mirrored i y ⟨hs, w⟩ (w.guests i apart)) (hw : w.Grounded) {k : ℕ} (hk : apart ≠ some k)
    (j : ℕ) : Mirrored i y ⟨hs, w.turnTask k j⟩ ((w.turnTask k j).guests i apart) := by
  unfold turnTask
  split
  · exact h
  · rename_i i' l hlaunch
    split
    · exact h
    · rename_i t ht
      have hturn := t.turn_step false l.stopped w.now (w.registry i')
      generalize t.step false l.stopped w.now (w.registry i') = stepped at hturn ⊢
      obtain ⟨t', r'⟩ := stepped
      obtain ⟨first, last, hbefore, hafter⟩ := exists_launch i apart hlaunch
      dsimp only at hturn ⊢
      rw [World.guests, hbefore] at h
      rw [World.guests, hafter]
      by_cases hi : i' = i
      · subst hi
        have hregistry := registry_setRegistry (hw.launches _ (List.mem_of_getElem? hlaunch)) r'
        obtain ⟨rest, hclaims, hclaims'⟩ := Launch.exists_other_claims ht
        have hon (launch : Launch) : claimsOn i' apart k (i', launch) = launch.claims := by
          simp [claimsOn, hk]
        rw [hon] at h ⊢
        refine Mirrored.of_perm ?_ (perm_claimed (hclaims' t') _ first last).symm
        exact (h.of_perm (perm_claimed hclaims _ first last)).task hturn rfl hregistry
      · have hoff (launch : Launch) : claimsOn i apart k (i', launch) = [] := by
          simp [claimsOn, hi]
        rw [hoff] at h ⊢
        exact h.next fun _ _ h => h.quiet rfl (registry_setRegistry_of_ne hi r' w) (.refl _)

end RollCall.Scenario
