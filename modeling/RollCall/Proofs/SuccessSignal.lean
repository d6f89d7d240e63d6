import RollCall.Proofs.PollLoop

/-!
# The outcome of a wait and the names it reports missing

The outcome is decided on the snapshot as it was shown, and what is missing is computed later
from what the session has kept of it, which is without the session's own name. The two agree
unless the session waits for its own name and finds everything: then that name is reported
missing although the wait was a success.
-/

namespace RollCall

namespace Wait.Account

variable {σ η : Type}

/-- Success is decided on the snapshot that a wait ends with. -/
theorem Sound.outcome_eq_found_iff
    {expected : NameSet} {deadline : Instant} {n : ℕ} {before : List Call} {a : Account σ}
    (hsound : Sound expected deadline n before a) {outcome : Outcome} {visible : NameSet}
    (hphase : a.wait.phase = .ended outcome visible) :
    outcome = .found ↔ expected ⊆ visible := by
  have hstanding := hsound.standing
  rw [hphase] at hstanding
  obtain ⟨p, earlier, -, -, -, rfl, rfl⟩ := hstanding
  exact Sighting.outcome_eq_found_iff expected deadline

end Wait.Account

namespace Session

variable {σ η : Type}

/-- The session's own name counts as missing whenever it is expected. -/
theorem mem_missing_of_keep
    (x : Session η) (visible : NameSet) (name : String) :
    name ∈ x.expected.diff (visible.erase x.identity.name) ↔
      name ∈ x.expected ∧ (name ∉ visible ∨ name = x.identity.name) := by
  simp only [NameSet.mem_diff, NameSet.mem_erase, not_and, not_not]
  constructor
  · rintro ⟨hexpected, hunseen⟩
    refine ⟨hexpected, ?_⟩
    by_cases hseen : name ∈ visible
    · right
      exact hunseen hseen
    · left
      exact hseen
  · rintro ⟨hexpected, hunseen | rfl⟩
    · exact ⟨hexpected, fun hseen => absurd hseen hunseen⟩
    · exact ⟨hexpected, fun _ => rfl⟩

/-- Nothing is missing after a wait exactly when its snapshot has everything and the session's
own name is not expected. -/
theorem missingNames_complete_eq_empty_iff
    (L : Link σ η) (outcome : Outcome) (visible : NameSet) (x : Session η) (s : σ) :
    (x.complete L outcome visible s).1.missingNames = .ok ∅ ↔
      x.expected ⊆ visible ∧ x.identity.name ∉ x.expected := by
  have hmissing : (x.complete L outcome visible s).1.missingNames =
      .ok (x.expected.diff (visible.erase x.identity.name)) := rfl
  rw [hmissing, Except.ok.injEq]
  constructor
  · intro hempty
    have hnone : ∀ name, ¬ (name ∈ x.expected ∧ (name ∉ visible ∨ name = x.identity.name)) := by
      intro name hname
      have hmem := (mem_missing_of_keep x visible name).mpr hname
      rw [hempty] at hmem
      exact NameSet.not_mem_empty name hmem
    refine ⟨?_, fun hown => hnone _ ⟨hown, Or.inr rfl⟩⟩
    intro name hname
    by_contra hunseen
    exact hnone name ⟨hname, Or.inl hunseen⟩
  · rintro ⟨hall, hown⟩
    apply NameSet.ext
    intro name
    rw [mem_missing_of_keep]
    constructor
    · rintro ⟨hname, hunseen | rfl⟩
      · exact absurd (hall name hname) hunseen
      · exact absurd hname hown
    · intro hname
      exact absurd hname (NameSet.not_mem_empty name)

/-- After every wait that has ended, success and an empty set of missing names are the same,
except after a success of a session that waits for its own name: then exactly that name is
reported missing. -/
theorem success_signal_agrees_iff
    (L : Link σ η) (cancelled : σ → Bool) (x : Session (ℕ × η)) (h : ℕ × η)
    (hhandle : x.handle = some h) (start : Instant) (r : Recorded σ) :
    ∃ w r₀, x.begin L.recorded start r = .ok (w, r₀) ∧
      ∀ (turns : List (Wait.Turn σ)) (outcome : Outcome) (visible : NameSet),
        let a := Wait.Account.run L cancelled h ⟨w, r₀, []⟩ turns
        let x' := (x.complete L.recorded outcome visible a.record).1
        a.wait.phase = .ended outcome visible →
          ((outcome = .found ↔ x'.missingNames = .ok ∅) ↔
            ¬ (outcome = .found ∧ x.identity.name ∈ x.expected)) ∧
          (outcome = .found → x.identity.name ∈ x.expected →
            x'.missingNames = .ok (NameSet.ofList [x.identity.name])) := by
  obtain ⟨w, r₀, hbegin, hsound⟩ := begin_sound L cancelled hhandle start r
  refine ⟨w, r₀, hbegin, ?_⟩
  intro turns outcome visible a x' hphase
  have hfound : outcome = .found ↔ x.expected ⊆ visible :=
    (hsound turns).outcome_eq_found_iff hphase
  have hempty : x'.missingNames = .ok ∅ ↔
      x.expected ⊆ visible ∧ x.identity.name ∉ x.expected :=
    missingNames_complete_eq_empty_iff L.recorded outcome visible x a.record
  constructor
  · rw [hfound, hempty]
    by_cases hall : x.expected ⊆ visible
    · simp [hall]
    · simp [hall]
  · intro hsuccess hown
    have hall : x.expected ⊆ visible := hfound.mp hsuccess
    have hmissing : x'.missingNames = .ok (x.expected.diff (visible.erase x.identity.name)) := rfl
    rw [hmissing, Except.ok.injEq]
    apply NameSet.ext
    intro name
    rw [mem_missing_of_keep, NameSet.mem_ofList, List.mem_singleton]
    constructor
    · rintro ⟨hname, hunseen | hname'⟩
      · exact absurd (hall name hname) hunseen
      · exact hname'
    · rintro rfl
      exact ⟨hown, Or.inr rfl⟩

/-- A session that waits for one name, which is not its own, is told that nothing is missing. -/
theorem success_signal_agrees_for_other_name :
    let L : Link Registry Registration := Registry.transport.toLink
    let x : Session (ℕ × Registration) :=
      { identity := ⟨"me"⟩, expected := NameSet.ofList ["a"],
        timeout := ⟨1000, by decide⟩, interval := ⟨100, by decide⟩,
        handle := some (0, ⟨"me", true⟩), found := none }
    let world := (Registry.empty.join "me").join "a"
    x.handle = some (0, ⟨"me", true⟩) ∧
      ∃ w r₀, x.begin L.recorded ⟨0⟩ (Recorded.ofBase world) = .ok (w, r₀) ∧
        let a := Wait.Account.run L (fun _ => false) (0, ⟨"me", true⟩) ⟨w, r₀, []⟩ [⟨⟨0⟩, world⟩]
        a.wait.phase = .ended .found world.names ∧
          (Outcome.found = .found ↔
            (x.complete L.recorded .found world.names a.record).1.missingNames = .ok ∅) := by
  intro L x world
  refine ⟨rfl, ?_⟩
  obtain ⟨w, r₀, hbegin, hruns⟩ := success_signal_agrees_iff L (fun _ => false) x
    (0, ⟨"me", true⟩) rfl ⟨0⟩ (Recorded.ofBase world)
  refine ⟨w, r₀, hbegin, ?_⟩
  cases hbegin
  obtain ⟨hagrees, -⟩ := hruns [⟨⟨0⟩, world⟩] .found world.names rfl
  exact ⟨rfl, hagrees.mpr (by decide)⟩

/-- A session that waits for its own name is told of success, and that its name is missing. -/
theorem own_name_found_and_missing :
    let T : Transport Registry Registration := Registry.transport
    let name := "_test_node_AAAAAAAAAA"
    ∃ x r w r₀,
      connect T.recorded [name] Settings.standard ⟨name⟩ (Recorded.ofBase Registry.empty) =
        .ok (x, r) ∧
      x.begin T.toLink.recorded ⟨0⟩ r = .ok (w, r₀) ∧
      let a := Wait.Account.run T.toLink (fun _ => false) (0, ⟨name, true⟩) ⟨w, r₀, []⟩
        [⟨⟨0⟩, r₀.base⟩]
      let x' := (x.complete T.toLink.recorded .found (NameSet.ofList [name]) a.record).1
      a.wait.phase = .ended .found (NameSet.ofList [name]) ∧
        x'.missingNames = .ok (NameSet.ofList [name]) ∧
        ¬ (Outcome.found = .found ↔ x'.missingNames = .ok ∅) := by
  intro T name
  have husable : Settings.standard.durations.isOk = true := by decide +kernel
  obtain ⟨⟨timeout, interval⟩, hdurations⟩ : ∃ spans, Settings.standard.durations = .ok spans := by
    cases hspans : Settings.standard.durations with
    | ok spans => exact ⟨spans, rfl⟩
    | error e => simp [hspans, Except.isOk, Except.toBool] at husable
  let x : Session (ℕ × Registration) :=
    ⟨⟨name⟩, NameSet.ofList [name], timeout, interval, some (0, ⟨name, true⟩), none⟩
  let r : Recorded Registry :=
    ⟨{ Registry.empty.join name with tally := ⟨1, 0⟩ }, [(0, .created)]⟩
  have hconnect : connect T.recorded [name] Settings.standard ⟨name⟩
      (Recorded.ofBase Registry.empty) = .ok (x, r) := by
    rw [connect, hdurations]
    rfl
  refine ⟨x, r, Wait.begin x.expected timeout interval ⟨0⟩, r, hconnect, rfl, rfl, rfl, ?_⟩
  intro hagrees
  have hempty := hagrees.mp rfl
  cases hempty

end Session

end RollCall
