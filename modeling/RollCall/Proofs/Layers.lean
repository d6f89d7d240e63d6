import RollCall.CommandLine.Run
import RollCall.Proofs.Overrides

/-!
# The layers of a plan

The plan of a run is laid from three layers: a file or the demonstration, the environment, the
command line. Each span is taken from the topmost layer that gives it, and so is each list; the
stem of the identity comes from the lowest layer alone.

Two things are checked at different moments. A variable that is set has to be a number, whatever
lies above it; whether a number of seconds is a duration matters only if nothing lies above it.
-/

namespace RollCall.CommandLine

open Environment (Says Misread)
open Settings (Takes Blames)

def Arguments.seconds? (a : Arguments) : Span → Option Binary64
  | .timeout => a.timeout
  | .interval => a.interval

/-- The three layers laid on each other: what the command line gives, then what the environment
says, then the base. -/
structure Layered (env : Environment) (a : Arguments) (base plan : Plan) : Prop where
  given : ∀ span x, a.seconds? span = some x → plan.settings.seconds span = x
  said : ∀ (span : Span) (text : String), a.seconds? span = none →
    env span.variableName = some text.toUTF8 → Says text.toUTF8 (plan.settings.seconds span)
  kept : ∀ span : Span, a.seconds? span = none →
    (∀ text : String, env span.variableName ≠ some text.toUTF8) →
      plan.settings.seconds span = base.settings.seconds span
  stem : plan.settings.stem = base.settings.stem
  expected : plan.expected = if a.expect = [] then base.expected else a.expect
  participants : plan.participants = if a.spawn = [] then base.participants else a.spawn

theorem replaced_eq {α : Type} (given base : List α) :
    replaced given base = if given = [] then base else given := by
  cases given with
  | nil => rfl
  | cons x rest => rfl

/-- A plan on which the command line has been laid, over settings that have heard the
environment. -/
def overlaid (a : Arguments) (base : Plan) (settings : Settings) : Plan where
  settings := overriddenBy a settings
  expected := replaced a.expect base.expected
  participants := replaced a.spawn base.participants

theorem seconds_overriddenBy (a : Arguments) (s : Settings) (span : Span) :
    (overriddenBy a s).seconds span = (a.seconds? span).getD (s.seconds span) := by
  cases span with
  | timeout => rfl
  | interval => rfl

section Outcome

variable {env env' : Environment} {a : Arguments} {base base' plan plan' : Plan}
  {e : SettingsError}

theorem layered_overlaid {settings : Settings} (htakes : Takes env base.settings settings) :
    Layered env a base (overlaid a base settings) where
  given span x hx := by
    simp only [overlaid, seconds_overriddenBy, hx, Option.getD_some]
  said span text hnone hset := by
    simp only [overlaid, seconds_overriddenBy, hnone, Option.getD_none]
    exact htakes.said span text hset
  kept span hnone hset := by
    simp only [overlaid, seconds_overriddenBy, hnone, Option.getD_none]
    exact htakes.kept span hset
  stem := htakes.stem
  expected := replaced_eq _ _
  participants := replaced_eq _ _

/-- The layers leave nothing open. -/
theorem Layered.unique (h : Layered env a base plan) (h' : Layered env a base plan') :
    plan = plan' := by
  have hsettings : plan.settings = plan'.settings := by
    refine Settings.eq_iff_seconds.mpr ⟨?_, h.stem.trans h'.stem.symm⟩
    intro span
    cases hgiven : a.seconds? span with
    | some x => rw [h.given span x hgiven, h'.given span x hgiven]
    | none =>
      by_cases hset : ∃ text : String, env span.variableName = some text.toUTF8
      · obtain ⟨text, hset⟩ := hset
        exact (h.said span text hgiven hset).unique (h'.said span text hgiven hset)
      · have hunset := not_exists.mp hset
        rw [h.kept span hgiven hunset, h'.kept span hgiven hunset]
  have hexpected := h.expected.trans h'.expected.symm
  have hparticipants := h.participants.trans h'.participants.symm
  cases plan
  cases plan'
  cases hsettings
  cases hexpected
  cases hparticipants
  rfl

theorem not_blames (hread : ∀ span text, ¬ Misread env span text) {span : Span} {text : String} :
    ¬ Blames env span text :=
  fun hblames => hread span text hblames.misread

/-- A plan is laid and then checked, unless a variable is misread. -/
theorem resolveFrom_cases (env : Environment) (a : Arguments) (base : Plan) :
    (∃ span text, Blames env span text ∧
        resolveFrom env a base = .error (.environment (.notANumber span text))) ∨
      (∀ span text, ¬ Misread env span text) ∧ ∃ plan, Layered env a base plan ∧
        ((∃ e, plan.settings.check = .error e ∧ resolveFrom env a base = .error (.settings e)) ∨
          plan.settings.check = .ok () ∧ resolveFrom env a base = .ok plan) := by
  simp only [resolveFrom]
  cases htaken : base.settings.override env.text? with
  | error e =>
    obtain ⟨span, text, rfl, hblames⟩ := Settings.override_eq_error_iff.mp htaken
    exact Or.inl ⟨span, text, hblames, rfl⟩
  | ok settings =>
    have htakes := Settings.override_eq_ok_iff.mp htaken
    refine Or.inr ⟨htakes.not_misread, overlaid a base settings, layered_overlaid htakes, ?_⟩
    simp only [overlaid]
    cases hcheck : (overriddenBy a settings).check with
    | error e => exact Or.inl ⟨e, rfl, rfl⟩
    | ok _ => exact Or.inr ⟨rfl, rfl⟩

theorem resolveFrom_ne_plan (env : Environment) (a : Arguments) (base : Plan) (cause : PlanError) :
    resolveFrom env a base ≠ .error (.plan cause) := by
  rcases resolveFrom_cases env a base with
    ⟨_, _, -, hout⟩ | ⟨-, _, -, ⟨_, -, hout⟩ | ⟨-, hout⟩⟩ <;> simp [hout]

/-- A variable that is no number is an error, whatever lies above it. -/
theorem resolveFrom_eq_environment_iff :
    resolveFrom env a base = .error (.environment e) ↔
      ∃ span text, e = .notANumber span text ∧ Blames env span text := by
  rcases resolveFrom_cases env a base with
    ⟨span, text, hblames, hout⟩ | ⟨hread, _, -, ⟨_, -, hout⟩ | ⟨-, hout⟩⟩
  · rw [← Settings.override_eq_error_iff (s := base.settings),
      Settings.override_eq_error_iff.mpr ⟨span, text, rfl, hblames⟩, hout]
    simp
  · simp [hout, not_blames hread]
  · simp [hout, not_blames hread]

theorem resolveFrom_eq_settings_iff :
    resolveFrom env a base = .error (.settings e) ↔
      (∀ span text, ¬ Misread env span text) ∧
        ∃ plan, Layered env a base plan ∧ plan.settings.check = .error e := by
  rcases resolveFrom_cases env a base with
    ⟨span, text, hblames, hout⟩ | ⟨hread, plan, hlaid, ⟨_, hcheck, hout⟩ | ⟨hcheck, hout⟩⟩
  · simp only [hout, Except.error.injEq, reduceCtorEq, false_iff, not_and]
    intro hread
    exact absurd hblames.misread (hread span text)
  · simp only [hout, Except.error.injEq, ResolveError.settings.injEq]
    constructor
    · rintro rfl
      exact ⟨hread, plan, hlaid, hcheck⟩
    · rintro ⟨-, plan', hlaid', hcheck'⟩
      obtain rfl := hlaid.unique hlaid'
      exact Except.error.inj (hcheck.symm.trans hcheck')
  · simp only [hout, reduceCtorEq, false_iff, not_and, not_exists]
    intro _ plan' hlaid'
    obtain rfl := hlaid.unique hlaid'
    simp [hcheck]

theorem resolveFrom_eq_ok_iff :
    resolveFrom env a base = .ok plan ↔
      (∀ span text, ¬ Misread env span text) ∧ Layered env a base plan ∧
        plan.settings.check = .ok () := by
  rcases resolveFrom_cases env a base with
    ⟨span, text, hblames, hout⟩ | ⟨hread, plan', hlaid, ⟨_, hcheck, hout⟩ | ⟨hcheck, hout⟩⟩
  · simp only [hout, reduceCtorEq, false_iff, not_and]
    intro hread
    exact absurd hblames.misread (hread span text)
  · simp only [hout, reduceCtorEq, false_iff, not_and]
    intro _ hlaid'
    obtain rfl := hlaid.unique hlaid'
    simp [hcheck]
  · simp only [hout, Except.ok.injEq]
    constructor
    · rintro rfl
      exact ⟨hread, hlaid, hcheck⟩
    · rintro ⟨-, hlaid', -⟩
      exact hlaid.unique hlaid'

/-- What comes of a plan depends on what the variables are blamed for and on what is laid. -/
theorem resolveFrom_of_same
    (hmisread : ∀ span text, Misread env span text ↔ Misread env' span text)
    (hlaid : ∀ plan, Layered env a base plan ↔ Layered env' a base' plan) :
    resolveFrom env a base = resolveFrom env' a base' := by
  rcases resolveFrom_cases env' a base' with
    ⟨span, text, hblames, hout⟩ | ⟨hread, plan, hlaid', ⟨e, hcheck, hout⟩ | ⟨hcheck, hout⟩⟩
  · rw [hout, resolveFrom_eq_environment_iff]
    refine ⟨span, text, rfl, (hmisread _ _).mpr hblames.misread, ?_⟩
    simpa only [hmisread] using hblames.first
  · rw [hout, resolveFrom_eq_settings_iff]
    simp only [hmisread, hlaid]
    exact ⟨hread, plan, hlaid', hcheck⟩
  · rw [hout, resolveFrom_eq_ok_iff]
    simp only [hmisread, hlaid]
    exact ⟨hread, hlaid', hcheck⟩

end Outcome

/-! ## What lies below another layer -/

section Below

variable {env env' : Environment} {a : Arguments} {base base' : Plan}

/-- A layer matters only where no layer above gives the same. -/
theorem Layered.imp {plan : Plan} (h : Layered env a base plan)
    (hsaid : ∀ span : Span, a.seconds? span = none → ∀ text : String,
      env' span.variableName = some text.toUTF8 ↔ env span.variableName = some text.toUTF8)
    (hkept : ∀ span : Span, a.seconds? span = none →
      (∀ text : String, env span.variableName ≠ some text.toUTF8) →
        base'.settings.seconds span = base.settings.seconds span)
    (hstem : base'.settings.stem = base.settings.stem) (hexpected : base'.expected = base.expected)
    (hparticipants : base'.participants = base.participants) : Layered env' a base' plan where
  given := h.given
  said span text hnone hset := h.said span text hnone ((hsaid span hnone text).mp hset)
  kept span hnone hset := by
    have hunset : ∀ text : String, env span.variableName ≠ some text.toUTF8 := by
      intro text htext
      exact hset text ((hsaid span hnone text).mpr htext)
    rw [hkept span hnone hunset]
    exact h.kept span hnone hunset
  stem := by rw [hstem, h.stem]
  expected := by rw [hexpected, h.expected]
  participants := by rw [hparticipants, h.participants]

/-- A file's value of a span that a layer above gives can be anything. -/
theorem resolveFrom_setSeconds {span : Span}
    (hgiven : a.seconds? span ≠ none ∨
      ∃ text : String, env span.variableName = some text.toUTF8)
    (base : Plan) (value : Binary64) :
    resolveFrom env a { base with settings := base.settings.setSeconds value span } =
      resolveFrom env a base := by
  have hkept : ∀ other : Span, a.seconds? other = none →
      (∀ text : String, env other.variableName ≠ some text.toUTF8) →
        (base.settings.setSeconds value span).seconds other = base.settings.seconds other := by
    intro other hnone hunset
    apply Settings.seconds_setSeconds_of_ne
    rintro rfl
    rcases hgiven with hgiven | ⟨text, htext⟩
    · exact hgiven hnone
    · exact hunset text htext
  apply resolveFrom_of_same fun _ _ => Iff.rfl
  intro plan
  constructor
  · intro h
    exact h.imp (fun _ _ _ => Iff.rfl) (fun other hnone hset => (hkept other hnone hset).symm)
      (Settings.stem_setSeconds _ _ _).symm rfl rfl
  · intro h
    exact h.imp (fun _ _ _ => Iff.rfl) hkept (Settings.stem_setSeconds _ _ _) rfl rfl

/-- A variable's number for a span that the command line gives can be anything. -/
theorem resolveFrom_congr {span : Span} (hgiven : a.seconds? span ≠ none)
    (hread : ∀ text, Misread env span text ↔ Misread env' span text)
    (hothers : ∀ other : Span, other ≠ span → ∀ text : String,
      env other.variableName = some text.toUTF8 ↔ env' other.variableName = some text.toUTF8)
    (base : Plan) : resolveFrom env a base = resolveFrom env' a base := by
  have hbelow : ∀ other : Span, a.seconds? other = none → ∀ text : String,
      env other.variableName = some text.toUTF8 ↔ env' other.variableName = some text.toUTF8 := by
    intro other hnone
    apply hothers
    rintro rfl
    exact hgiven hnone
  apply resolveFrom_of_same
  · intro other text
    by_cases hother : other = span
    · rw [hother]
      exact hread text
    · simp only [Misread, hothers other hother]
  · intro plan
    constructor
    · intro h
      exact h.imp (fun other hnone text => (hbelow other hnone text).symm)
        (fun _ _ _ => rfl) rfl rfl rfl
    · intro h
      exact h.imp hbelow (fun _ _ _ => rfl) rfl rfl rfl

end Below

/-- A run does what its layers say, each span and each list taken from the topmost layer that gives
it, exactly if the file can be loaded, the variables that are set are numbers, and the settings
that come of it pass their check. Otherwise it reports the first of these that fails, and of two
variables that are no numbers the timeout. A value that a layer above replaces is of no
consequence, except that a variable has to be a number. -/
theorem resolve_layers (files : Files) (env : Environment) (a : Arguments) :
    (∀ plan, resolve files env a = .ok plan ↔
      ∃ base, Plan.loadOrDemonstrate files a.config = .ok base ∧
        (∀ span text, ¬ Misread env span text) ∧
        Layered env a base plan ∧ plan.settings.check = .ok ()) ∧
    (∀ e, resolve files env a = .error (.plan e) ↔
      Plan.loadOrDemonstrate files a.config = .error e) ∧
    (∀ e, resolve files env a = .error (.environment e) ↔
      (∃ base, Plan.loadOrDemonstrate files a.config = .ok base) ∧
        ∃ span text, e = .notANumber span text ∧ Blames env span text) ∧
    (∀ e, resolve files env a = .error (.settings e) ↔
      ∃ base, Plan.loadOrDemonstrate files a.config = .ok base ∧
        (∀ span text, ¬ Misread env span text) ∧
        ∃ plan, Layered env a base plan ∧ plan.settings.check = .error e) ∧
    (∀ base, (∀ span text, ¬ Misread env span text) → ∃ plan, Layered env a base plan ∧
      ∀ plan', Layered env a base plan' → plan' = plan) ∧
    (∀ span : Span, a.seconds? span ≠ none ∨
        (∃ text : String, env span.variableName = some text.toUTF8) →
      ∀ base value,
        resolveFrom env a { base with settings := base.settings.setSeconds value span } =
          resolveFrom env a base) ∧
    (∀ span, a.seconds? span ≠ none → ∀ env' : Environment,
      (∀ text, Misread env span text ↔ Misread env' span text) →
      (∀ other : Span, other ≠ span → ∀ text : String,
        env other.variableName = some text.toUTF8 ↔ env' other.variableName = some text.toUTF8) →
      resolve files env a = resolve files env' a) := by
  refine ⟨?_, ?_, ?_, ?_, ?_, ?_, ?_⟩
  · intro plan
    unfold resolve
    cases Plan.loadOrDemonstrate files a.config with
    | error cause => simp
    | ok base => simp [resolveFrom_eq_ok_iff]
  · intro e
    unfold resolve
    cases Plan.loadOrDemonstrate files a.config with
    | error cause => simp
    | ok base => simp [resolveFrom_ne_plan]
  · intro e
    unfold resolve
    cases Plan.loadOrDemonstrate files a.config with
    | error cause => simp
    | ok base => simp [resolveFrom_eq_environment_iff]
  · intro e
    unfold resolve
    cases Plan.loadOrDemonstrate files a.config with
    | error cause => simp
    | ok base => simp [resolveFrom_eq_settings_iff]
  · intro base hread
    have hlaid := layered_overlaid (a := a) (Settings.takes_overridden base.settings hread)
    exact ⟨_, hlaid, fun _ hlaid' => hlaid'.unique hlaid⟩
  · intro span hgiven base value
    exact resolveFrom_setSeconds hgiven base value
  · intro span hgiven env' hread hothers
    unfold resolve
    cases Plan.loadOrDemonstrate files a.config with
    | error cause => rfl
    | ok base => exact resolveFrom_congr hgiven hread hothers base

end RollCall.CommandLine
