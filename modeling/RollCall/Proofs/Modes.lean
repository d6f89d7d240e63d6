import Mathlib.Data.List.Induction
import RollCall.Check
import RollCall.Proofs.RegistrySession

/-!
# The two modes of a check agree

A plain check and a scoped one are run from the same registry under the same identity, through the
same moments: at each of them others arrive and depart, and the check takes a turn, in which it may
look at its token. The two see the same registry at every moment and poll it alike, and they are
done in the same turn. A scoped check then has the result of the plain one, but for a report
without success it has a timeout with the same missing names.

The invariant pairs the two: while the plain check waits, the scoped one waits in the scope of the
same session; once they are done, the second result is the scoped form of the first.
-/

namespace RollCall

namespace Registry

/-- What others do to a registry. -/
inductive Passage
  | arrival (name : String)
  | departure (name : String)

def pass (r : Registry) : Passage → Registry
  | .arrival name => r.join name
  | .departure name => r.leave name

theorem tally_pass (passages : List Passage) (r : Registry) :
    (passages.foldl pass r).tally = r.tally := by
  induction passages generalizing r with
  | nil => rfl
  | cons p passages ih =>
    rw [List.foldl_cons, ih]
    cases p with
    | arrival name => rfl
    | departure name => rfl

end Registry

namespace Check

/-- A moment in the life of a check: what others have done since the moment before, and what the
token says whenever it is looked at. -/
structure Moment where
  now : Instant
  passages : List Registry.Passage
  fired : Traced Registry Empty → Bool

abbrev Run := Check Registration × Traced Registry Empty

def turn (y : Run) (m : Moment) : Run :=
  y.1.advance Registry.traced m.fired m.now
    (y.2.withBase (m.passages.foldl Registry.pass y.2.base))

/-- A check from its start on, through some moments. -/
def run (mode : Mode) (expected : List String) (settings : Settings) (identity : Identity)
    (start : Instant) (g : Registry) (moments : List Moment) : Run :=
  moments.foldl turn (Check.start Registry.traced mode expected settings identity start ⟨g, []⟩)

/-- The result of a scoped check in place of a plain one: a report without success is a timeout. -/
def scopedForm : ReportResult → ReportResult
  | .ok report => if report.success then .ok report else .error (.timeout report.missing)
  | .error e => .error e

/-- The result of a plain check whose wait has ended, from what the session has found. -/
def plainResult (outcome : Outcome) (found missing : NameSet) : ReportResult :=
  match outcome with
  | .found => .ok ⟨true, found, missing⟩
  | .timedOut => .ok ⟨false, found, missing⟩
  | .cancelled => .error (.cancelled missing)

/-! ## The end of a wait -/

variable {x : Session Registration} {g : Registration}

def afterClose (g : Registration) (r : Traced Registry Empty) : Traced Registry Empty :=
  r.note .released (g.destroy r.base).2

/-- A plain check reads its results and shuts its session down. -/
theorem finishPlain_registry
    (hhandle : x.handle = some g) (outcome : Outcome) (visible : NameSet)
    (r : Traced Registry Empty) :
    let found := visible.erase x.identity.name
    finishPlain Registry.traced (x.keep visible) outcome r =
      (.done (plainResult outcome found (x.expected.diff found)), afterClose g r) := by
  intro found
  have hkept : (x.keep visible).handle = some g := hhandle
  have hreport : report (x.keep visible) (outcome = .found) =
      .ok ⟨outcome = .found, found, x.expected.diff found⟩ := rfl
  simp only [finishPlain, hreport, Session.close_registry hkept]
  cases outcome with
  | found => rfl
  | timedOut => rfl
  | cancelled => rfl

/-- A scope that reports comes to the scoped form of the same result, in the same world. -/
theorem afterWait_registry
    (hhandle : x.handle = some g) (outcome : Outcome) (visible : NameSet) (now : Instant)
    (r : Traced Registry Empty) :
    let found := visible.erase x.identity.name
    let out := Scope.afterWait Registry.traced (reporting Registry.traced) (x.keep visible) outcome
      now r
    ofScope out.1 = .done (scopedForm (plainResult outcome found (x.expected.diff found))) ∧
      out.2 = afterClose g r := by
  intro found out
  have hkept : (x.keep visible).handle = some g := hhandle
  have hmissing : (x.keep visible).missingNames = .ok (x.expected.diff found) := rfl
  have hleave : ∀ result : ScopeResult Empty ReportResult,
      Scope.leave (β := Unit) Registry.traced (x.keep visible) result r =
        (.left result, afterClose g r) := by
    intro result
    simp only [Scope.leave, Session.close_registry hkept, afterClose]
  cases outcome with
  | found =>
    have hout : out = (.left (.returned (report (x.keep visible) true)), afterClose g r) :=
      hleave _
    rw [hout]
    exact ⟨rfl, rfl⟩
  | timedOut =>
    have hout : out = (.left (.failed (.timeout (x.expected.diff found))), afterClose g r) := by
      simp only [out, Scope.afterWait, Scope.leaveUnfound, hmissing, hleave]
    rw [hout]
    exact ⟨rfl, rfl⟩
  | cancelled =>
    have hout : out = (.left (.failed (.cancelled (x.expected.diff found))), afterClose g r) := by
      simp only [out, Scope.afterWait, Scope.leaveUnfound, hmissing, hleave]
    rw [hout]
    exact ⟨rfl, rfl⟩

/-! ## The invariant -/

/-- What a check can fail with in both of its modes. -/
def Settled (result : ReportResult) : Prop :=
  ∀ e, result = .error e →
    (∃ cause, e = .settings cause) ∨ (∃ reason, e = .transport reason) ∨
      ∃ missing, e = .cancelled missing

theorem settled_plainResult (outcome : Outcome) (found missing : NameSet) :
    Settled (plainResult outcome found missing) := by
  intro e he
  cases outcome with
  | found => cases he
  | timedOut => cases he
  | cancelled =>
    cases he
    exact Or.inr (Or.inr ⟨missing, rfl⟩)

/-- How a plain check and a scoped one stand to each other, on a registry that had the tally
`before`. They see the same registry, and have traced the same. -/
inductive Paired (before : Tally) : Run → Run → Prop
  | waiting {x : Session Registration} {g : Registration} (w : Wait)
      {r : Traced Registry Empty} (hhandle : x.handle = some g) (hlive : g.live = true)
      (htally : r.base.tally = ⟨before.created + 1, before.destroyed⟩) :
      Paired before (.plain x w, r) (.scoped (.waiting x w), r)
  | done {result : ReportResult} {r : Traced Registry Empty} (hresult : Settled result)
      (htally : r.base.tally.live? = before.live?) :
      Paired before (.done result, r) (.done (scopedForm result), r)

theorem live?_succ (created destroyed : ℕ) :
    Tally.live? ⟨created + 1, destroyed + 1⟩ = Tally.live? ⟨created, destroyed⟩ := by
  simp [Tally.live?]

theorem paired_start
    (expected : List String) (settings : Settings) (identity : Identity) (start : Instant)
    (g : Registry) :
    Paired g.tally (run .plain expected settings identity start g [])
      (run .scoped expected settings identity start g []) := by
  simp only [run, List.foldl_nil, Check.start, Scope.enter]
  rcases hconnect : Session.connect Registry.traced expected settings identity ⟨g, []⟩ with
    e | ⟨x, r⟩
  · have hsettled : Settled (.error e) := by
      intro e' he'
      cases he'
      rcases Session.connect_ne_usage hconnect with hcause | hreason
      · exact Or.inl hcause
      · exact Or.inr (Or.inl hreason)
    exact .done hsettled rfl
  · obtain ⟨-, ⟨timeout, interval, -, rfl⟩, rfl⟩ := Session.connect_registry hconnect
    exact .waiting _ rfl rfl rfl

/-- A check that has shut its session down has destroyed one handle more, as it had created one. -/
theorem live?_afterClose
    {before : Tally} {g : Registration} (hlive : g.live = true) {r : Traced Registry Empty}
    (htally : r.base.tally = ⟨before.created + 1, before.destroyed⟩) :
    (afterClose g r).base.tally.live? = before.live? := by
  have hclosed : (afterClose g r).base.tally =
      { r.base.tally with destroyed := r.base.tally.destroyed + 1 } := by
    simp [afterClose, Chronicle.note, Registration.destroy, hlive, Registry.leave]
  rw [hclosed, htally]
  exact live?_succ before.created before.destroyed

/-- At every moment the two checks do the same. -/
theorem paired_turn {before : Tally} {y z : Run} (hpaired : Paired before y z) (m : Moment) :
    Paired before (turn y m) (turn z m) := by
  cases hpaired with
  | @waiting x g w r hhandle hlive htally =>
    let r₁ := r.withBase (m.passages.foldl Registry.pass r.base)
    have hbase := Wait.advance_registry m.fired g m.now w r₁
    rcases hout : w.advance Registry.traced.toLink m.fired g m.now r₁ with ⟨w', r'⟩
    rw [hout] at hbase
    have htally' : r'.base.tally = ⟨before.created + 1, before.destroyed⟩ := by
      rw [hbase, ← htally]
      exact Registry.tally_pass m.passages r.base
    simp only [turn, advance, Scope.advance, hhandle]
    rcases Session.turn_cases x hout with ⟨outcome, visible, -, hturn⟩ | ⟨-, hturn⟩
    · obtain ⟨hresult, hworld⟩ := afterWait_registry hhandle outcome visible m.now r'
      rw [hturn]
      simp only [Session.complete_registry, finishPlain_registry hhandle, hresult, hworld]
      exact .done (settled_plainResult outcome _ _) (live?_afterClose hlive htally')
    · rw [hturn]
      exact .waiting w' hhandle hlive htally'
  | @done result r hresult htally =>
    have htally' : (m.passages.foldl Registry.pass r.base).tally.live? = before.live? := by
      rw [Registry.tally_pass, htally]
    exact .done hresult htally'

theorem paired_run
    (expected : List String) (settings : Settings) (identity : Identity) (start : Instant)
    (g : Registry) (moments : List Moment) :
    Paired g.tally (run .plain expected settings identity start g moments)
      (run .scoped expected settings identity start g moments) := by
  induction moments using List.reverseRecOn with
  | nil => exact paired_start expected settings identity start g
  | append_singleton moments m ih =>
    simp only [run, List.foldl_append]
    exact paired_turn ih m

/-! ## Agreement -/

theorem scopedForm_eq_ok_iff {result : ReportResult} {report : Report} :
    scopedForm result = .ok report ↔ result = .ok report ∧ report.success = true := by
  rcases result with e | ⟨success, found, missing⟩
  · simp [scopedForm]
  · cases success with
    | false =>
      simp only [scopedForm, Bool.false_eq_true, if_false, reduceCtorEq, Except.ok.injEq, false_iff]
      rintro ⟨rfl, hsuccess⟩
      cases hsuccess
    | true =>
      simp only [scopedForm, if_true, Except.ok.injEq, iff_self_and]
      rintro rfl
      rfl

theorem scopedForm_eq_timeout_iff {result : ReportResult} (hresult : Settled result)
    {missing : NameSet} :
    scopedForm result = .error (.timeout missing) ↔
      ∃ found, result = .ok ⟨false, found, missing⟩ := by
  rcases result with e | ⟨success, found, missing'⟩
  · have hno : e ≠ .timeout missing := by
      rintro rfl
      rcases hresult _ rfl with ⟨_, he⟩ | ⟨_, he⟩ | ⟨_, he⟩
      · cases he
      · cases he
      · cases he
    simp [scopedForm, hno]
  · cases success with
    | false => simp [scopedForm]
    | true => simp [scopedForm]

theorem scopedForm_eq_error_iff {result : ReportResult} {e : WaitFailure}
    (htimely : ∀ missing, e ≠ .timeout missing) :
    scopedForm result = .error e ↔ result = .error e := by
  rcases result with e' | ⟨success, found, missing⟩
  · rfl
  · cases success with
    | false =>
      have hno : WaitFailure.timeout missing ≠ e := (htimely missing).symm
      simp [scopedForm, hno]
    | true => simp [scopedForm]

/-- Whatever the registry, the settings, the arrivals and departures and the token, a plain check
and a scoped one under the same identity make the same polls and leave the same registry, with as
many handles alive as before once they are done. They are done at the same moment. One succeeds
with a report when the other does, the plain one reports no success when the scoped one has timed
out with the same names missing, and any other failure is the same in both: of the settings, of
the transport, or a cancellation with the same names missing. -/
theorem modes_agree
    (expected : List String) (settings : Settings) (identity : Identity) (start : Instant)
    (g : Registry) (moments : List Moment) :
    let y := run .plain expected settings identity start g moments
    let z := run .scoped expected settings identity start g moments
    y.2 = z.2 ∧
    (y.1.result?.isSome → y.2.base.tally.live? = g.tally.live?) ∧
    (y.1.result?.isSome ↔ z.1.result?.isSome) ∧
    (∀ report, report.success = true →
      (y.1.result? = some (.ok report) ↔ z.1.result? = some (.ok report))) ∧
    (∀ missing, (∃ found, y.1.result? = some (.ok ⟨false, found, missing⟩)) ↔
      z.1.result? = some (.error (.timeout missing))) ∧
    (∀ e, (∀ missing, e ≠ .timeout missing) →
      (y.1.result? = some (.error e) ↔ z.1.result? = some (.error e))) ∧
    (∀ e, y.1.result? = some (.error e) →
      (∃ cause, e = .settings cause) ∨ (∃ reason, e = .transport reason) ∨
        ∃ missing, e = .cancelled missing) ∧
    (∀ report, z.1.result? = some (.ok report) → report.success = true) := by
  intro y z
  have hpaired : Paired g.tally y z := paired_run expected settings identity start g moments
  clear_value y z
  cases hpaired with
  | waiting w hhandle hlive htally => simp [result?]
  | @done result r hresult htally =>
    refine ⟨rfl, fun _ => htally, Iff.rfl, ?_⟩
    simp only [result?, Option.some.injEq]
    refine ⟨?_, ?_, ?_, hresult, ?_⟩
    · intro report hsuccess
      rw [scopedForm_eq_ok_iff]
      exact (and_iff_left hsuccess).symm
    · intro missing
      exact (scopedForm_eq_timeout_iff hresult).symm
    · intro e htimely
      exact (scopedForm_eq_error_iff htimely).symm
    · intro report hok
      exact (scopedForm_eq_ok_iff.mp hok).2

end Check

end RollCall
