import RollCall.Proofs.PollLoop

/-!
# The life of a session

Waits, accessors and shutdowns follow one another on one session, in any order and number, each in
whatever world the others have left behind. A wait is given turns; if they do not end it, it is
abandoned where it stands. All that has been done is kept with its answers.

The session is always what its answers make of it: a wait that has ended puts its snapshot into
it, the first shutdown takes the handle out, and every other answer leaves it alone. So the answer
to the next operation follows from what has been answered before.
-/

namespace RollCall

variable {σ η : Type}

/-! ## A wait does not look at what was recorded before -/

namespace Wait

section Unrecorded

variable (L : Link σ η) (cancelled : σ → Bool) (h : ℕ × η) (now : Instant) (w : Wait)
  (r : Recorded σ)

/-- A turn of a wait does to it what it does without a record. -/
theorem advance_unrecorded :
    (w.advance L.recorded (fun r => cancelled r.base) h now r).1 =
      (w.advance L cancelled h.2 now r.base).1 := by
  have hmirrors := advance_mirrors (L.noted_mirrors .numbered) cancelled now w r h
  exact (congrArg Prod.fst hmirrors).symm

theorem see_atOnce_unrecorded (polls : List Sighting) :
    w.see L.recorded (fun r => cancelled r.base) now (atOnce (L.recorded.poll h r)) polls =
      w.see L cancelled now (atOnce (L.poll h.2 r.base)) polls := by
  by_cases htakes : (L.poll h.2 r.base).1.takes = 0
  · have htakes' : (L.recorded.poll h r).1.takes = 0 := htakes
    simp only [atOnce, htakes, htakes', if_true]
    rfl
  · have htakes' : (L.recorded.poll h r).1.takes ≠ 0 := htakes
    simp only [atOnce, htakes, htakes', if_false]
    rfl

theorem see_unrecorded (polls : List Sighting) :
    w.see L.recorded (fun r => cancelled r.base) now
        (w.answered? L.recorded (fun r => cancelled r.base) h now r) polls =
      w.see L cancelled now (w.answered? L cancelled h.2 now r.base) polls := by
  simp only [answered?]
  split
  · exact see_atOnce_unrecorded L cancelled h now w r polls
  · split
    · rfl
    · rfl
  · split
    · rfl
    · split
      · exact see_atOnce_unrecorded L cancelled h now w r polls
      · rfl
  · rfl

end Unrecorded

namespace Account

variable (L : Link σ η) (cancelled : σ → Bool) (h : ℕ × η)

theorem turn_alike
    {a b : Account σ} (hwait : a.wait = b.wait) (hpolls : a.polls = b.polls) (t : Turn σ) :
    (a.turn L cancelled h t).wait = (b.turn L cancelled h t).wait ∧
      (a.turn L cancelled h t).polls = (b.turn L cancelled h t).polls := by
  simp only [turn, advance_unrecorded, see_unrecorded, Chronicle.withBase, hwait, hpolls, and_self]

/-- The same turns do the same to a wait, whatever was recorded before it. -/
theorem run_alike
    (turns : List (Turn σ)) {a b : Account σ} (hwait : a.wait = b.wait)
    (hpolls : a.polls = b.polls) :
    (a.run L cancelled h turns).wait = (b.run L cancelled h turns).wait ∧
      (a.run L cancelled h turns).polls = (b.run L cancelled h turns).polls := by
  induction turns generalizing a b with
  | nil => exact ⟨hwait, hpolls⟩
  | cons t turns ih =>
    obtain ⟨hwait', hpolls'⟩ := turn_alike L cancelled h hwait hpolls t
    exact ih hwait' hpolls'

end Account

end Wait

/-! ## Operations and their answers -/

namespace Session

inductive Operation (σ : Type)
  /-- A wait, from an instant on, with the turns that it gets. It is abandoned after the last of
  them if it has not ended. -/
  | wait (start : Instant) (cancelled : σ → Bool) (turns : List (Wait.Turn σ))
  | foundNames
  | missingNames
  | close

inductive Answer
  /-- A wait has ended with a snapshot, after these polls, the latest first. -/
  | ended (outcome : Outcome) (visible : NameSet) (polls : List Wait.Sighting)
  | abandoned
  | names (names : NameSet)
  | closed
  | refused (cause : Misuse)

namespace Answer

/-- The snapshot with which a wait has ended. -/
def snapshot? : Answer → Option NameSet
  | ended _ visible _ => some visible
  | _ => none

def ofNames : Except Misuse NameSet → Answer
  | .ok found => .names found
  | .error cause => .refused cause

/-- The answer of a wait after its last turn. -/
def ofProgress (polls : List Wait.Sighting) : Progress → Answer
  | .ended outcome visible => .ended outcome visible polls
  | .pending _ => .abandoned

/-- What an answer makes of a session. -/
def apply : Answer → Session η → Session η
  | ended _ visible _, x => x.keep visible
  | closed, x => { x with handle := none }
  | _, x => x

end Answer

/-- Ends a wait when its turns are over, if it has come to its end, or abandons it. -/
def finish (L : Link σ η) (x : Session (ℕ × η)) (a : Wait.Account σ) :
    Answer × Session (ℕ × η) × Recorded σ :=
  let (progress, x, r) := x.settle L.recorded a.wait a.record
  (Answer.ofProgress a.polls progress, x, r)

def perform (L : Link σ η) (op : Operation σ) (x : Session (ℕ × η)) (r : Recorded σ) :
    Answer × Session (ℕ × η) × Recorded σ :=
  match op with
  | .wait start cancelled turns =>
    match x.begin L.recorded start r, x.handle with
    | .ok (w, r), some h => x.finish L (Wait.Account.run L cancelled h ⟨w, r, []⟩ turns)
    | .ok (_, r), none => (.abandoned, x, r)
    | .error cause, _ => (.refused cause, x, r)
  | .foundNames => (Answer.ofNames x.foundNames, x, r)
  | .missingNames => (Answer.ofNames x.missingNames, x, r)
  | .close =>
    match x.close L.recorded r with
    | .ok (x, r) => (.closed, x, r)
    | .error cause => (.refused cause, x, r)

/-! ## One operation -/

section Operations

variable {L : Link σ η} {x : Session (ℕ × η)} {h : ℕ × η} {r : Recorded σ}

/-- On a session that has been shut down a wait is refused, and calls nothing. -/
theorem perform_wait_closed
    (hclosed : x.handle = none) (start : Instant) (cancelled : σ → Bool)
    (turns : List (Wait.Turn σ)) :
    x.perform L (.wait start cancelled turns) r = (.refused .waitAfterClose, x, r) := by
  have hbegin : x.begin L.recorded start r = .error .waitAfterClose := by
    simp [begin, isClosed, hclosed]
  simp only [perform, hbegin]

/-- On a session with a handle a wait goes through its turns, which keep what a poll loop does. -/
theorem perform_wait_live
    (L : Link σ η) (hhandle : x.handle = some h) (start : Instant) (cancelled : σ → Bool)
    (turns : List (Wait.Turn σ)) (r : Recorded σ) :
    ∃ r₀,
      let a := Wait.Account.run L cancelled h
        ⟨Wait.begin x.expected x.timeout x.interval start, r₀, []⟩ turns
      x.perform L (.wait start cancelled turns) r = x.finish L a ∧
        a.Sound x.expected (start.after x.timeout) h.1 (r.calls h.1) := by
  obtain ⟨w, r₀, hbegin, hsound⟩ := begin_sound L cancelled hhandle start r
  obtain ⟨-, rfl, -⟩ := begin_eq_ok_iff.mp hbegin
  refine ⟨r₀, ?_, hsound turns⟩
  simp only [perform, hbegin, hhandle]

theorem perform_close_closed (hclosed : x.handle = none) :
    x.perform L .close r = (.refused .alreadyClosed, x, r) := by
  simp only [perform, close, hclosed]

theorem perform_close_live (hhandle : x.handle = some h) :
    ∃ r', x.perform L .close r = (.closed, { x with handle := none }, r') := by
  simp only [perform, close, hhandle]
  exact ⟨_, rfl⟩

/-- A wait is either finished with its snapshot, or abandoned where it stands. -/
theorem finish_cases (L : Link σ η) (x : Session (ℕ × η)) (a : Wait.Account σ) :
    (∃ outcome visible, a.wait.phase = .ended outcome visible ∧
      x.finish L a =
        (.ended outcome visible a.polls, x.complete L.recorded outcome visible a.record)) ∨
    x.finish L a = (.abandoned, x, a.record) := by
  unfold finish
  rcases x.settle_cases L.recorded a.wait a.record with
    ⟨outcome, visible, hphase, hsettle⟩ | ⟨-, hsettle⟩
  · exact Or.inl ⟨outcome, visible, hphase, by rw [hsettle]; rfl⟩
  · exact Or.inr (by rw [hsettle]; rfl)

theorem finish_session (x : Session (ℕ × η)) (a : Wait.Account σ) :
    (x.finish L a).2.1 = (x.finish L a).1.apply x := by
  rcases finish_cases L x a with ⟨outcome, visible, -, hfinish⟩ | hfinish
  · rw [hfinish]
    rfl
  · rw [hfinish]
    rfl

theorem finish_ne_refused (x : Session (ℕ × η)) (a : Wait.Account σ) (cause : Misuse) :
    (x.finish L a).1 ≠ .refused cause := by
  rcases finish_cases L x a with ⟨outcome, visible, -, hfinish⟩ | hfinish
  · simp [hfinish]
  · simp [hfinish]

theorem finish_answer_alike
    (x y : Session (ℕ × η)) {a b : Wait.Account σ} (hwait : a.wait = b.wait)
    (hpolls : a.polls = b.polls) : (x.finish L a).1 = (y.finish L b).1 := by
  simp only [finish, settle, hwait, hpolls]
  split
  · rfl
  · rfl

theorem ofNames_apply (found : Except Misuse NameSet) (x : Session η) :
    (Answer.ofNames found).apply x = x := by
  cases found with
  | ok names => rfl
  | error cause => rfl

/-- What an operation does to a session is read off its answer. -/
theorem perform_session (L : Link σ η) (op : Operation σ) (x : Session (ℕ × η))
    (r : Recorded σ) : (x.perform L op r).2.1 = (x.perform L op r).1.apply x := by
  cases op with
  | wait start cancelled turns =>
    cases hhandle : x.handle with
    | none =>
      rw [perform_wait_closed hhandle]
      rfl
    | some h =>
      obtain ⟨r₀, hperform, -⟩ := perform_wait_live L hhandle start cancelled turns r
      rw [hperform]
      exact finish_session x _
  | foundNames => exact (ofNames_apply x.foundNames x).symm
  | missingNames => exact (ofNames_apply x.missingNames x).symm
  | close =>
    cases hhandle : x.handle with
    | none =>
      rw [perform_close_closed hhandle]
      rfl
    | some h =>
      obtain ⟨r', hperform⟩ := perform_close_live (L := L) (r := r) hhandle
      rw [hperform]
      rfl

/-- A wait that has ended was ended by its latest poll. -/
theorem finish_ended
    {expected : NameSet} {deadline : Instant} {n : ℕ} {before : List Call}
    {a : Wait.Account σ} (hsound : a.Sound expected deadline n before) {outcome : Outcome}
    {visible : NameSet} {polls : List Wait.Sighting}
    (hanswer : (x.finish L a).1 = .ended outcome visible polls) :
    ∃ p earlier, polls = p :: earlier ∧ visible = p.visible ∧
      outcome = p.outcome expected deadline ∧
      (x.finish L a).2.2.calls n = before ++ Wait.asked polls := by
  have hstanding := hsound.standing
  have hcalls := hsound.calls_eq
  rcases finish_cases L x a with ⟨outcome', visible', hphase, hfinish⟩ | hfinish
  · rw [hphase] at hstanding
    simp only [hphase, Wait.pending, List.append_nil] at hcalls
    rw [hfinish] at hanswer ⊢
    cases hanswer
    obtain ⟨p, earlier, hpolls, -, -, houtcome, hvisible⟩ := hstanding
    exact ⟨p, earlier, hpolls, hvisible, houtcome, hcalls⟩
  · rw [hfinish] at hanswer
    cases hanswer

end Operations

/-! ## A whole life -/

/-- A session in the course of its life, with the answers that it has given, the latest first. -/
structure Life (σ η : Type) where
  session : Session (ℕ × η)
  record : Recorded σ
  past : List Answer

namespace Life

/-- A session that has just been connected. -/
def fresh (x : Session (ℕ × η)) (r : Recorded σ) : Life σ η := ⟨x, r, []⟩

/-- The life after one more operation, in the world in which it is done. -/
def step (L : Link σ η) (y : Life σ η) (t : σ × Operation σ) : Life σ η :=
  let (answer, session, record) := y.session.perform L t.2 (y.record.withBase t.1)
  ⟨session, record, answer :: y.past⟩

def run (L : Link σ η) (y : Life σ η) (operations : List (σ × Operation σ)) : Life σ η :=
  operations.foldl (fun y t => y.step L t) y

/-- A session that is what its answers have made of the session that was connected. -/
def Sound (x : Session (ℕ × η)) (y : Life σ η) : Prop := y.session = y.past.foldr Answer.apply x

theorem sound_fresh (x : Session (ℕ × η)) (r : Recorded σ) : Sound x (fresh x r) := rfl

theorem sound_step
    (L : Link σ η) {x : Session (ℕ × η)} {y : Life σ η} (hsound : Sound x y)
    (t : σ × Operation σ) : Sound x (y.step L t) := by
  have hsession := perform_session L t.2 y.session (y.record.withBase t.1)
  simp only [Sound, step, List.foldr_cons] at hsound hsession ⊢
  rw [hsession, ← hsound]

theorem sound_run
    (L : Link σ η) {x : Session (ℕ × η)} (operations : List (σ × Operation σ)) {y : Life σ η}
    (hsound : Sound x y) : Sound x (y.run L operations) := by
  induction operations generalizing y with
  | nil => exact hsound
  | cons t operations ih => exact ih (sound_step L hsound t)

end Life

/-! ### What answers make of a session -/

section Answers

variable (x : Session η)

theorem apply_fixed (a : Answer) :
    (a.apply x).identity = x.identity ∧ (a.apply x).expected = x.expected ∧
      (a.apply x).timeout = x.timeout ∧ (a.apply x).interval = x.interval := by
  cases a with
  | ended outcome visible polls => exact ⟨rfl, rfl, rfl, rfl⟩
  | closed => exact ⟨rfl, rfl, rfl, rfl⟩
  | abandoned => exact ⟨rfl, rfl, rfl, rfl⟩
  | names names => exact ⟨rfl, rfl, rfl, rfl⟩
  | refused cause => exact ⟨rfl, rfl, rfl, rfl⟩

/-- No answer changes what a session was connected with. -/
theorem foldr_apply_fixed (past : List Answer) :
    let z := past.foldr Answer.apply x
    z.identity = x.identity ∧ z.expected = x.expected ∧ z.timeout = x.timeout ∧
      z.interval = x.interval := by
  induction past with
  | nil => exact ⟨rfl, rfl, rfl, rfl⟩
  | cons a past ih =>
    obtain ⟨hidentity, hexpected, htimeout, hinterval⟩ :=
      apply_fixed (past.foldr Answer.apply x) a
    obtain ⟨hidentity', hexpected', htimeout', hinterval'⟩ := ih
    exact ⟨hidentity.trans hidentity', hexpected.trans hexpected', htimeout.trans htimeout',
      hinterval.trans hinterval'⟩

theorem apply_handle {a : Answer} (ha : a ≠ .closed) : (a.apply x).handle = x.handle := by
  cases a with
  | closed => exact absurd rfl ha
  | ended outcome visible polls => rfl
  | abandoned => rfl
  | names names => rfl
  | refused cause => rfl

/-- The handle is there until the session has been shut down. -/
theorem foldr_apply_handle (past : List Answer) :
    (.closed ∉ past → (past.foldr Answer.apply x).handle = x.handle) ∧
      (.closed ∈ past → (past.foldr Answer.apply x).handle = none) := by
  induction past with
  | nil => simp
  | cons a past ih =>
    by_cases ha : a = .closed
    · subst ha
      simp [Answer.apply]
    · simp only [List.foldr_cons, apply_handle _ ha]
      simpa [Ne.symm ha] using ih

theorem apply_found {a : Answer} :
    (a.apply x).found = (a.snapshot?.map fun visible => visible.erase x.identity.name).or
      x.found := by
  cases a with
  | ended outcome visible polls => rfl
  | closed => rfl
  | abandoned => rfl
  | names names => rfl
  | refused cause => rfl

/-- What is kept is the latest snapshot with which a wait has ended. -/
theorem foldr_apply_found (past : List Answer) (hfound : x.found = none) :
    (past.foldr Answer.apply x).found =
      (past.findSome? Answer.snapshot?).map fun visible => visible.erase x.identity.name := by
  induction past with
  | nil => exact hfound
  | cons a past ih =>
    obtain ⟨hidentity, -⟩ := foldr_apply_fixed x past
    rw [List.foldr_cons, apply_found, hidentity, ih, List.findSome?_cons]
    cases a.snapshot? with
    | none => rfl
    | some visible => rfl

end Answers

/-! ## The lifecycle -/

section Lifecycle

variable {L : Link σ η} {x z : Session (ℕ × η)} {h : ℕ × η}

/-- A wait is answered in the same way on two sessions with the same handle that look for the same
names for the same time, whatever else has become of them and of the world in the meantime. -/
theorem perform_wait_alike
    (hx : x.handle = some h) (hz : z.handle = some h) (hexpected : z.expected = x.expected)
    (htimeout : z.timeout = x.timeout) (hinterval : z.interval = x.interval) (start : Instant)
    (cancelled : σ → Bool) (turns : List (Wait.Turn σ)) (r r' : Recorded σ) :
    (z.perform L (.wait start cancelled turns) r').1 =
      (x.perform L (.wait start cancelled turns) r).1 := by
  obtain ⟨r₀, hperform, -⟩ := perform_wait_live L hx start cancelled turns r
  obtain ⟨r₁, hperform', -⟩ := perform_wait_live L hz start cancelled turns r'
  rw [hperform, hperform', hexpected, htimeout, hinterval]
  obtain ⟨hwait, hpolls⟩ := Wait.Account.run_alike L cancelled h turns
    (a := ⟨Wait.begin x.expected x.timeout x.interval start, r₁, []⟩)
    (b := ⟨Wait.begin x.expected x.timeout x.interval start, r₀, []⟩) rfl rfl
  exact finish_answer_alike z x hwait hpolls

theorem connect_fresh
    {T : Transport σ η} {expected : List String} {settings : Settings} {identity : Identity}
    {s s' : Recorded σ} (hconnect : connect T.recorded expected settings identity s = .ok (x, s')) :
    (∃ h, x.handle = some h) ∧ x.found = none := by
  obtain ⟨_, _, h, _, -, -, rfl, -⟩ := connect_eq_ok_iff.mp hconnect
  exact ⟨⟨h, rfl⟩, rfl⟩

theorem foundNames_eq_noResult_iff (z : Session η) :
    (z.foundNames = .error .noResult ↔ z.found = none) ∧
      (z.missingNames = .error .noResult ↔ z.found = none) := by
  cases hfound : z.found with
  | none => simp [missingNames, foundNames, hfound, Except.map]
  | some visible => simp [missingNames, foundNames, hfound, Except.map]

theorem close_answer
    {y : Life σ η} (hsound : Life.Sound x y) (hhandle : x.handle = some h) {world : σ}
    {answer : Answer} {r' : Recorded σ}
    (hdone : y.session.perform L .close (y.record.withBase world) = (answer, z, r')) :
    (.closed ∉ y.past → answer = .closed) ∧
      (.closed ∈ y.past → answer = .refused .alreadyClosed) := by
  obtain ⟨hopen, hclosed⟩ := foldr_apply_handle x y.past
  rw [← hsound] at hopen hclosed
  constructor
  · intro hlive
    obtain ⟨r₁, hperform⟩ := perform_close_live (L := L) (r := y.record.withBase world)
      ((hopen hlive).trans hhandle)
    cases hperform.symm.trans hdone
    rfl
  · intro hshut
    cases (perform_close_closed (hclosed hshut)).symm.trans hdone
    rfl

/-- A wait on a session that has not been shut down is answered as it would have been just after
the session was connected, and if it ends, then with what its own latest poll saw. -/
theorem wait_answer
    {y : Life σ η} (hsound : Life.Sound x y) (hhandle : x.handle = some h)
    (hlive : .closed ∉ y.past) {world : σ} {start : Instant} {cancelled : σ → Bool}
    {turns : List (Wait.Turn σ)} {answer : Answer} {r r' : Recorded σ}
    (hdone : y.session.perform L (.wait start cancelled turns) (y.record.withBase world) =
      (answer, z, r')) :
    (∀ cause, answer ≠ .refused cause) ∧
      answer = (x.perform L (.wait start cancelled turns) (r.withBase world)).1 ∧
      ∀ outcome visible polls, answer = .ended outcome visible polls →
        ∃ p earlier, polls = p :: earlier ∧
          r'.calls h.1 = y.record.calls h.1 ++ Wait.asked polls ∧
          outcome = p.outcome x.expected (start.after x.timeout) ∧
          z.foundNames = .ok (p.visible.erase x.identity.name) := by
  obtain ⟨hidentity, hexpected, htimeout, hinterval⟩ := foldr_apply_fixed x y.past
  obtain ⟨hopen, -⟩ := foldr_apply_handle x y.past
  rw [← hsound] at hidentity hexpected htimeout hinterval hopen
  have hkept : y.session.handle = some h := (hopen hlive).trans hhandle
  have halike := perform_wait_alike (L := L) hhandle hkept hexpected htimeout
    hinterval start cancelled turns (r.withBase world) (y.record.withBase world)
  obtain ⟨r₁, hperform, hpolled⟩ := perform_wait_live L hkept start cancelled turns
    (y.record.withBase world)
  have hfinish := hperform.symm.trans hdone
  rw [hdone] at halike
  refine ⟨?_, halike, ?_⟩
  · intro cause hcause
    apply finish_ne_refused (L := L) y.session _ cause
    rw [hfinish]
    exact hcause
  · rintro outcome visible polls rfl
    obtain ⟨p, earlier, hpolls, rfl, houtcome, hcalls⟩ :=
      finish_ended (L := L) (x := y.session) hpolled (by rw [hfinish])
    rw [hexpected, htimeout] at houtcome
    rw [hfinish] at hcalls
    refine ⟨p, earlier, hpolls, hcalls, houtcome, ?_⟩
    have hz := perform_session L (.wait start cancelled turns) y.session
      (y.record.withBase world)
    simp only [hdone] at hz
    rw [hz, ← hidentity]
    rfl

/-- The whole lifecycle of a session. After any operations, with their answers in `past`:
the accessors have no result until a wait has ended, and then always the snapshot of the latest
one that has; the first shutdown succeeds and every later one is refused; a wait is refused,
without a poll, exactly after a shutdown, and is otherwise answered as it would have been before
everything else, from its own polls; and what is refused or abandoned leaves the session as it
was. -/
theorem answers_follow_past
    {T : Transport σ η} {expected : List String} {settings : Settings} {identity : Identity}
    {r₀ r : Recorded σ}
    (hconnect : connect T.recorded expected settings identity r₀ = .ok (x, r))
    (operations : List (σ × Operation σ)) :
    let y := Life.run T.toLink (Life.fresh x r) operations
    (y.session.foundNames = .error .noResult ↔ ∀ a ∈ y.past, a.snapshot? = none) ∧
      (y.session.missingNames = .error .noResult ↔ ∀ a ∈ y.past, a.snapshot? = none) ∧
      (∀ later outcome visible polls earlier,
        y.past = later ++ .ended outcome visible polls :: earlier →
        (∀ a ∈ later, a.snapshot? = none) →
          y.session.foundNames = .ok (visible.erase x.identity.name) ∧
            y.session.missingNames =
              .ok (x.expected.diff (visible.erase x.identity.name))) ∧
      ∀ (world : σ) (op : Operation σ) (answer : Answer) (z : Session (ℕ × η)) (r' : Recorded σ),
        y.session.perform T.toLink op (y.record.withBase world) = (answer, z, r') →
        (op = .close →
          (.closed ∉ y.past → answer = .closed) ∧
            (.closed ∈ y.past → answer = .refused .alreadyClosed)) ∧
          (∀ start cancelled turns, op = .wait start cancelled turns →
            (.closed ∈ y.past →
              answer = .refused .waitAfterClose ∧ r'.calls = y.record.calls) ∧
            (.closed ∉ y.past →
              (∀ cause, answer ≠ .refused cause) ∧
                answer = (x.perform T.toLink op (r.withBase world)).1 ∧
                ∀ outcome visible polls, answer = .ended outcome visible polls →
                  ∃ h p earlier, x.handle = some h ∧ polls = p :: earlier ∧
                    r'.calls h.1 = y.record.calls h.1 ++ Wait.asked polls ∧
                    outcome = p.outcome x.expected (start.after x.timeout) ∧
                    z.foundNames = .ok (p.visible.erase x.identity.name))) ∧
          (answer = .abandoned ∨ (∃ cause, answer = .refused cause) → z = y.session) := by
  intro y
  obtain ⟨⟨h, hhandle⟩, hfresh⟩ := connect_fresh hconnect
  have hsound : Life.Sound x y := Life.sound_run T.toLink operations (Life.sound_fresh x r)
  obtain ⟨-, hexpected, -, -⟩ := foldr_apply_fixed x y.past
  obtain ⟨-, hclosed⟩ := foldr_apply_handle x y.past
  have hfound := foldr_apply_found x y.past hfresh
  rw [← hsound] at hexpected hclosed hfound
  obtain ⟨hnone, hnone'⟩ := foundNames_eq_noResult_iff y.session
  have hempty : y.session.found = none ↔ ∀ a ∈ y.past, a.snapshot? = none := by
    rw [hfound, Option.map_eq_none_iff, List.findSome?_eq_none_iff]
  refine ⟨hnone.trans hempty, hnone'.trans hempty, ?_, ?_⟩
  · intro later outcome visible polls earlier hpast hlater
    have hlatest : y.session.found = some (visible.erase x.identity.name) := by
      rw [hfound, hpast, List.findSome?_append, List.findSome?_eq_none_iff.mpr hlater]
      rfl
    constructor
    · simp only [foundNames, hlatest]
    · simp only [missingNames, foundNames, hlatest, hexpected, Except.map]
  · intro world op answer z r' hdone
    refine ⟨?_, ?_, ?_⟩
    · rintro rfl
      exact close_answer hsound hhandle hdone
    · rintro start cancelled turns rfl
      constructor
      · intro hshut
        cases (perform_wait_closed (hclosed hshut) start cancelled turns).symm.trans hdone
        exact ⟨rfl, rfl⟩
      · intro hlive
        obtain ⟨hrefused, halike, hended⟩ := wait_answer (r := r) hsound hhandle hlive hdone
        refine ⟨hrefused, halike, ?_⟩
        intro outcome visible polls hanswer
        obtain ⟨p, earlier, hends⟩ := hended outcome visible polls hanswer
        exact ⟨h, p, earlier, hhandle, hends⟩
    · have hz := perform_session T.toLink op y.session (y.record.withBase world)
      simp only [hdone] at hz
      rintro (rfl | ⟨cause, rfl⟩)
      · exact hz
      · exact hz

/-- A session that finds someone, is shut down and is then asked to wait once more refuses that,
and still shows whom it has found. -/
theorem answers_follow_past_after_close :
    let T : Transport Registry Registration := Registry.transport
    let world := Registry.empty.join "a"
    ∃ x r, connect T.recorded ["a"] Settings.standard ⟨"me"⟩ (Recorded.ofBase Registry.empty) =
        .ok (x, r) ∧
      let wait : Operation Registry := .wait ⟨0⟩ (fun _ => false) [⟨⟨0⟩, world⟩]
      let y := Life.run T.toLink (Life.fresh x r) [(world, wait), (world, .close)]
      y.session.foundNames = .ok (NameSet.ofList ["a"]) ∧
        (y.session.perform T.toLink wait (y.record.withBase world)).1 =
          .refused .waitAfterClose := by
  intro T world
  have husable : Settings.standard.durations.isOk = true := by decide +kernel
  obtain ⟨⟨timeout, interval⟩, hdurations⟩ : ∃ spans, Settings.standard.durations = .ok spans := by
    cases hspans : Settings.standard.durations with
    | ok spans => exact ⟨spans, rfl⟩
    | error e => simp [hspans, Except.isOk, Except.toBool] at husable
  let x : Session (ℕ × Registration) :=
    ⟨⟨"me"⟩, NameSet.ofList ["a"], timeout, interval, some (0, ⟨"me", true⟩), none⟩
  let r : Recorded Registry :=
    ⟨{ Registry.empty.join "me" with tally := ⟨1, 0⟩ }, [(0, .created)]⟩
  have hconnect : connect T.recorded ["a"] Settings.standard ⟨"me"⟩
      (Recorded.ofBase Registry.empty) = .ok (x, r) := by
    rw [connect, hdurations]
    rfl
  refine ⟨x, r, hconnect, ?_⟩
  intro wait y
  obtain ⟨-, -, hfound, hnext⟩ :=
    answers_follow_past hconnect [(world, wait), (world, .close)]
  obtain ⟨hnames, -⟩ := hfound [.closed] .found world.names _ [] rfl (by simp [Answer.snapshot?])
  obtain ⟨-, hwait, -⟩ := hnext world wait _ _ _ rfl
  obtain ⟨hrefused, -⟩ := hwait _ _ _ rfl
  have hclosed : .closed ∈ y.past := List.mem_cons_self
  obtain ⟨hanswer, -⟩ := hrefused hclosed
  exact ⟨hnames, hanswer⟩

end Lifecycle

end Session

end RollCall
