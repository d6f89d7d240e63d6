import RollCall.Proofs.Attendance

/-!
# Sessions do not interfere

One member is taken out of a run together with all it does. Whoever expects other names than that
of this member has the same answers as before: it connects or is refused as before, its waits end
in the same way after as many polls, the same names are missing, and the names found differ by that
one name at most.

Two runs are compared, one with the member and one without. Their registries agree but for the one
name, and every other member is alike in both: a session has the same handle, and if it does not
expect the name, it has found the same names but for that one and waits in the same way.
-/

namespace RollCall

/-! ## All names but one -/

namespace NameSet

variable {a : String} {s t : NameSet}

theorem erase_eq_erase (h : ∀ n, n ≠ a → (n ∈ s ↔ n ∈ t)) : s.erase a = t.erase a := by
  refine ext fun n => ?_
  rw [mem_erase, mem_erase]
  constructor
  · rintro ⟨hn, hne⟩
    exact ⟨(h n hne).mp hn, hne⟩
  · rintro ⟨hn, hne⟩
    exact ⟨(h n hne).mpr hn, hne⟩

/-- Sets that agree but for one name have the same other names. -/
theorem mem_iff_of_erase (h : s.erase a = t.erase a) {n : String} (hn : n ≠ a) :
    n ∈ s ↔ n ∈ t := by
  have hmem : n ∈ s.erase a ↔ n ∈ t.erase a := by rw [h]
  simpa [hn] using hmem

theorem subset_iff_of_erase
    {expected : NameSet} (ha : a ∉ expected) (h : s.erase a = t.erase a) :
    expected ⊆ s ↔ expected ⊆ t := by
  rw [subset_def, subset_def]
  refine forall₂_congr fun n hn => ?_
  have hne : n ≠ a := fun hEq => ha (hEq ▸ hn)
  exact mem_iff_of_erase h hne

theorem diff_eq_of_erase
    {expected : NameSet} (ha : a ∉ expected) (h : s.erase a = t.erase a) :
    expected.diff s = expected.diff t := by
  refine ext fun n => ?_
  rw [mem_diff, mem_diff]
  refine and_congr_right fun hn => ?_
  have hne : n ≠ a := fun hEq => ha (hEq ▸ hn)
  rw [mem_iff_of_erase h hne]

theorem erase_erase_of_erase (h : s.erase a = t.erase a) (own : String) :
    (s.erase own).erase a = (t.erase own).erase a := by
  refine erase_eq_erase fun n hn => ?_
  rw [mem_erase, mem_erase, mem_iff_of_erase h hn]

end NameSet

namespace Registry

/-- The two registries differ in one name at most, and in what they have tallied. -/
structure AgreesOff (a : String) (g g' : Registry) : Prop where
  unavailable : g'.unavailable = g.unavailable
  count : ∀ n, n ≠ a → g'.count n = g.count n
  pos : ∀ entry ∈ g.counts, 0 < entry.2
  pos' : ∀ entry ∈ g'.counts, 0 < entry.2

namespace AgreesOff

variable {a : String} {g g' : Registry}

theorem names (h : AgreesOff a g g') : g.names.erase a = g'.names.erase a := by
  refine NameSet.erase_eq_erase fun n hn => ?_
  rw [mem_names_iff h.pos, mem_names_iff h.pos', h.count n hn]

theorem join (h : AgreesOff a g g') (name : String) : AgreesOff a (g.join name) (g'.join name) where
  unavailable := h.unavailable
  count n hn := by rw [count_join, count_join, h.count n hn]
  pos := pos_increment h.pos name
  pos' := pos_increment h.pos' name

theorem leave (h : AgreesOff a g g') (name : String) :
    AgreesOff a (g.leave name) (g'.leave name) where
  unavailable := h.unavailable
  count n hn := by rw [count_leave, count_leave, h.count n hn]
  pos := pos_decrement h.pos name
  pos' := pos_decrement h.pos' name

/-- One may come under the one name where the other does not. -/
theorem join_left (h : AgreesOff a g g') : AgreesOff a (g.join a) g' where
  unavailable := h.unavailable
  count n hn := by simp [count_join, hn, h.count n hn]
  pos := pos_increment h.pos a
  pos' := h.pos'

theorem leave_left (h : AgreesOff a g g') : AgreesOff a (g.leave a) g' where
  unavailable := h.unavailable
  count n hn := by simp [count_leave, hn, h.count n hn]
  pos := pos_decrement h.pos a
  pos' := h.pos'

theorem tally (h : AgreesOff a g g') (t t' : Tally) :
    AgreesOff a { g with tally := t } { g' with tally := t' } :=
  ⟨h.unavailable, h.count, h.pos, h.pos'⟩

theorem setUnavailable (h : AgreesOff a g g') (reason : Option String) :
    AgreesOff a { g with unavailable := reason } { g' with unavailable := reason } :=
  ⟨rfl, h.count, h.pos, h.pos'⟩

theorem destroy (h : AgreesOff a g g') (reg : Registration) :
    AgreesOff a (reg.destroy g).2 (reg.destroy g').2 := by
  by_cases hlive : reg.live
  · simp only [Registration.destroy, hlive, if_true]
    exact (h.leave reg.name).tally _ _
  · simpa [Registration.destroy, hlive] using h

theorem drop (h : AgreesOff a g g') (reg : Registration) :
    AgreesOff a (reg.drop g) (reg.drop g') := by
  by_cases hlive : reg.live
  · simpa [Registration.drop, hlive] using h.leave reg.name
  · simpa [Registration.drop, hlive] using h

end AgreesOff

end Registry

/-! ## Waits -/

inductive Phase.Alike (a : String) : Phase → Phase → Prop
  | due : Alike a .due .due
  | polling {visible visible' : NameSet} (ready : Instant)
      (hvisible : visible.erase a = visible'.erase a) :
      Alike a (.polling visible ready) (.polling visible' ready)
  | sleeping {visible visible' : NameSet} (wake : Instant)
      (hvisible : visible.erase a = visible'.erase a) :
      Alike a (.sleeping visible wake) (.sleeping visible' wake)
  | ended {visible visible' : NameSet} (outcome : Outcome)
      (hvisible : visible.erase a = visible'.erase a) :
      Alike a (.ended outcome visible) (.ended outcome visible')

namespace Wait

/-- Two waits for other names than the one, which differ in that name at most. -/
structure Alike (a : String) (w w' : Wait) : Prop where
  blind : a ∉ w.expected
  expected : w'.expected = w.expected
  interval : w'.interval = w.interval
  deadline : w'.deadline = w.deadline
  phase : w.phase.Alike a w'.phase

variable {a : String} {w w' : Wait} {r r' : Traced Registry Empty}

namespace Alike

theorem verdict (h : Alike a w w') {visible visible' : NameSet}
    (hvisible : visible.erase a = visible'.erase a) (now : Instant) :
    w'.verdict visible' now = w.verdict visible now := by
  simp only [Wait.verdict, h.expected, h.interval, h.deadline,
    NameSet.subset_iff_of_erase h.blind hvisible]

theorem withPhase (h : Alike a w w') {p p' : Phase} (hphase : p.Alike a p') :
    Alike a { w with phase := p } { w' with phase := p' } :=
  ⟨h.blind, h.expected, h.interval, h.deadline, hphase⟩

theorem interrupt (h : Alike a w w') : Alike a w.interrupt w'.interrupt := by
  obtain ⟨expected, interval, deadline, phase⟩ := w
  obtain ⟨expected', interval', deadline', phase'⟩ := w'
  cases h.phase with
  | due => exact h
  | polling => exact h
  | sleeping wake hvisible => exact h.withPhase (.ended .cancelled hvisible)
  | ended => exact h

theorem receive (h : Alike a w w') {visible visible' : NameSet}
    (hvisible : visible.erase a = visible'.erase a) (fired : Bool) (now : Instant) :
    Alike a (w.receive Registry.traced.toLink (fun _ => fired) visible now r).1
      (w'.receive Registry.traced.toLink (fun _ => fired) visible' now r').1 := by
  simp only [Wait.receive, observe, h.verdict hvisible now]
  cases w.verdict visible now with
  | found => exact h.withPhase (.ended .found hvisible)
  | timedOut => exact h.withPhase (.ended .timedOut hvisible)
  | again wake =>
    have hsleeps := h.withPhase (.sleeping wake hvisible)
    cases fired with
    | true => exact hsleeps.interrupt
    | false => exact hsleeps

theorem poll (h : Alike a w w') (hnames : r.base.names.erase a = r'.base.names.erase a)
    (hpolls : Gathering.polls r = Gathering.polls r') (fired : Bool) (reg : Registration)
    (now : Instant) :
    let out := w.poll Registry.traced.toLink (fun _ => fired) reg now r
    let out' := w'.poll Registry.traced.toLink (fun _ => fired) reg now r'
    Alike a out.1 out'.1 ∧ Gathering.polls out.2 = Gathering.polls out'.2 := by
  simp only [poll_registry, receive_registry]
  refine ⟨h.receive hnames fired now, ?_⟩
  simpa [Gathering.polls, Chronicle.note, Gathering.isPoll] using hpolls

/-- Waits that are alike stay alike when they take a turn, and poll equally often. -/
theorem advance (h : Alike a w w') (hnames : r.base.names.erase a = r'.base.names.erase a)
    (hpolls : Gathering.polls r = Gathering.polls r') (fired : Bool) (reg : Registration)
    (now : Instant) :
    let out := w.advance Registry.traced.toLink (fun _ => fired) reg now r
    let out' := w'.advance Registry.traced.toLink (fun _ => fired) reg now r'
    Alike a out.1 out'.1 ∧ Gathering.polls out.2 = Gathering.polls out'.2 := by
  have hpoll := h.poll hnames hpolls fired reg now
  obtain ⟨expected, interval, deadline, phase⟩ := w
  obtain ⟨expected', interval', deadline', phase'⟩ := w'
  cases h.phase with
  | due => exact hpoll
  | polling ready hvisible =>
    by_cases hready : ready ≤ now
    · simp only [Wait.advance, hready, if_true, receive_registry]
      exact ⟨h.receive hvisible fired now, hpolls⟩
    · simp only [Wait.advance, hready, if_false]
      exact ⟨h, hpolls⟩
  | sleeping wake hvisible =>
    cases fired with
    | true => exact ⟨h.interrupt, hpolls⟩
    | false =>
      by_cases hwake : wake ≤ now
      · simpa [Wait.advance, hwake] using hpoll
      · simpa [Wait.advance, hwake] using And.intro h hpolls
  | ended outcome hvisible => exact ⟨h, hpolls⟩

end Alike

end Wait

/-! ## Members -/

namespace Gathering

/-- An answer, but for one name among the names found. -/
def Answer.without (a : String) : Answer → Answer
  | .found names => .found (names.map (·.erase a))
  | answer => answer

/-- Whether a deed asks for other names than the one. -/
def Deed.Blind (a : String) : Deed → Prop
  | .connect expected _ _ => a ∉ expected
  | _ => True

/-- Whether a session expects other names than the one. -/
def Role.Blind (a : String) : Role → Prop
  | .session x _ _ => a ∉ x.expected
  | _ => True

/-- Two waits of one session, if it waits at all. -/
inductive WaitsAlike (a : String) : Option Wait → Option Wait → Prop
  | none : WaitsAlike a none none
  | some {w w' : Wait} (h : w.Alike a w') : WaitsAlike a (some w) (some w')

/-- What a session sees, its wait and its trace, in two runs. -/
structure SeenAlike (a : String) (found found' : Option NameSet) (wait wait' : Option Wait)
    (trace trace' : List (Happening Empty)) : Prop where
  found : found.map (·.erase a) = found'.map (·.erase a)
  wait : WaitsAlike a wait wait'
  polls : trace.countP isPoll = trace'.countP isPoll

/-- A member in two runs: it has the same in hand, and if it does not expect the one name it sees
the same but for that. -/
inductive Member.Alike (a : String) : Member → Member → Prop
  | absent : Alike a unknown unknown
  | handle (reg : Registration) (trace trace' : List (Happening Empty)) :
      Alike a ⟨.handle reg, trace⟩ ⟨.handle reg, trace'⟩
  | session (x : Session Registration) (found' : Option NameSet) (wait wait' : Option Wait)
      (fired : Bool) (trace trace' : List (Happening Empty))
      (hseen : a ∉ x.expected → SeenAlike a x.found found' wait wait' trace trace') :
      Alike a ⟨.session x wait fired, trace⟩
        ⟨.session { x with found := found' } wait' fired, trace'⟩
  | gone (trace trace' : List (Happening Empty)) : Alike a ⟨.gone, trace⟩ ⟨.gone, trace'⟩

/-- What has become of a member and a registry in two runs, and the two answers. -/
structure OutcomeAlike (a : String) (blind : Prop) (out out' : Answer × Member × Registry) :
    Prop where
  answer : blind → out.1.without a = out'.1.without a
  member : out.2.1.Alike a out'.2.1
  registry : out.2.2.AgreesOff a out'.2.2

namespace Member

variable {a : String} {g g' : Registry}

theorem act_alike_unknown (hg : g.AgreesOff a g') (now : Instant) (deed : Deed) :
    OutcomeAlike a True (unknown.act now deed g) (unknown.act now deed g') := by
  have hrefused (answer : Answer) :
      OutcomeAlike a True (answer, unknown, g) (answer, unknown, g') :=
    ⟨fun _ => rfl, .absent, hg⟩
  cases deed with
  | register identity =>
    cases havailable : g.unavailable with
    | some reason =>
      simpa only [unknown, act, Role.act, actAbsent, Registry.traced, Transport.noted,
        Registry.transport, Registration.create, hg.unavailable, havailable] using hrefused _
    | none =>
      simp only [unknown, act, Role.act, actAbsent, Registry.traced, Transport.noted,
        Registry.transport, Registration.create, hg.unavailable, havailable]
      exact ⟨fun _ => rfl, .handle _ _ _, (hg.join identity.name).tally _ _⟩
  | connect expected settings identity =>
    simp only [unknown, act, Role.act, actAbsent, Session.connect, Registry.traced,
      Transport.noted, Registry.transport, Registration.create, hg.unavailable]
    cases settings.durations with
    | error cause => exact hrefused _
    | ok durations =>
      cases g.unavailable with
      | some reason => exact hrefused _
      | none =>
        refine ⟨fun _ => rfl, .session _ none none none false _ _ ?_,
          (hg.join identity.name).tally _ _⟩
        exact fun _ => ⟨rfl, .none, rfl⟩
  | _ => exact hrefused _

theorem act_alike_handle (hg : g.AgreesOff a g') (reg : Registration)
    (trace trace' : List (Happening Empty)) (now : Instant) (deed : Deed) :
    OutcomeAlike a True (act now deed ⟨.handle reg, trace⟩ g)
      (act now deed ⟨.handle reg, trace'⟩ g') := by
  have hkept : OutcomeAlike a True (.nothing, ⟨.handle reg, trace⟩, g)
      (.nothing, ⟨.handle reg, trace'⟩, g') :=
    ⟨fun _ => rfl, .handle _ _ _, hg⟩
  cases deed with
  | release =>
    have hreg : (reg.destroy g').1 = (reg.destroy g).1 := by
      simp only [Registration.destroy]
      split
      · rfl
      · rfl
    simp only [act, Role.act, actHandle, hreg]
    exact ⟨fun _ => rfl, .handle _ _ _, hg.destroy reg⟩
  | drop => exact ⟨fun _ => rfl, .gone _ _, hg.drop reg⟩
  | _ => exact hkept

section Session

variable {x : Session Registration} {found' : Option NameSet} {wait wait' : Option Wait}
  {fired : Bool} {trace trace' : List (Happening Empty)}

/-- After a turn of waits that are alike, the same is settled in both runs. -/
theorem settle_alike
    (hfound : x.found.map (·.erase a) = found'.map (·.erase a)) {w w' : Wait} (h : w.Alike a w')
    {r r' : Traced Registry Empty} (hpolls : polls r = polls r') (hg : r.base.AgreesOff a r'.base) :
    let out := afterTurn fired (x.settle Registry.traced.toLink w r)
    let out' := afterTurn fired
      (Session.settle Registry.traced.toLink w' { x with found := found' } r')
    OutcomeAlike a True (out.1.2, ⟨out.1.1, out.2.trace⟩, out.2.base)
      (out'.1.2, ⟨out'.1.1, out'.2.trace⟩, out'.2.base) := by
  have hpending {u u' : Wait} (h : u.Alike a u') :
      OutcomeAlike a True
        (.pending (polls r), ⟨.session x (some u) fired, r.trace⟩, r.base)
        (.pending (polls r'),
          ⟨.session { x with found := found' } (some u') fired, r'.trace⟩, r'.base) :=
    ⟨fun _ => by rw [hpolls], .session _ _ _ _ _ _ _ fun _ => ⟨hfound, .some h, hpolls⟩, hg⟩
  obtain ⟨expected, interval, deadline, phase⟩ := w
  obtain ⟨expected', interval', deadline', phase'⟩ := w'
  cases h.phase with
  | due => exact hpending h
  | polling => exact hpending h
  | sleeping => exact hpending h
  | @ended visible visible' outcome hvisible =>
    have hkept : (some (visible.erase x.identity.name)).map (·.erase a) =
        (some (visible'.erase x.identity.name)).map (·.erase a) :=
      congrArg some (NameSet.erase_erase_of_erase hvisible x.identity.name)
    refine ⟨fun _ => ?_, .session (x.keep visible) _ _ _ _ _ _ fun _ => ⟨hkept, .none, hpolls⟩, hg⟩
    simp only [Session.settle, afterTurn, Answer.ofProgress, Session.complete_registry, hpolls]

/-- A session that does not expect the one name takes a turn. -/
theorem resumeSession_alike (hg : g.AgreesOff a g')
    (hseen : SeenAlike a x.found found' wait wait' trace trace') (now : Instant) :
    OutcomeAlike a True (act now .resume ⟨.session x wait fired, trace⟩ g)
      (act now .resume ⟨.session { x with found := found' } wait' fired, trace'⟩ g') := by
  have hidle : OutcomeAlike a True
      (.nothing, ⟨.session x none fired, trace⟩, g)
      (.nothing, ⟨.session { x with found := found' } none fired, trace'⟩, g') :=
    ⟨fun _ => rfl, .session _ _ _ _ _ _ _ fun _ => ⟨hseen.found, .none, hseen.polls⟩, hg⟩
  obtain ⟨hfound, hwait, hpolls⟩ := hseen
  have hsame : ({ x with found := found' } : Session Registration).handle = x.handle := rfl
  obtain hhandle | ⟨reg, hhandle⟩ := x.handle.eq_none_or_eq_some
  · simpa only [act, Role.act, actSession, resumeSession_closed hhandle,
      resumeSession_closed (hsame.trans hhandle)] using hidle
  · cases hwait with
    | none => exact hidle
    | @some w w' hwaits =>
      have hcount : polls ⟨g, trace⟩ = polls ⟨g', trace'⟩ := hpolls
      obtain ⟨hnext, hmore⟩ := hwaits.advance hg.names hcount fired reg now
      have hbases : (w.advance Registry.traced.toLink (fun _ => fired) reg now ⟨g, trace⟩).2.base
          |>.AgreesOff a
            (w'.advance Registry.traced.toLink (fun _ => fired) reg now ⟨g', trace'⟩).2.base := by
        rw [Wait.advance_registry, Wait.advance_registry]
        exact hg
      simp only [act, Role.act, actSession, resumeSession_waiting hhandle,
        resumeSession_waiting (hsame.trans hhandle)]
      exact settle_alike hfound hnext hmore hbases

theorem foundNames_alike (hfound : x.found.map (·.erase a) = found'.map (·.erase a)) :
    x.foundNames.map (·.erase a) =
      ({ x with found := found' } : Session Registration).foundNames.map (·.erase a) := by
  simp only [Session.foundNames]
  cases hx : x.found with
  | none =>
    rw [hx] at hfound
    rw [Option.map_eq_none_iff.mp hfound.symm]
  | some found =>
    rw [hx] at hfound
    obtain ⟨other, rfl, hother⟩ := Option.map_eq_some_iff.mp hfound.symm
    exact congrArg Except.ok hother.symm

theorem missingNames_alike (ha : a ∉ x.expected)
    (hfound : x.found.map (·.erase a) = found'.map (·.erase a)) :
    x.missingNames = ({ x with found := found' } : Session Registration).missingNames := by
  simp only [Session.missingNames, Session.foundNames]
  cases hx : x.found with
  | none =>
    rw [hx] at hfound
    rw [Option.map_eq_none_iff.mp hfound.symm]
  | some found =>
    rw [hx] at hfound
    obtain ⟨other, rfl, hother⟩ := Option.map_eq_some_iff.mp hfound.symm
    exact congrArg Except.ok (NameSet.diff_eq_of_erase ha hother.symm)

/-- A session takes a deed alike in two runs, and gives the same answer if it does not expect the
one name. -/
theorem act_alike_session (hg : g.AgreesOff a g')
    (hseen : a ∉ x.expected → SeenAlike a x.found found' wait wait' trace trace')
    (now : Instant) (deed : Deed) :
    OutcomeAlike a (a ∉ x.expected) (act now deed ⟨.session x wait fired, trace⟩ g)
      (act now deed ⟨.session { x with found := found' } wait' fired, trace'⟩ g') := by
  have hidle (answer : Answer) (fired : Bool) :
      OutcomeAlike a (a ∉ x.expected)
        (answer, ⟨.session x none fired, trace⟩, g)
        (answer, ⟨.session { x with found := found' } none fired, trace'⟩, g') := by
    refine ⟨fun _ => rfl, .session _ _ _ _ _ _ _ fun ha => ?_, hg⟩
    exact ⟨(hseen ha).found, .none, (hseen ha).polls⟩
  have hsame : ({ x with found := found' } : Session Registration).handle = x.handle := rfl
  have hkept {answer answer' : Answer} (fired : Bool)
      (hanswer : a ∉ x.expected → answer.without a = answer'.without a) :
      OutcomeAlike a (a ∉ x.expected)
        (answer, ⟨.session x wait fired, trace⟩, g)
        (answer', ⟨.session { x with found := found' } wait' fired, trace'⟩, g') :=
    ⟨hanswer, .session _ _ _ _ _ _ _ hseen, hg⟩
  cases deed with
  | begin fired' =>
    simp only [act, Role.act, actSession]
    obtain hhandle | ⟨reg, hhandle⟩ := x.handle.eq_none_or_eq_some
    · rw [Session.begin_closed hhandle, Session.begin_closed (hsame.trans hhandle)]
      exact hidle _ fired'
    · rw [Session.begin_registry hhandle, Session.begin_registry (hsame.trans hhandle)]
      refine ⟨fun _ => rfl, .session _ _ _ _ _ _ _ fun ha => ?_, hg⟩
      exact ⟨(hseen ha).found, .some ⟨ha, rfl, rfl, rfl, .due⟩, (hseen ha).polls⟩
  | resume =>
    -- A session that expects the name may wait in another way, but what it holds stays the same.
    by_cases ha : a ∈ x.expected
    · obtain ⟨found₁, wait₁, answer₁, shown₁, hresume⟩ :=
        resumeSession_keeps now x wait fired ⟨g, trace⟩
      obtain ⟨found₂, wait₂, answer₂, shown₂, hresume'⟩ :=
        resumeSession_keeps now { x with found := found' } wait' fired ⟨g', trace'⟩
      simp only [act, Role.act, actSession, hresume, hresume']
      refine ⟨fun hblind => absurd ha hblind, ?_, hg⟩
      exact .session { x with found := found₁ } found₂ _ _ _ _ _ fun hblind => absurd ha hblind
    · obtain ⟨hanswer, hmember, hregistry⟩ := resumeSession_alike hg (hseen ha) now
      exact ⟨fun _ => hanswer trivial, hmember, hregistry⟩
  | cancel => exact hkept true fun _ => rfl
  | giveUp => exact hidle .accepted fired
  | foundNames =>
    refine hkept fired fun ha => ?_
    simp only [Answer.without, foundNames_alike (hseen ha).found]
  | missingNames =>
    refine hkept fired fun ha => ?_
    simp only [missingNames_alike ha (hseen ha).found]
  | release =>
    simp only [act, Role.act, actSession]
    obtain hhandle | ⟨reg, hhandle⟩ := x.handle.eq_none_or_eq_some
    · simpa only [Session.close, hhandle] using hidle _ fired
    · rw [Session.close_registry hhandle, Session.close_registry (hsame.trans hhandle)]
      refine ⟨fun _ => rfl, .session { x with handle := none } _ _ _ _ _ _ fun ha => ?_,
        hg.destroy reg⟩
      refine ⟨(hseen ha).found, .none, ?_⟩
      simpa [Chronicle.note, isPoll] using (hseen ha).polls
  | drop =>
    simp only [act, Role.act, actSession]
    obtain hhandle | ⟨reg, hhandle⟩ := x.handle.eq_none_or_eq_some
    · simpa only [Session.drop, hhandle] using ⟨fun _ => rfl, .gone _ _, hg⟩
    · rw [Session.drop_registry hhandle, Session.drop_registry (hsame.trans hhandle)]
      exact ⟨fun _ => rfl, .gone _ _, hg.destroy reg⟩
  | _ => exact hkept fired fun _ => rfl

end Session

/-- A deed under the one name is not seen under the others. -/
theorem Effect.agreesOff {deed : Deed} {m m' : Member} {k : Registry} {taken : Option String}
    (heffect : Effect deed m m' g k taken) (hg : g.AgreesOff a g')
    (hname : ∀ n, deed.name? = some n → n = a) (hclaim : ∀ n, m.role.claim = some n → n = a) :
    k.AgreesOff a g' := by
  cases heffect with
  | still hregistry =>
    subst hregistry
    exact hg
  | came name hcomes _ hregistry =>
    obtain rfl := hname name hcomes
    subst hregistry
    exact hg.join_left.tally _ _
  | destroyed name hregistry hbefore =>
    obtain rfl := hclaim name hbefore
    subst hregistry
    exact hg.leave_left.tally _ _
  | left name hregistry hbefore =>
    obtain rfl := hclaim name hbefore
    subst hregistry
    exact hg.leave_left

/-- Who has the one name and comes under no other keeps to it. -/
theorem Effect.claim_eq {deed : Deed} {m m' : Member} {k : Registry} {taken : Option String}
    (heffect : Effect deed m m' g k taken) (hname : ∀ n, deed.name? = some n → n = a)
    (hclaim : ∀ n, m.role.claim = some n → n = a) {name : String}
    (hafter : m'.role.claim = some name) : name = a := by
  cases heffect with
  | still _ hsame => exact hclaim name (hsame ▸ hafter)
  | came other hcomes _ _ _ hclaims =>
    cases hclaims.symm.trans hafter
    exact hname name hcomes
  | destroyed _ _ _ hnone => cases hnone.symm.trans hafter
  | left _ _ _ hnone => cases hnone.symm.trans hafter

/-- Members that are alike take a deed alike, and those that do not expect the one name give the
same answer. -/
theorem Alike.act {m m' : Member} (h : m.Alike a m') (hg : g.AgreesOff a g') (now : Instant)
    (deed : Deed) : OutcomeAlike a (m.role.Blind a) (m.act now deed g) (m'.act now deed g') := by
  cases h with
  | absent => exact act_alike_unknown hg now deed
  | handle reg trace trace' => exact act_alike_handle hg reg trace trace' now deed
  | session x found' wait wait' fired trace trace' hseen =>
    exact act_alike_session hg hseen now deed
  | gone trace trace' => exact ⟨fun _ => rfl, .gone trace trace', hg⟩

theorem blind_unknown {deed : Deed} (hdeed : deed.Blind a) (now : Instant) (g : Registry) :
    (unknown.act now deed g).2.1.role.Blind a := by
  cases deed with
  | register identity =>
    simp only [unknown, act, Role.act, actAbsent]
    split
    · trivial
    · trivial
  | connect expected settings identity =>
    cases hconnect : Session.connect Registry.traced expected settings identity ⟨g, []⟩ with
    | error cause =>
      simp only [unknown, act, Role.act, actAbsent, hconnect]
      trivial
    | ok opened =>
      obtain ⟨x, r⟩ := opened
      obtain ⟨-, ⟨timeout, interval, -, rfl⟩, -⟩ := Session.connect_registry hconnect
      simp only [unknown, act, Role.act, actAbsent, hconnect]
      exact fun hmem => hdeed (NameSet.mem_ofList.mp hmem)
  | _ => trivial

theorem blind_session {x : Session Registration} (ha : a ∉ x.expected) (wait : Option Wait)
    (fired : Bool) (trace : List (Happening Empty)) (now : Instant) (deed : Deed) (g : Registry) :
    (act now deed ⟨.session x wait fired, trace⟩ g).2.1.role.Blind a := by
  cases deed with
  | begin fired' =>
    simp only [act, Role.act, actSession]
    split
    · exact ha
    · exact ha
  | resume =>
    obtain ⟨found, wait', answer, shown, hresume⟩ :=
      resumeSession_keeps now x wait fired ⟨g, trace⟩
    simp only [act, Role.act, actSession, hresume]
    exact ha
  | release =>
    obtain hhandle | ⟨reg, hhandle⟩ := x.handle.eq_none_or_eq_some
    · simp only [act, Role.act, actSession, Session.close, hhandle]
      exact ha
    · simp only [act, Role.act, actSession, Session.close, hhandle]
      exact ha
  | drop => trivial
  | _ => exact ha

/-- Who does not expect the one name and does not ask for it will not expect it. -/
theorem blind_act {m : Member} (hsound : m.Sound) (hm : m.role.Blind a) {deed : Deed}
    (hdeed : deed.Blind a) (now : Instant) (g : Registry) :
    (m.act now deed g).2.1.role.Blind a := by
  cases hsound with
  | absent => exact blind_unknown hdeed now g
  | handle => cases deed <;> trivial
  | session => exact blind_session hm _ _ _ now deed g
  | gone => trivial

end Member

/-! ## Two runs -/

def answers (i : ℕ) : List Move → Gathering → List Answer
  | [], _ => []
  | move :: moves, y =>
    let (answer, y) := y.step move
    if move.number? = some i then answer :: answers i moves y else answers i moves y

theorem answers_cons_self {i : ℕ} {move : Move} (hmove : move.number? = some i)
    (moves : List Move) (y : Gathering) :
    answers i (move :: moves) y = (y.step move).1 :: answers i moves (y.step move).2 := by
  simp only [answers, hmove, if_true]

theorem answers_cons_other {i : ℕ} {move : Move} (hmove : move.number? ≠ some i)
    (moves : List Move) (y : Gathering) :
    answers i (move :: moves) y = answers i moves (y.step move).2 := by
  simp only [answers, hmove, if_false]

/-- A run with a member and the run without it, of which another one cannot tell the names. -/
structure Apart (a : String) (A B : ℕ) (y y' : Gathering) : Prop where
  now : y'.now = y.now
  guests : y'.guests = y.guests
  registry : y.registry.AgreesOff a y'.registry
  others : ∀ i, i ≠ A → (y.members i).Alike a (y'.members i)
  sound : ∀ i, (y.members i).Sound
  claim : ∀ name, (y.members A).role.claim = some name → name = a
  blind : (y.members B).role.Blind a

theorem apart_start (now : Instant) (a : String) (A B : ℕ) :
    Apart a A B (start now Registry.empty) (start now Registry.empty) where
  now := rfl
  guests := rfl
  registry := by
    have hpos : ∀ entry ∈ Registry.empty.counts, 0 < entry.2 := by simp [Registry.empty]
    exact ⟨rfl, fun _ _ => rfl, hpos, hpos⟩
  others _ _ := .absent
  sound _ := .absent
  claim _ hclaim := by cases hclaim
  blind := trivial

namespace Apart

variable {a : String} {A B : ℕ} {y y' : Gathering}

/-- What the one member does, the other run goes without. -/
theorem step_own (h : Apart a A B y y') (hBA : B ≠ A) {deed : Deed}
    (hname : ∀ n, deed.name? = some n → n = a) : Apart a A B (y.step (.act A deed)).2 y' := by
  obtain ⟨heffect, hsound⟩ := Member.act_effect (h.sound A) y.now deed y.registry
  simp only [step]
  generalize (y.members A).act y.now deed y.registry = out at heffect hsound ⊢
  obtain ⟨answer, m, g⟩ := out
  refine ⟨h.now, h.guests, ?_, fun i hi => ?_, fun i => ?_, fun name hclaim => ?_, ?_⟩
  · exact heffect.agreesOff h.registry hname h.claim
  · simpa [hi] using h.others i hi
  · by_cases hi : i = A
    · subst hi
      simpa using hsound
    · simpa [hi] using h.sound i
  · simp only [Function.update_self] at hclaim
    exact heffect.claim_eq hname h.claim hclaim
  · simpa [hBA] using h.blind

theorem withWorld (h : Apart a A B y y') (now : Instant) {k k' : Registry}
    (hk : k.AgreesOff a k') (guests : List String) :
    Apart a A B ⟨now, k, guests, y.members⟩ ⟨now, k', guests, y'.members⟩ :=
  ⟨rfl, rfl, hk, h.others, h.sound, h.claim, h.blind⟩

/-- What another member does, it does in both runs. -/
theorem step_act (h : Apart a A B y y') {i : ℕ} (hi : i ≠ A) (deed : Deed)
    (hblind : i = B → deed.Blind a) :
    Apart a A B (y.step (.act i deed)).2 (y'.step (.act i deed)).2 ∧
      (i = B → (y.step (.act i deed)).1.without a = (y'.step (.act i deed)).1.without a) := by
  obtain ⟨hanswer, hmember, hregistry⟩ := (h.others i hi).act h.registry y.now deed
  obtain ⟨-, hsound⟩ := Member.act_effect (h.sound i) y.now deed y.registry
  simp only [step, h.now]
  refine ⟨⟨rfl, h.guests, hregistry, fun j hj => ?_, fun j => ?_, fun name hclaim => ?_, ?_⟩,
    fun hB => hanswer (hB ▸ h.blind)⟩
  · by_cases hji : j = i
    · subst hji
      simpa using hmember
    · simpa [hji] using h.others j hj
  · by_cases hji : j = i
    · subst hji
      simpa using hsound
    · simpa [hji] using h.sound j
  · simp only [Function.update_of_ne hi.symm] at hclaim
    exact h.claim name hclaim
  · by_cases hiB : B = i
    · subst hiB
      simpa using Member.blind_act (h.sound B) h.blind (hblind rfl) y.now y.registry
    · simpa [hiB] using h.blind

/-- What anyone but the one member does, is done in both runs. -/
theorem step_other (h : Apart a A B y y') {move : Move} (hmove : move.number? ≠ some A)
    (hblind : ∀ deed, move = .act B deed → deed.Blind a) :
    Apart a A B (y.step move).2 (y'.step move).2 ∧
      (move.number? = some B → (y.step move).1.without a = (y'.step move).1.without a) := by
  cases move with
  | pass time =>
    refine ⟨?_, fun hB => by cases hB⟩
    simp only [step, h.now, h.guests]
    exact h.withWorld _ h.registry y.guests
  | join name =>
    refine ⟨?_, fun hB => by cases hB⟩
    simp only [step, h.now, h.guests]
    exact h.withWorld _ (h.registry.join name) _
  | leave name =>
    refine ⟨?_, fun hB => by cases hB⟩
    simp only [step, h.now, h.guests]
    split
    · exact h.withWorld _ (h.registry.leave name) _
    · exact h
  | setUnavailable reason =>
    refine ⟨?_, fun hB => by cases hB⟩
    simp only [step, h.now, h.guests]
    exact h.withWorld _ (h.registry.setUnavailable reason) _
  | act i deed =>
    have hi : i ≠ A := fun hiA => hmove (congrArg some hiA)
    obtain ⟨hnext, hanswer⟩ := h.step_act hi deed fun hiB => hblind deed (by rw [hiB])
    exact ⟨hnext, fun hB => hanswer (Option.some.inj hB)⟩

/-- The answers along two runs, one with the member and one without. -/
theorem answers_alike (h : Apart a A B y y') (hBA : B ≠ A) {moves : List Move}
    (hname : ∀ deed, Move.act A deed ∈ moves → ∀ n, deed.name? = some n → n = a)
    (hblind : ∀ deed, Move.act B deed ∈ moves → deed.Blind a) :
    (answers B moves y).map (·.without a) =
      (answers B (moves.filter fun move => move.number? ≠ some A) y').map (·.without a) := by
  induction moves generalizing y y' with
  | nil => rfl
  | cons move moves ih =>
    have hname' (deed : Deed) (hmem : Move.act A deed ∈ moves) := hname deed (by simp [hmem])
    have hblind' (deed : Deed) (hmem : Move.act B deed ∈ moves) := hblind deed (by simp [hmem])
    by_cases hmove : move.number? = some A
    · obtain ⟨deed, rfl⟩ := Move.number?_eq_some hmove
      have hother : (Move.act A deed).number? ≠ some B := fun hEq => hBA (Option.some.inj hEq).symm
      rw [List.filter_cons_of_neg (by simp [hmove]), answers_cons_other hother]
      exact ih (h.step_own hBA (hname deed (by simp))) hname' hblind'
    · obtain ⟨hnext, hanswer⟩ := h.step_other hmove fun deed hdeed => hblind deed (by simp [hdeed])
      have hrest := ih hnext hname' hblind'
      rw [List.filter_cons_of_pos (by simpa using hmove)]
      by_cases hB : move.number? = some B
      · rw [answers_cons_self hB, answers_cons_self hB, List.map_cons, List.map_cons, hanswer hB,
          hrest]
      · rw [answers_cons_other hB, answers_cons_other hB]
        exact hrest

end Apart

/-- All that a member does can be taken out of a run. Any other member that never expects its name
gets the same answers as before, but for that name among the names found. -/
theorem answers_without_member (now : Instant) (moves : List Move) {a : String} {A B : ℕ}
    (hBA : B ≠ A)
    (hname : ∀ deed, Move.act A deed ∈ moves → ∀ name, deed.name? = some name → name = a)
    (hblind : ∀ expected settings identity,
      Move.act B (.connect expected settings identity) ∈ moves → a ∉ expected) :
    (answers B moves (start now Registry.empty)).map (·.without a) =
      (answers B (moves.filter fun move => move.number? ≠ some A)
        (start now Registry.empty)).map (·.without a) := by
  refine (apart_start now a A B).answers_alike hBA hname fun deed hdeed => ?_
  cases deed with
  | connect expected settings identity => exact hblind expected settings identity hdeed
  | _ => trivial

/-- A session is without one of its own name, which is also the name of a guest. -/
theorem answers_without_namesake :
    let a := "_test_node_AAAAAAAAAA"
    let moves : List Move :=
      [.join a, .act 0 (.connect ["b"] Settings.standard ⟨a⟩),
        .act 1 (.connect ["b"] Settings.standard ⟨a⟩), .act 1 (.begin false), .act 1 .resume,
        .leave a, .act 0 .release, .join "b", .pass ⟨1000000000, by decide⟩, .act 0 .drop,
        .act 1 .resume, .act 1 .foundNames, .act 1 .missingNames]
    1 ≠ 0 ∧
      (∀ deed, Move.act 0 deed ∈ moves → ∀ name, deed.name? = some name → name = a) ∧
      (∀ expected settings identity,
        Move.act 1 (.connect expected settings identity) ∈ moves → a ∉ expected) ∧
      (answers 1 moves (start ⟨0⟩ Registry.empty)).map (·.without a) =
        (answers 1 (moves.filter fun move => move.number? ≠ some 0)
          (start ⟨0⟩ Registry.empty)).map (·.without a) := by
  intro a moves
  have hname (deed : Deed) (hdeed : Move.act 0 deed ∈ moves) (name : String)
      (hasked : deed.name? = some name) : name = a := by
    have hdeeds : deed = .connect ["b"] Settings.standard ⟨a⟩ ∨ deed = .release ∨ deed = .drop := by
      simpa [moves] using hdeed
    rcases hdeeds with rfl | rfl | rfl
    · cases hasked
      rfl
    · cases hasked
    · cases hasked
  have hblind (expected : List String) (settings : Settings) (identity : Identity)
      (hdeed : Move.act 1 (.connect expected settings identity) ∈ moves) : a ∉ expected := by
    have hexpected : expected = ["b"] ∧ settings = Settings.standard ∧ identity = ⟨a⟩ := by
      simpa [moves] using hdeed
    rw [hexpected.1]
    decide
  exact ⟨by decide, hname, hblind, answers_without_member ⟨0⟩ moves (by decide) hname hblind⟩

end Gathering

end RollCall
