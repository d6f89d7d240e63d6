import Mathlib.Logic.Function.Basic
import RollCall.Proofs.Effects
import RollCall.Scenario.Activity

/-!
# Dealings at an instant

What a scope or a check does at an instant, and what becomes of the sessions and handles under
labels, put together from effects. A scope has one session, and whatever it does is a dealing:
effects that leave alone what the scenario keeps under its labels.

Main statements: `scope_advance_dealing`, `check_advance_dealing`; `exists_session` and
`exists_handle`, which say where somebody with a label stands among all the others.
-/

namespace RollCall.Scenario

/-! ## Effects, one after the other -/

/-- Any number of effects at an instant. -/
abbrev Effects : Company → Company → Prop := Relation.ReflTransGen Effect

/-- What happens next: an effect, or time passes. -/
inductive Happens : Company → Company → Prop
  | effect {c c' : Company} (h : Effect c c') : Happens c c'
  | pass {hs : List Holder} {w : World} {t : Instant} (ht : w.now ≤ t) :
      Happens ⟨hs, w⟩ ⟨hs, { w with now := t }⟩

/-- Anything that happens, one after the other. -/
abbrev Course : Company → Company → Prop := Relation.ReflTransGen Happens

/-- Effects that leave every session, handle and launch under its label or number. -/
structure Dealing (c c' : Company) : Prop where
  effects : Effects c c'
  spares : c.world.Spares c'.world

namespace Effects

variable {c c' : Company} {w w' : World} {before after : List Holder} {holder holder' : Holder}

theorem course (h : Effects c c') : Course c c' := h.lift id fun _ _ => Happens.effect

theorem continues (h : Effects c c') : c.world.Continues c'.world := by
  induction h with
  | refl => exact .refl _
  | tail _ hlast ih => exact ih.trans hlast.continues

theorem of_stirred (hs : List Holder) (h : w.Stirred w') : Effects ⟨hs, w⟩ ⟨hs, w'⟩ := by
  induction h with
  | refl => exact .refl
  | aside haside _ ih => exact .head (.aside haside) ih
  | event e _ ih => exact .head (.event e) ih

/-- What somebody does, wherever they stand. -/
theorem focus (h : Effects ⟨holder :: (before ++ after), w⟩ ⟨holder' :: (before ++ after), w'⟩) :
    Effects ⟨before ++ holder :: after, w⟩ ⟨before ++ holder' :: after, w'⟩ :=
  .head (.reorder List.perm_middle) (h.tail (.reorder List.perm_middle.symm))

theorem focus_out (h : Effects ⟨holder :: (before ++ after), w⟩ ⟨before ++ after, w'⟩) :
    Effects ⟨before ++ holder :: after, w⟩ ⟨before ++ after, w'⟩ :=
  .head (.reorder List.perm_middle) h

end Effects

namespace Dealing

variable {c c' c'' : Company} {hs : List Holder} {w w' : World}

theorem refl (c : Company) : Dealing c c := ⟨.refl, .refl _⟩

theorem trans (h : Dealing c c') (h' : Dealing c' c'') : Dealing c c'' :=
  ⟨h.effects.trans h'.effects, h.spares.trans h'.spares⟩

theorem of_stirred (h : w.Stirred w') : Dealing ⟨hs, w⟩ ⟨hs, w'⟩ := ⟨.of_stirred hs h, h.spares⟩

theorem drop (x : Session Handle) (wait : Option Wait) :
    Dealing ⟨.session x wait :: hs, w⟩ ⟨hs, x.drop World.link w⟩ :=
  ⟨.single .drop, Session.drop_within World.link_spares x w World.spares_destroy⟩

/-- A session that has been closed is given up without anything being done. -/
theorem close {x x' : Session Handle} (hclose : x.close World.link w = .ok (x', w'))
    (wait : Option Wait) : Dealing ⟨.session x wait :: hs, w⟩ ⟨hs, w'⟩ := by
  have hspares := Session.close_within World.link_spares x w World.spares_destroy hclose
  have hclosed : x'.drop World.link w' = w' := by
    obtain ⟨-, -, rfl, -⟩ := Session.close_eq_ok_iff.mp hclose
    rfl
  have hdrop : Effect ⟨.session x' none :: hs, w'⟩ ⟨hs, x'.drop World.link w'⟩ := .drop
  rw [hclosed] at hdrop
  exact ⟨.head (.close hclose) (.single hdrop), hspares⟩

theorem begin {x : Session Handle} {wait : Option Wait} {next : Wait}
    (hbegin : x.begin World.link w.now w = .ok (next, w')) :
    Dealing ⟨.session x wait :: hs, w⟩ ⟨.session x (some next) :: hs, w'⟩ :=
  ⟨.single (.begin hbegin), Session.begin_within World.link_spares x w hbegin⟩

theorem turn {x x' : Session Handle} {h : Handle} {token : Option String} {wait : Wait}
    {progress : Session.Progress} (hhandle : x.handle = some h)
    (hturn : x.turn World.link (World.cancelled token) h w.now wait w = (progress, x', w')) :
    Dealing ⟨.session x (some wait) :: hs, w⟩ ⟨.session x' progress.wait? :: hs, w'⟩ := by
  have hspares := Session.turn_within World.link_spares x w (World.cancelled token) h w.now wait
  rw [hturn] at hspares
  exact ⟨.single (.resume hhandle hturn), hspares⟩

theorem connect
    {source : Source} {expected : List String} {settings : Settings} {identity : Identity}
    {x : Session Handle} (hsource : source.Grounded w)
    (hconnect : Session.connect (World.transport source) expected settings identity w =
      .ok (x, w')) :
    Dealing ⟨hs, w⟩ ⟨.session x none :: hs, w'⟩ :=
  ⟨.single (.connect hsource hconnect), World.session_spares_connect hconnect⟩

end Dealing

/-! ## Scopes and checks -/

section Scope

variable {β κ ρ : Type} {hs : List Holder}

def scopeHolders : Scope Handle β κ ρ → List Holder
  | .waiting x wait => [.session x (some wait)]
  | .inside x _ => [.session x none]
  | .left _ => []

/-- A body that acts through events alone. -/
structure Stirs (body : Body World Handle β κ ρ) : Prop where
  enter : ∀ x now w, World.Stirred w (body.enter x now w).2
  resume : ∀ x now b w, World.Stirred w (body.resume x now b w).2

theorem leave_dealing (source : Source) (x : Session Handle) (wait : Option Wait)
    (result : ScopeResult κ ρ) (w : World) :
    let out := Scope.leave (β := β) (World.transport source) x result w
    Dealing ⟨.session x wait :: hs, w⟩ ⟨scopeHolders out.1 ++ hs, out.2⟩ := by
  simp only [Scope.leave]
  split
  · rename_i hclose
    exact .close hclose wait
  · exact .drop x wait

theorem resume_dealing {body : Body World Handle β κ ρ} (hbody : Stirs body) (source : Source)
    (x : Session Handle) (wait : Option Wait) (now : Instant) (b : β) (w : World) :
    let out := Scope.resume (World.transport source) body x now b w
    Dealing ⟨.session x wait :: hs, w⟩ ⟨scopeHolders out.1 ++ hs, out.2⟩ := by
  have hstirred := hbody.resume x now b w
  simp only [Scope.resume]
  split
  all_goals rename_i hresume; rw [hresume] at hstirred
  · exact .trans ⟨.single .giveUp, .refl _⟩ (.of_stirred hstirred)
  · exact .trans (.of_stirred hstirred) (leave_dealing source x wait _ _)
  · exact .trans (.of_stirred hstirred) (.drop x wait)

theorem leaveUnfound_dealing (source : Source) (x : Session Handle) (wait : Option Wait)
    (error : NameSet → WaitFailure) (w : World) :
    let out := Scope.leaveUnfound (β := β) (κ := κ) (ρ := ρ) (World.transport source) x error w
    Dealing ⟨.session x wait :: hs, w⟩ ⟨scopeHolders out.1 ++ hs, out.2⟩ := by
  simp only [Scope.leaveUnfound]
  split
  · exact .drop x wait
  · exact leave_dealing source x wait _ w

theorem afterWait_dealing {body : Body World Handle β κ ρ} (hbody : Stirs body) (source : Source)
    (x : Session Handle) (wait : Option Wait) (outcome : Outcome) (now : Instant) (w : World) :
    let out := Scope.afterWait (World.transport source) body x outcome now w
    Dealing ⟨.session x wait :: hs, w⟩ ⟨scopeHolders out.1 ++ hs, out.2⟩ := by
  cases outcome with
  | found =>
    exact .trans (.of_stirred (hbody.enter x now w)) (resume_dealing hbody source x wait now _ _)
  | timedOut => exact leaveUnfound_dealing source x wait _ w
  | cancelled => exact leaveUnfound_dealing source x wait _ w

theorem scope_advance_dealing {body : Body World Handle β κ ρ} (hbody : Stirs body)
    (source : Source) (token : Option String) (scope : Scope Handle β κ ρ) (w : World) :
    let out := scope.advance (World.transport source) (World.cancelled token) body w.now w
    Dealing ⟨scopeHolders scope ++ hs, w⟩ ⟨scopeHolders out.1 ++ hs, out.2⟩ := by
  cases scope with
  | waiting x wait =>
    cases hhandle : x.handle with
    | none =>
      have hdrop : Dealing ⟨.session x (some wait) :: hs, w⟩ ⟨hs, x.drop World.link w⟩ := .drop x _
      rw [Session.drop, hhandle] at hdrop
      simp only [Scope.advance, hhandle]
      exact hdrop
    | some h =>
      rcases hturn : x.turn World.link (World.cancelled token) h w.now wait w with
        ⟨progress, x', w'⟩
      have hdealing : Dealing ⟨.session x (some wait) :: hs, w⟩
          ⟨.session x' progress.wait? :: hs, w'⟩ := .turn hhandle hturn
      simp only [Scope.advance, World.transport_toLink, hhandle, hturn]
      cases progress with
      | pending wait' => exact hdealing
      | ended outcome visible =>
        exact .trans hdealing (afterWait_dealing hbody source x' none outcome w.now w')
  | inside x b => exact resume_dealing hbody source x none w.now b w
  | left result => exact .refl _

theorem enter_dealing {source : Source} {w : World} (hsource : source.Grounded w)
    (expected : List String) (settings : Settings) (identity : Identity) :
    let out := Scope.enter (β := β) (κ := κ) (ρ := ρ) (World.transport source) expected settings
      identity w.now w
    Dealing ⟨hs, w⟩ ⟨scopeHolders out.1 ++ hs, out.2⟩ := by
  simp only [Scope.enter]
  split
  · exact .refl _
  · rename_i x w₁ hconnect
    refine .trans (.connect hsource hconnect) ?_
    rw [← (World.session_spares_connect hconnect).now]
    split
    · exact .drop x none
    · rename_i hbegin
      exact .begin hbegin

theorem abandon_dealing (source : Source) (scope : Scope Handle β κ ρ) (w : World) :
    Dealing ⟨scopeHolders scope ++ hs, w⟩ ⟨hs, scope.abandon (World.transport source) w⟩ := by
  cases scope with
  | waiting x wait => exact .drop x (some wait)
  | inside x b => exact .drop x none
  | left result => exact .refl _

end Scope

section Check

variable {hs : List Holder}

def checkHolders : Check Handle → List Holder
  | .plain x wait => [.session x (some wait)]
  | .scoped scope => scopeHolders scope
  | .done _ => []

theorem checkHolders_ofScope (scope : Scope Handle Unit Empty ReportResult) :
    checkHolders (.ofScope scope) = scopeHolders scope := by
  rcases scope with ⟨x, wait⟩ | ⟨x, b⟩ | ⟨e | r | cause⟩
  · rfl
  · rfl
  · rfl
  · rfl
  · exact nomatch cause

theorem stirs_reporting (source : Source) : Stirs (Check.reporting (World.transport source)) where
  enter _ _ w := .of_aside (World.aside_tell _ w)
  resume _ _ _ w := .refl w

theorem start_dealing {source : Source} {w : World} (hsource : source.Grounded w) (mode : Mode)
    (expected : List String) (settings : Settings) (identity : Identity) :
    let out := Check.start (World.transport source) mode expected settings identity w.now w
    Dealing ⟨hs, w⟩ ⟨checkHolders out.1 ++ hs, out.2⟩ := by
  rcases mode with _ | _
  · simp only [Check.start]
    split
    · exact .refl _
    · rename_i x w₁ hconnect
      refine .trans (.connect hsource hconnect) ?_
      rw [← (World.session_spares_connect hconnect).now]
      split
      · exact .drop x none
      · rename_i hbegin
        exact .begin hbegin
  · simp only [Check.start, checkHolders_ofScope]
    exact enter_dealing hsource expected settings identity

theorem finishPlain_dealing (source : Source) (x : Session Handle) (wait : Option Wait)
    (outcome : Outcome) (w : World) :
    let out := Check.finishPlain (World.transport source) x outcome w
    Dealing ⟨.session x wait :: hs, w⟩ ⟨checkHolders out.1 ++ hs, out.2⟩ := by
  simp only [Check.finishPlain]
  split
  · exact .drop x wait
  · split
    · exact .drop x wait
    · rename_i hclose
      split
      · exact .close hclose wait
      · exact .close hclose wait

theorem check_advance_dealing (source : Source) (token : Option String) (check : Check Handle)
    (w : World) :
    let out := check.advance (World.transport source) (World.cancelled token) w.now w
    Dealing ⟨checkHolders check ++ hs, w⟩ ⟨checkHolders out.1 ++ hs, out.2⟩ := by
  rcases check with ⟨x, wait⟩ | scope | result
  · cases hhandle : x.handle with
    | none =>
      have hdrop : Dealing ⟨.session x (some wait) :: hs, w⟩ ⟨hs, x.drop World.link w⟩ := .drop x _
      rw [Session.drop, hhandle] at hdrop
      simp only [Check.advance, hhandle]
      exact hdrop
    | some h =>
      rcases hturn : x.turn World.link (World.cancelled token) h w.now wait w with
        ⟨progress, x', w'⟩
      have hdealing : Dealing ⟨.session x (some wait) :: hs, w⟩
          ⟨.session x' progress.wait? :: hs, w'⟩ := .turn hhandle hturn
      simp only [Check.advance, World.transport_toLink, hhandle, hturn]
      cases progress with
      | pending wait' => exact hdealing
      | ended outcome visible =>
        exact .trans hdealing (finishPlain_dealing source x' none outcome w')
  · simp only [Check.advance, checkHolders_ofScope]
    exact scope_advance_dealing (stirs_reporting source) source token scope w
  · exact .refl _

theorem check_abandon_dealing (source : Source) (check : Check Handle) (w : World) :
    Dealing ⟨checkHolders check ++ hs, w⟩ ⟨hs, check.abandon (World.transport source) w⟩ := by
  rcases check with ⟨x, wait⟩ | scope | result
  · exact .drop x (some wait)
  · exact abandon_dealing source scope w
  · exact .refl _

end Check

/-! ## Who is there under a label -/

/-- All who are kept under labels: the sessions, with the waits that are under way, and the
handles. -/
def holders (sessions : Directory (Session Handle)) (handles : Directory Handle)
    (waits : String → Option Wait) : List Holder :=
  (sessions.entries.map fun entry => .session entry.2 (waits entry.1)) ++
    handles.entries.map fun entry => .bare entry.2

/-- A world with all who are kept under its labels, while no wait is under way. -/
def World.company (w : World) : Company := ⟨holders w.sessions w.handles fun _ => none, w⟩

theorem World.holders_company {w w' : World} (hsessions : w'.sessions = w.sessions)
    (hhandles : w'.handles = w.handles) : w'.company.holders = w.company.holders := by
  simp only [company, hsessions, hhandles]

section Labels

variable {sessions : Directory (Session Handle)} {handles : Directory Handle} {label : String}

/-- Where the session under a label stands among the others. -/
theorem exists_session {x : Session Handle} (hx : sessions.get? label = some x)
    (handles : Directory Handle) (waits : String → Option Wait) :
    ∃ before after, holders sessions handles waits = before ++ .session x (waits label) :: after ∧
      (∀ wait, holders sessions handles (Function.update waits label wait) =
        before ++ .session x wait :: after) ∧
      (∀ y wait, holders (sessions.put label y) handles (Function.update waits label wait) =
        before ++ .session y wait :: after) ∧
      holders (sessions.remove label) handles waits = before ++ after := by
  obtain ⟨first, last, hentries, hothers, hput, hremove⟩ := Directory.exists_split hx
  have hsame (entries : List (String × Session Handle)) (wait : Option Wait)
      (hne : ∀ entry ∈ entries, entry.1 ≠ label) :
      entries.map (fun entry => Holder.session entry.2 (Function.update waits label wait entry.1)) =
        entries.map fun entry => .session entry.2 (waits entry.1) := by
    refine List.map_congr_left fun entry hentry => ?_
    rw [Function.update_of_ne (hne entry hentry)]
  have hfirst := fun entry h => hothers entry (List.mem_append_left last h)
  have hlast := fun entry h => hothers entry (List.mem_append_right first h)
  refine ⟨first.map fun entry => .session entry.2 (waits entry.1),
    (last.map fun entry => .session entry.2 (waits entry.1)) ++
      handles.entries.map fun entry => .bare entry.2, ?_, fun wait => ?_, fun y wait => ?_, ?_⟩
  · simp [holders, hentries]
  · simp [holders, hentries, hsame first wait hfirst, hsame last wait hlast]
  · simp [holders, hput, hsame first wait hfirst, hsame last wait hlast]
  · simp [holders, hremove]

/-- A session under a label of its own is one more. -/
theorem perm_put_session (hlabel : sessions.get? label = none) (handles : Directory Handle)
    (waits : String → Option Wait) (x : Session Handle) :
    (Holder.session x (waits label) :: holders sessions handles waits).Perm
      (holders (sessions.put label x) handles waits) := by
  simp only [holders, Directory.entries_put_of_none hlabel, List.map_append, List.map_cons,
    List.map_nil, List.append_assoc, List.singleton_append]
  exact List.perm_middle.symm

theorem exists_handle {h : Handle} (hh : handles.get? label = some h)
    (sessions : Directory (Session Handle)) (waits : String → Option Wait) :
    ∃ before after, holders sessions handles waits = before ++ .bare h :: after ∧
      (∀ h', holders sessions (handles.put label h') waits = before ++ .bare h' :: after) ∧
      holders sessions (handles.remove label) waits = before ++ after := by
  obtain ⟨first, last, hentries, -, hput, hremove⟩ := Directory.exists_split hh
  refine ⟨(sessions.entries.map fun entry => .session entry.2 (waits entry.1)) ++
    first.map fun entry => .bare entry.2, last.map fun entry => .bare entry.2, ?_, fun h' => ?_, ?_⟩
  · simp [holders, hentries]
  · simp [holders, hput]
  · simp [holders, hremove]

theorem perm_put_handle (hlabel : handles.get? label = none)
    (sessions : Directory (Session Handle)) (waits : String → Option Wait) (h : Handle) :
    (Holder.bare h :: holders sessions handles waits).Perm
      (holders sessions (handles.put label h) waits) := by
  simp only [holders, Directory.entries_put_of_none hlabel, List.map_append, List.map_cons,
    List.map_nil, ← List.append_assoc]
  exact (List.perm_append_singleton _ _).symm

theorem Effects.giveUp (sessions : Directory (Session Handle)) (handles : Directory Handle)
    (waits : String → Option Wait) (w : World) :
    Effects ⟨holders sessions handles waits, w⟩ ⟨holders sessions handles fun _ => none, w⟩ := by
  suffices hall : ∀ (entries : List (String × Session Handle)) (before after : List Holder),
      Effects ⟨before ++ (entries.map (fun entry => .session entry.2 (waits entry.1)) ++ after), w⟩
        ⟨before ++ (entries.map (fun entry => .session entry.2 none) ++ after), w⟩ from
    hall sessions.entries [] _
  intro entries
  induction entries with
  | nil => exact fun before after => .refl
  | cons entry rest ih =>
    intro before after
    refine .trans (Effects.focus (.single .giveUp)) ?_
    have hrest := ih (before ++ [.session entry.2 none]) after
    simpa using hrest

end Labels

end RollCall.Scenario
