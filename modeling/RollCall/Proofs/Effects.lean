import Mathlib.Data.List.Perm.Basic
import Mathlib.Data.Nat.Notation
import Mathlib.Logic.Relation
import RollCall.Proofs.Links
import RollCall.Scenario.World

/-!
# What can happen in a scenario

A company is a world together with all who hold handles in it: sessions, each with its wait if one
is under way, and bare handles. An `Effect` is one thing that can happen to a company at an
instant: a session is connected, takes a turn or is shut down, a handle is used, a participant
comes or goes, a task of a launch takes a turn. A `Course` is any number of these, one after the
other, while time passes.

Whatever a scenario does is such a course, so what is to be shown of every scenario is shown of
each effect.
-/

namespace RollCall.Scenario

namespace World

/-! ## Numbers of registries -/

theorem registry_setRegistry {w : World} {i : ℕ} (hi : i < w.registries.length) (r : Registry) :
    (w.setRegistry i r).registry i = r := by
  simp [registry, setRegistry, hi]

theorem setRegistry_registry (w : World) (i : ℕ) : w.setRegistry i (w.registry i) = w := by
  have hsame : w.registries.set i (w.registry i) = w.registries := by
    refine List.ext_getElem? fun j => ?_
    by_cases hij : i = j
    · subst hij
      by_cases hi : i < w.registries.length
      · simp [registry, hi]
      · simp [hi]
    · simp [hij]
  simp only [setRegistry, hsame]

theorem registry_setRegistry_of_ne {i j : ℕ} (hij : j ≠ i) (r : Registry) (w : World) :
    (w.setRegistry j r).registry i = w.registry i := by
  simp [registry, setRegistry, hij]

/-- All numbers in a world are numbers of its registries. -/
structure Grounded (w : World) : Prop where
  graphs : ∀ entry ∈ w.graphs.entries, entry.2 < w.registries.length
  participants : ∀ entry ∈ w.participants.entries, entry.2.1 < w.registries.length
  launches : ∀ entry ∈ w.launches, entry.1 < w.registries.length

structure Continues (w w' : World) : Prop where
  now : w'.now = w.now
  length : w.registries.length ≤ w'.registries.length
  grounded : w.Grounded → w'.Grounded

/-- Neither the labels of the sessions and of the handles have changed, nor the launches. -/
structure Spares (w w' : World) : Prop extends Continues w w' where
  sessions : w'.sessions = w.sessions
  handles : w'.handles = w.handles
  launches : w'.launches = w.launches

namespace Continues

variable {w w' w'' : World}

theorem refl (w : World) : Continues w w := ⟨rfl, Nat.le_refl _, id⟩

theorem trans (h : Continues w w') (h' : Continues w' w'') : Continues w w'' where
  now := h'.now.trans h.now
  length := Nat.le_trans h.length h'.length
  grounded hw := h'.grounded (h.grounded hw)

theorem of_same (hnow : w'.now = w.now) (hgraphs : w'.graphs = w.graphs)
    (hparticipants : w'.participants = w.participants)
    (hlength : w'.registries.length = w.registries.length)
    (hlaunches : w.Grounded → ∀ entry ∈ w'.launches, entry.1 < w.registries.length) :
    Continues w w' := by
  refine ⟨hnow, Nat.le_of_eq hlength.symm, fun hw => ⟨?_, ?_, ?_⟩⟩
  · rw [hgraphs, hlength]
    exact hw.graphs
  · rw [hparticipants, hlength]
    exact hw.participants
  · rw [hlength]
    exact hlaunches hw

end Continues

namespace Spares

variable {w w' w'' : World}

theorem refl (w : World) : Spares w w := ⟨.refl w, rfl, rfl, rfl⟩

theorem trans (h : Spares w w') (h' : Spares w' w'') : Spares w w'' where
  toContinues := h.toContinues.trans h'.toContinues
  sessions := h'.sessions.trans h.sessions
  handles := h'.handles.trans h.handles
  launches := h'.launches.trans h.launches

end Spares

variable {w : World}

theorem mention_grounded (hw : w.Grounded) (label : String) : (w.mention label).2.Grounded := by
  unfold mention
  split
  · exact hw
  · have hmore {n : ℕ} (hn : n < w.registries.length) :
        n < (w.registries ++ [Registry.empty]).length := by
      rw [List.length_append]
      exact Nat.lt_succ_of_lt hn
    refine ⟨?_, fun entry h => hmore (hw.participants entry h),
      fun entry h => hmore (hw.launches entry h)⟩
    intro entry hentry
    rcases Directory.mem_putEntry hentry with rfl | hold
    · simp
    · exact hmore (hw.graphs entry hold)

theorem Grounded.graph_lt (hw : w.Grounded) {label : String} {i : ℕ}
    (hlabel : w.graphs.get? label = some i) : i < w.registries.length := by
  obtain ⟨before, after, hentries, -⟩ := Directory.exists_split hlabel
  exact hw.graphs (label, i) (by simp [hentries])

/-- The participant under a label is on a registry that is there. -/
theorem Grounded.participant_lt (hw : w.Grounded) (label : String) :
    ∀ p, w.participants.get? label = some p → p.1 < w.registries.length := by
  intro p hp
  obtain ⟨before, after, hentries, -⟩ := Directory.exists_split hp
  exact hw.participants (label, p) (by simp [hentries])

theorem spares_mention (label : String) (w : World) : Spares w (w.mention label).2 := by
  refine ⟨⟨?_, ?_, fun hw => mention_grounded hw label⟩, ?_, ?_, ?_⟩ <;> unfold mention <;>
    split <;> simp

theorem spares_setRegistry (w : World) (i : ℕ) (r : Registry) : Spares w (w.setRegistry i r) := by
  exact ⟨.of_same rfl rfl rfl (by simp [setRegistry]) fun hw => hw.launches, rfl, rfl, rfl⟩

theorem spares_leaveOf (participant : Option (ℕ × String)) (w : World) :
    Spares w (leaveOf participant w) := by
  unfold leaveOf
  split
  · exact .refl w
  · exact spares_setRegistry w _ _

theorem spares_keepParticipant (label name : String) {i : ℕ} (w : World)
    (hi : w.Grounded → i < w.registries.length) :
    Spares w { w with participants := w.participants.put label (i, name) } := by
  refine ⟨⟨rfl, Nat.le_refl _, fun hw => ⟨hw.graphs, ?_, hw.launches⟩⟩, rfl, rfl, rfl⟩
  intro entry hentry
  rcases Directory.mem_putEntry hentry with rfl | hold
  · exact hi hw
  · exact hw.participants entry hold

theorem spares_forget (label : String) (w : World) :
    Spares w { w with participants := w.participants.remove label } := by
  refine ⟨⟨rfl, Nat.le_refl _, fun hw => ⟨hw.graphs, ?_, hw.launches⟩⟩, rfl, rfl, rfl⟩
  intro entry hentry
  exact hw.participants entry (List.mem_filter.mp hentry).1

theorem spares_apply (e : Event) (w : World) : Spares w (w.apply e) := by
  cases e with
  | join label name graph =>
    let joined := (w.mention graph).2.setRegistry (w.mention graph).1
      (((w.mention graph).2.registry (w.mention graph).1).join name)
    have hjoined : Spares w joined := (spares_mention graph w).trans (spares_setRegistry _ _ _)
    have hkept := spares_keepParticipant label name joined fun hw =>
      hw.graph_lt (w.mention_get graph)
    exact (hjoined.trans hkept).trans (spares_leaveOf _ _)
  | leave label => exact (spares_forget label w).trans (spares_leaveOf _ _)
  | cancel token => exact ⟨.of_same rfl rfl rfl rfl fun hw => hw.launches, rfl, rfl, rfl⟩
  | setUnavailable reason graph => exact (spares_mention graph w).trans (spares_setRegistry _ _ _)

/-! ## What has no part in who is there -/

/-- Nothing has changed that says who is there: not the clock, nor the registries, the participants
and the launches, nor the sessions and the handles under their labels. New registries are empty,
and only their labels are new. -/
structure Aside (w w' : World) : Prop where
  now : w'.now = w.now
  registry : ∀ i, w'.registry i = w.registry i
  length : w.registries.length ≤ w'.registries.length
  graphs : ∀ entry ∈ w'.graphs.entries, entry ∈ w.graphs.entries ∨ entry.2 < w'.registries.length
  participants : w'.participants = w.participants
  launches : w'.launches = w.launches
  sessions : w'.sessions = w.sessions
  handles : w'.handles = w.handles

theorem aside_mention (label : String) (w : World) : Aside w (w.mention label).2 := by
  unfold mention
  split
  · exact ⟨rfl, fun _ => rfl, Nat.le_refl _, fun _ h => Or.inl h, rfl, rfl, rfl, rfl⟩
  · refine ⟨rfl, fun i => ?_, by simp, fun entry hentry => ?_, rfl, rfl, rfl, rfl⟩
    · simp only [registry, List.getD_eq_getElem?_getD, List.getElem?_append]
      split
      · rfl
      · rename_i hnew
        rw [List.getElem?_eq_none (Nat.le_of_not_lt hnew)]
        cases i - w.registries.length with
        | zero => rfl
        | succ _ => rfl
    · rcases Directory.mem_putEntry hentry with rfl | hold
      · exact Or.inr (by simp)
      · exact Or.inl hold

theorem aside_rest (w : World) (scripts : List Script) (scriptLabels : Directory ℕ)
    (cursors : List ℕ) (fired : List String) (launchLabels : Directory ℕ) (words : WordSource)
    (journal : List Entry) :
    Aside w { w with scripts, scriptLabels, cursors, fired, launchLabels, words, journal } :=
  ⟨rfl, fun _ => rfl, Nat.le_refl _, fun _ h => Or.inl h, rfl, rfl, rfl, rfl⟩

theorem aside_tell (e : Entry) (w : World) : Aside w (w.tell e) := aside_rest w _ _ _ _ _ _ _

theorem Aside.spares {w w' : World} (h : Aside w w') : Spares w w' := by
  refine ⟨⟨h.now, h.length, fun hw => ⟨?_, ?_, ?_⟩⟩, h.sessions, h.handles, h.launches⟩
  · intro entry hentry
    rcases h.graphs entry hentry with hold | hnew
    · exact Nat.lt_of_lt_of_le (hw.graphs entry hold) h.length
    · exact hnew
  · intro entry hentry
    rw [h.participants] at hentry
    exact Nat.lt_of_lt_of_le (hw.participants entry hentry) h.length
  · intro entry hentry
    rw [h.launches] at hentry
    exact Nat.lt_of_lt_of_le (hw.launches entry hentry) h.length

/-- Some events have happened, and otherwise nothing that has a part in who is there. -/
inductive Stirred : World → World → Prop
  | refl (w : World) : Stirred w w
  | aside {w w' w'' : World} (haside : Aside w w') (h : Stirred w' w'') : Stirred w w''
  | event (e : Event) {w w' : World} (h : Stirred (w.apply e) w') : Stirred w w'

namespace Stirred

variable {w w' w'' : World}

theorem trans (h : Stirred w w') (h' : Stirred w' w'') : Stirred w w'' := by
  induction h with
  | refl => exact h'
  | aside haside _ ih => exact .aside haside (ih h')
  | event e _ ih => exact .event e (ih h')

theorem of_aside (h : Aside w w') : Stirred w w' := .aside h (.refl w')

theorem of_events (events : List Event) (w : World) :
    Stirred w (events.foldl (fun w e => w.apply e) w) := by
  induction events generalizing w with
  | nil => exact .refl w
  | cons e events ih => exact .event e (ih _)

theorem spares (h : Stirred w w') : Spares w w' := by
  induction h with
  | refl w => exact .refl w
  | aside haside _ ih => exact haside.spares.trans ih
  | event e _ ih => exact (spares_apply e _).trans ih

end Stirred

/-! ## Handles -/

/-- To poll a handle is to let the events of a snapshot happen. -/
theorem stirred_poll (h : Handle) (w : World) : Stirred w (w.poll h).2 := by
  cases h with
  | member i g => exact .refl w
  | replay script cursor identity =>
    simp only [poll, pollScript]
    split
    · exact .refl w
    · split
      · exact .of_aside (aside_rest w _ _ _ _ _ _ _)
      · exact .trans (.of_aside (aside_rest w _ _ _ _ _ _ _)) (.of_events _ _)

theorem link_stirred : link.Within Stirred where
  refl := .refl
  trans := .trans
  poll := stirred_poll
  tell e w := .of_aside (aside_tell e w)

theorem link_spares : link.Within Spares where
  refl := .refl
  trans := .trans
  poll h w := (stirred_poll h w).spares
  tell e w := (aside_tell e w).spares

theorem spares_destroy (h : Handle) (w : World) : Spares w (w.destroy h).2 := by
  cases h with
  | member i g => exact spares_setRegistry w _ _
  | replay script cursor identity =>
    simp only [destroy]
    split
    · exact .refl w
    · exact (aside_rest w _ _ _ _ _ _ _).spares

theorem spares_dropHandle (h : Handle) (w : World) : Spares w (w.dropHandle h) := by
  cases h with
  | member i g => exact spares_setRegistry w _ _
  | replay script cursor identity => exact .refl w

theorem spares_register {source : Source} {identity : Identity} {h : Handle} {w w' : World}
    (hregister : register source identity w = .ok (h, w')) : Spares w w' := by
  cases source with
  | graph i =>
    simp only [register] at hregister
    split at hregister
    · cases hregister
    · cases hregister
      exact spares_setRegistry w _ _
  | script i =>
    simp only [register] at hregister
    split at hregister
    · cases hregister
    · split at hregister
      · cases hregister
      · cases hregister
        exact (aside_rest w _ _ _ _ _ _ _).spares

theorem session_spares_connect
    {source : Source} {expected : List String} {settings : Settings} {identity : Identity}
    {x : Session Handle} {w w' : World}
    (hconnect : Session.connect (transport source) expected settings identity w = .ok (x, w')) :
    Spares w w' := by
  obtain ⟨_, _, _, _, -, hregister, -, rfl⟩ := Session.connect_eq_ok_iff.mp hconnect
  exact (spares_register hregister).trans (aside_tell _ _).spares

/-! ## Launches -/

/-- One turn of one task of a launch. -/
def turnTask (k j : ℕ) (w : World) : World :=
  match w.launches[k]? with
  | none => w
  | some (i, l) =>
    match l.tasks[j]? with
    | none => w
    | some t =>
      let (t, r) := t.step false l.stopped w.now (w.registry i)
      { w.setRegistry i r with
        launches := w.launches.set k (i, { l with tasks := l.tasks.set j t }) }

def addLaunch (i : ℕ) (entrants : List Entrant) (w : World) : World :=
  { w with launches := w.launches ++ [(i, Launch.start entrants w.now)] }

def stopTasks (k : ℕ) (w : World) : World :=
  { w with launches := w.launches.modify k fun (registry, l) => (registry, l.stop) }

end World

/-! ## Companies -/

/-- Whoever has a handle in hand: a session, with its wait if one is under way, or somebody who has
nothing but the handle. -/
inductive Holder
  | session (x : Session Handle) (wait : Option Wait)
  | bare (handle : Handle)

/-- The handle that a holder has not released yet. -/
def Holder.handle? : Holder → Option Handle
  | .session x _ => x.handle
  | .bare h => some h

/-- A world with all who hold handles in it. -/
structure Company where
  holders : List Holder
  world : World

/-- Among the numbered seats of some, one is a seat of the first of them. -/
theorem Company.exists_seat
    {α : Type} {seats : List (ℕ × α)} {a : α} {rest : List α}
    (h : (seats.map Prod.snd).Perm (a :: rest)) : ∃ i others, seats.Perm ((i, a) :: others) := by
  obtain ⟨⟨i, _⟩, hseat, rfl⟩ := List.mem_map.mp (h.mem_iff.mpr (List.mem_cons_self ..))
  obtain ⟨before, after, rfl⟩ := List.append_of_mem hseat
  exact ⟨i, before ++ after, List.perm_middle⟩

def Source.Grounded (w : World) : Source → Prop
  | .graph i => i < w.registries.length
  | .script _ => True

theorem Source.Grounded.of_le {source : Source} {w w' : World} (h : source.Grounded w)
    (hle : w.registries.length ≤ w'.registries.length) : source.Grounded w' := by
  cases source with
  | graph i => exact Nat.lt_of_lt_of_le h hle
  | script i => trivial

/-- What can happen at an instant. -/
inductive Effect : Company → Company → Prop
  | reorder {hs hs' : List Holder} {w : World} (hperm : hs.Perm hs') : Effect ⟨hs, w⟩ ⟨hs', w⟩
  | aside {hs : List Holder} {w w' : World} (haside : w.Aside w') : Effect ⟨hs, w⟩ ⟨hs, w'⟩
  /-- Sessions and handles are put under other labels. -/
  | relabel {hs : List Holder} {w : World} (sessions : Directory (Session Handle))
      (handles : Directory Handle) : Effect ⟨hs, w⟩ ⟨hs, { w with sessions, handles }⟩
  | event {hs : List Holder} {w : World} (e : Event) : Effect ⟨hs, w⟩ ⟨hs, w.apply e⟩
  | launch {hs : List Holder} {w : World} {i : ℕ} (hi : i < w.registries.length)
      (entrants : List Entrant) : Effect ⟨hs, w⟩ ⟨hs, w.addLaunch i entrants⟩
  | stop {hs : List Holder} {w : World} (k : ℕ) : Effect ⟨hs, w⟩ ⟨hs, w.stopTasks k⟩
  | turn {hs : List Holder} {w : World} (k j : ℕ) : Effect ⟨hs, w⟩ ⟨hs, w.turnTask k j⟩
  | connect {hs : List Holder} {w w' : World} {source : Source} {expected : List String}
      {settings : Settings} {identity : Identity} {x : Session Handle}
      (hsource : source.Grounded w)
      (hconnect : Session.connect (World.transport source) expected settings identity w =
        .ok (x, w')) :
      Effect ⟨hs, w⟩ ⟨.session x none :: hs, w'⟩
  | begin {hs : List Holder} {w w' : World} {x : Session Handle} {wait : Option Wait}
      {next : Wait} (hbegin : x.begin World.link w.now w = .ok (next, w')) :
      Effect ⟨.session x wait :: hs, w⟩ ⟨.session x (some next) :: hs, w'⟩
  | resume {hs : List Holder} {w w' : World} {x x' : Session Handle} {wait : Wait} {h : Handle}
      {token : Option String} {progress : Session.Progress} (hhandle : x.handle = some h)
      (hturn : x.turn World.link (World.cancelled token) h w.now wait w = (progress, x', w')) :
      Effect ⟨.session x (some wait) :: hs, w⟩ ⟨.session x' progress.wait? :: hs, w'⟩
  | giveUp {hs : List Holder} {w : World} {x : Session Handle} {wait : Option Wait} :
      Effect ⟨.session x wait :: hs, w⟩ ⟨.session x none :: hs, w⟩
  | close {hs : List Holder} {w w' : World} {x x' : Session Handle} {wait : Option Wait}
      (hclose : x.close World.link w = .ok (x', w')) :
      Effect ⟨.session x wait :: hs, w⟩ ⟨.session x' none :: hs, w'⟩
  /-- A session is given up, with its handle if it is still live. -/
  | drop {hs : List Holder} {w : World} {x : Session Handle} {wait : Option Wait} :
      Effect ⟨.session x wait :: hs, w⟩ ⟨hs, x.drop World.link w⟩
  /-- A handle is created for nobody in particular. -/
  | create {hs : List Holder} {w w' : World} {source : Source} {identity : Identity} {h : Handle}
      (hsource : source.Grounded w)
      (hregister : World.register source identity w = .ok (h, w')) :
      Effect ⟨hs, w⟩ ⟨.bare h :: hs, w'⟩
  | poll {hs : List Holder} {w : World} {h : Handle} :
      Effect ⟨.bare h :: hs, w⟩ ⟨.bare h :: hs, (w.poll h).2⟩
  | destroy {hs : List Holder} {w : World} {h : Handle} :
      Effect ⟨.bare h :: hs, w⟩ ⟨.bare (w.destroy h).1 :: hs, (w.destroy h).2⟩
  /-- A handle is forgotten without having been destroyed. -/
  | forget {hs : List Holder} {w : World} {h : Handle} :
      Effect ⟨.bare h :: hs, w⟩ ⟨hs, w.dropHandle h⟩

def Holder.Grounded (w : World) (holder : Holder) : Prop :=
  ∀ i g, holder.handle? = some (.member i g) → i < w.registries.length

/-- All numbers of registries are, those of the handles included. -/
structure Company.Grounded (c : Company) : Prop where
  world : c.world.Grounded
  holders : ∀ holder ∈ c.holders, holder.Grounded c.world

/-! ## What every effect leaves alone -/

namespace World

/-- A handle is registered where it comes from. -/
theorem register_member
    {source : Source} {identity : Identity} {w w' : World} {i : ℕ} {g : Registration}
    (hregister : register source identity w = .ok (.member i g, w')) : source = .graph i := by
  cases source with
  | graph j =>
    simp only [register] at hregister
    split at hregister
    · cases hregister
    · cases hregister
      rfl
  | script j =>
    simp only [register] at hregister
    split at hregister
    · cases hregister
    · split at hregister
      · cases hregister
      · cases hregister

/-- To destroy a handle leaves it where it comes from. -/
theorem destroy_member {h : Handle} {w : World} {i : ℕ} {g : Registration}
    (hdestroy : (w.destroy h).1 = .member i g) : ∃ g', h = .member i g' := by
  cases h with
  | member j g' =>
    simp only [destroy, Handle.member.injEq] at hdestroy
    exact ⟨g', by rw [hdestroy.1]⟩
  | replay script cursor identity =>
    simp only [destroy] at hdestroy
    split at hdestroy <;> cases hdestroy

theorem continues_turnTask (k j : ℕ) (w : World) : Continues w (w.turnTask k j) := by
  unfold turnTask
  split
  · exact .refl w
  · rename_i i l hk
    split
    · exact .refl w
    · refine .of_same rfl rfl rfl (by simp [setRegistry]) fun hw entry hentry => ?_
      rcases List.mem_or_eq_of_mem_set hentry with hold | rfl
      · exact hw.launches entry hold
      · exact hw.launches (i, l) (List.mem_of_getElem? hk)

theorem continues_addLaunch {w : World} {i : ℕ} (hi : i < w.registries.length)
    (entrants : List Entrant) : Continues w (w.addLaunch i entrants) := by
  refine .of_same rfl rfl rfl rfl fun hw entry hentry => ?_
  rcases List.mem_append.mp hentry with hold | hnew
  · exact hw.launches entry hold
  · rw [List.mem_singleton.mp hnew]
    exact hi

theorem continues_stopTasks (k : ℕ) (w : World) : Continues w (w.stopTasks k) := by
  refine .of_same rfl rfl rfl rfl fun hw entry hentry => ?_
  obtain ⟨m, hm⟩ := List.mem_iff_getElem?.mp hentry
  simp only [stopTasks, List.getElem?_modify] at hm
  obtain ⟨old, hold, rfl⟩ := Option.map_eq_some_iff.mp hm
  have hin := hw.launches old (List.mem_of_getElem? hold)
  split
  · exact hin
  · exact hin

end World

namespace Effect

variable {c c' : Company}

/-- Whatever happens at an instant leaves the launches as they are, unless it is an effect on
launches and nothing else. -/
theorem launch_cases (h : Effect c c') :
    (c.world.Continues c'.world ∧ c'.world.launches = c.world.launches) ∨
      (∃ i entrants, i < c.world.registries.length ∧
        c' = ⟨c.holders, c.world.addLaunch i entrants⟩) ∨
      (∃ k, c' = ⟨c.holders, c.world.stopTasks k⟩) ∨
      ∃ k j, c' = ⟨c.holders, c.world.turnTask k j⟩ := by
  have hspared (hspares : c.world.Spares c'.world) :
      c.world.Continues c'.world ∧ c'.world.launches = c.world.launches :=
    ⟨hspares.toContinues, hspares.launches⟩
  cases h with
  | reorder => exact Or.inl (hspared (.refl _))
  | aside haside => exact Or.inl (hspared haside.spares)
  | relabel => exact Or.inl ⟨.of_same rfl rfl rfl rfl fun hw => hw.launches, rfl⟩
  | event e => exact Or.inl (hspared (World.spares_apply e _))
  | launch hi entrants => exact Or.inr (Or.inl ⟨_, entrants, hi, rfl⟩)
  | stop k => exact Or.inr (Or.inr (Or.inl ⟨k, rfl⟩))
  | turn k j => exact Or.inr (Or.inr (Or.inr ⟨k, j, rfl⟩))
  | connect _ hconnect => exact Or.inl (hspared (World.session_spares_connect hconnect))
  | begin hbegin => exact Or.inl (hspared (Session.begin_within World.link_spares _ _ hbegin))
  | @resume _ w _ x _ wait h token _ _ hturn =>
    have hspares := Session.turn_within World.link_spares x w (World.cancelled token) h w.now wait
    rw [hturn] at hspares
    exact Or.inl (hspared hspares)
  | giveUp => exact Or.inl (hspared (.refl _))
  | close hclose =>
    exact Or.inl
      (hspared (Session.close_within World.link_spares _ _ World.spares_destroy hclose))
  | drop => exact Or.inl (hspared (Session.drop_within World.link_spares _ _ World.spares_destroy))
  | create _ hregister => exact Or.inl (hspared (World.spares_register hregister))
  | poll => exact Or.inl (hspared (World.stirred_poll _ _).spares)
  | destroy => exact Or.inl (hspared (World.spares_destroy _ _))
  | forget => exact Or.inl (hspared (World.spares_dropHandle _ _))

/-- Nothing that happens at an instant moves the clock. -/
theorem continues (h : Effect c c') : c.world.Continues c'.world := by
  rcases h.launch_cases with ⟨hcontinues, -⟩ | ⟨i, entrants, hi, rfl⟩ | ⟨k, rfl⟩ | ⟨k, j, rfl⟩
  · exact hcontinues
  · exact World.continues_addLaunch hi entrants
  · exact World.continues_stopTasks k _
  · exact World.continues_turnTask k j _

theorem grounded_register
    {source : Source} {identity : Identity} {h : Handle} {w w' : World} {holder : Holder}
    (hsource : source.Grounded w) (hregister : World.register source identity w = .ok (h, w'))
    (hheld : holder.handle? = some h) : holder.Grounded w := by
  intro i g hmember
  rw [hheld] at hmember
  cases hmember
  rw [World.register_member hregister] at hsource
  exact hsource

/-- Whoever has a handle has an old one or a new one, and in both cases from a registry that is
there. -/
theorem holders_grounded (h : Effect c c') (hc : ∀ holder ∈ c.holders, holder.Grounded c.world) :
    ∀ holder ∈ c'.holders, holder.Grounded c.world := by
  cases h with
  | reorder hperm => exact fun holder hholder => hc holder (hperm.mem_iff.mpr hholder)
  | aside => exact hc
  | relabel => exact hc
  | event => exact hc
  | launch => exact hc
  | stop => exact hc
  | turn => exact hc
  | connect hsource hconnect =>
    obtain ⟨_, _, _, _, -, hregister, rfl, -⟩ := Session.connect_eq_ok_iff.mp hconnect
    exact List.forall_mem_cons.mpr ⟨grounded_register hsource hregister rfl, hc⟩
  | begin =>
    obtain ⟨hx, hrest⟩ := List.forall_mem_cons.mp hc
    exact List.forall_mem_cons.mpr ⟨hx, hrest⟩
  | @resume _ w _ x _ wait h token _ _ hturn =>
    obtain ⟨hx, hrest⟩ := List.forall_mem_cons.mp hc
    have hkept := x.turn_handle World.link (World.cancelled token) h w.now wait w
    rw [hturn] at hkept
    refine List.forall_mem_cons.mpr ⟨fun i g hmember => hx i g ?_, hrest⟩
    rw [← hmember]
    exact hkept.symm
  | giveUp =>
    obtain ⟨hx, hrest⟩ := List.forall_mem_cons.mp hc
    exact List.forall_mem_cons.mpr ⟨hx, hrest⟩
  | close hclose =>
    refine List.forall_mem_cons.mpr ⟨fun i g hmember => ?_, (List.forall_mem_cons.mp hc).2⟩
    obtain ⟨-, -, rfl, -⟩ := Session.close_eq_ok_iff.mp hclose
    cases hmember
  | drop => exact (List.forall_mem_cons.mp hc).2
  | create hsource hregister =>
    exact List.forall_mem_cons.mpr ⟨grounded_register hsource hregister rfl, hc⟩
  | poll => exact hc
  | destroy =>
    obtain ⟨hx, hrest⟩ := List.forall_mem_cons.mp hc
    refine List.forall_mem_cons.mpr ⟨fun i g hmember => ?_, hrest⟩
    obtain ⟨g', hbefore⟩ := World.destroy_member (Option.some.inj hmember)
    exact hx i g' (congrArg some hbefore)
  | forget => exact (List.forall_mem_cons.mp hc).2

theorem grounded (h : Effect c c') (hc : c.Grounded) : c'.Grounded where
  world := h.continues.grounded hc.world
  holders holder hholder i g hmember :=
    Nat.lt_of_lt_of_le (h.holders_grounded hc.holders holder hholder i g hmember)
      h.continues.length

end Effect

end RollCall.Scenario
