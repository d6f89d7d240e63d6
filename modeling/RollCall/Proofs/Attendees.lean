import RollCall.Proofs.Course
import RollCall.Proofs.Members
import RollCall.Proofs.Scene

/-!
# The registries of a scenario as gatherings

Whoever has a handle on a registry of a scenario is a member of a `Gathering` on it, and the
participants of that registry, whether a scenario or one of its launches has let them join, are its
guests. Whoever comes to the registry, deals with it or leaves it makes a few moves of the
gathering.

Main statements: `Hosts.come`, `Hosts.act` and `Hosts.quit`.
-/

namespace RollCall

namespace Scenario

variable {i : ℕ}

/-! ## Who is there -/

/-- The registration that a handle stands for on a registry. -/
def Handle.on? (i : ℕ) : Handle → Option Registration
  | .member j g => if j = i then some g else none
  | .replay _ _ _ => none

/-- What somebody has in hand on a registry. -/
def Holder.role? (i : ℕ) : Holder → Option Gathering.Role
  | .session x wait =>
    (x.handle.bind (Handle.on? i)).map fun g => .session (x.map fun _ => g) wait false
  | .bare h => (h.on? i).map .handle

def Company.roles (i : ℕ) (c : Company) : List Gathering.Role := c.holders.filterMap (Holder.role? i)

def nameOn (i : ℕ) (participant : ℕ × String) : Option String :=
  if participant.1 = i then some participant.2 else none

def labelledOn (i : ℕ) (participants : Directory (ℕ × String)) : List String :=
  participants.entries.flatMap fun entry => (nameOn i entry.2).toList

/-- The names of the participants on a registry that a launch with a number has let join, unless
that launch is to be left out. -/
def claimsOn (i : ℕ) (apart : Option ℕ) (k : ℕ) (entry : ℕ × Launch) : List String :=
  if entry.1 = i ∧ apart ≠ some k then entry.2.claims else []

/-- The names of the participants on a registry that launches have let join, but for one launch
that may be left out. -/
def launchedOn (i : ℕ) (apart : Option ℕ) (launches : List (ℕ × Launch)) : List String :=
  launches.zipIdx.flatMap fun entry => claimsOn i apart entry.2 entry.1

namespace World

/-- All participants on a registry, but for those of one launch that may be left out. -/
def guests (i : ℕ) (apart : Option ℕ) (w : World) : List String :=
  labelledOn i w.participants ++ launchedOn i apart w.launches

/-- Time has not passed, and neither the participants nor the launches have changed. -/
structure Steady (w w' : World) : Prop where
  now : w'.now = w.now
  participants : w'.participants = w.participants
  launches : w'.launches = w.launches

namespace Steady

variable {w w' w'' : World}

theorem trans (h : Steady w w') (h' : Steady w' w'') : Steady w w'' :=
  ⟨h'.now.trans h.now, h'.participants.trans h.participants, h'.launches.trans h.launches⟩

theorem guests (h : Steady w w') (i : ℕ) (apart : Option ℕ) :
    w'.guests i apart = w.guests i apart := by
  simp only [World.guests, h.participants, h.launches]

end Steady

variable {w w' : World}

theorem Aside.steady (h : Aside w w') : Steady w w' := ⟨h.now, h.participants, h.launches⟩

theorem steady_setRegistry (w : World) (j : ℕ) (r : Registry) : Steady w (w.setRegistry j r) :=
  ⟨rfl, rfl, rfl⟩

end World

/-! ## Gatherings -/

open World

/-- Some members of a gathering have places with these roles. All others have nothing any more, or
have not come yet. -/
structure Seating (members : ℕ → Gathering.Member) (seats : List (ℕ × Gathering.Role)) : Prop where
  nodup : (seats.map Prod.fst).Nodup
  seated : ∀ seat ∈ seats, (members seat.1).role.Shows seat.2
  unseated : ∀ k, k ∉ seats.map Prod.fst → (members k).role.claim = none
  unknown : ∃ n, (∀ seat ∈ seats, seat.1 < n) ∧ ∀ k ≥ n, members k = Gathering.Member.unknown

/-- A gathering whose members are those who have a handle on a registry of a company. -/
structure Hosts (i : ℕ) (y : Gathering) (c : Company) (guests : List String)
    (seats : List (ℕ × Gathering.Role)) : Prop where
  now : y.now = c.world.now
  registry : y.registry = c.world.registry i
  guests : y.guests.Perm guests
  seating : Seating y.members seats
  roles : (seats.map Prod.snd).Perm (c.roles i)

/-- After some moves a gathering is the one of a registry in a company. -/
def Mirrored (i : ℕ) (y : Gathering) (c : Company) (guests : List String) : Prop :=
  ∃ moves seats, Hosts i (y.run moves) c guests seats

/-! ## Who has a handle on a registry -/

section Role

theorem Handle.on?_cases (i : ℕ) (h : Handle) : h.on? i = none ∨ ∃ g, h = .member i g := by
  cases h with
  | member j g =>
    by_cases hji : j = i
    · exact Or.inr ⟨g, by rw [hji]⟩
    · exact Or.inl (by simp [on?, hji])
  | replay => exact Or.inl rfl

theorem role?_bare (g : Registration) :
    (Holder.bare (.member i g)).role? i = some (.handle g) := by
  simp [Holder.role?, Handle.on?]

theorem role?_bare_none {h : Handle} (hoff : h.on? i = none) : (Holder.bare h).role? i = none := by
  simp [Holder.role?, hoff]

/-- Whether a session has a handle on a registry. -/
theorem session_cases (i : ℕ) (x : Session Handle) :
    x.handle.bind (Handle.on? i) = none ∨
      ∃ (x' : Session Registration) (g : Registration),
        x'.handle = some g ∧ x = x'.map (Handle.member i) := by
  obtain ⟨identity, expected, timeout, interval, handle, found⟩ := x
  cases handle with
  | none => exact Or.inl rfl
  | some h =>
    rcases h.on?_cases i with hoff | ⟨g, rfl⟩
    · exact Or.inl hoff
    · exact Or.inr ⟨⟨identity, expected, timeout, interval, some g, found⟩, g, rfl, rfl⟩

theorem role?_session {x : Session Registration} {g : Registration} (hhandle : x.handle = some g)
    (wait : Option Wait) :
    (Holder.session (x.map (Handle.member i)) wait).role? i = some (.session x wait false) := by
  obtain ⟨identity, expected, timeout, interval, handle, found⟩ := x
  obtain rfl : handle = some g := hhandle
  simp [Holder.role?, Session.map, Handle.on?]

theorem role?_session_none {x : Session Handle} (hoff : x.handle.bind (Handle.on? i) = none)
    (wait : Option Wait) : (Holder.session x wait).role? i = none := by
  simp [Holder.role?, hoff]

end Role

/-! ## Places -/

namespace Seating

variable {members : ℕ → Gathering.Member} {seats others : List (ℕ × Gathering.Role)} {k : ℕ}
  {old : Option Gathering.Role} {m : Gathering.Member}

theorem of_perm (h : Seating members seats) (hperm : seats.Perm others) :
    Seating members others := by
  have hnumbers := hperm.map Prod.fst
  obtain ⟨n, hlt, hunknown⟩ := h.unknown
  exact ⟨hnumbers.nodup_iff.mp h.nodup, fun seat hseat => h.seated seat (hperm.mem_iff.mpr hseat),
    fun j hj => h.unseated j fun hmem => hj (hnumbers.mem_iff.mp hmem), n,
    fun seat hseat => hlt seat (hperm.mem_iff.mpr hseat), hunknown⟩

/-- A member may have a new role, and its place is kept if it has one. -/
theorem update (h : Seating members (old.toList.map (Prod.mk k) ++ others))
    (hk : k ∉ others.map Prod.fst) {new : Option Gathering.Role}
    (hnew : ∀ role, new = some role → m.role.Shows role)
    (hnone : new = none → m.role.claim = none) :
    Seating (Function.update members k m) (new.toList.map (Prod.mk k) ++ others) := by
  obtain ⟨n, hlt, hunknown⟩ := h.unknown
  have hdistinct : (others.map Prod.fst).Nodup := by
    have hall := h.nodup
    rw [List.map_append] at hall
    exact (List.nodup_append.mp hall).2.1
  have hothers : ∀ seat ∈ others, (Function.update members k m seat.1).role.Shows seat.2 := by
    intro seat hseat
    have hne : seat.1 ≠ k := fun hEq => hk (hEq ▸ List.mem_map_of_mem hseat)
    rw [Function.update_of_ne hne]
    exact h.seated seat (List.mem_append_right _ hseat)
  have haway {j : ℕ} (hjk : j ≠ k) (hj : j ∉ others.map Prod.fst) :
      (Function.update members k m j).role.claim = none := by
    rw [Function.update_of_ne hjk]
    refine h.unseated j ?_
    cases old with
    | none => exact hj
    | some role => exact List.not_mem_cons_of_ne_of_not_mem hjk hj
  have hbefore : ∀ seat ∈ others, seat.1 < max n (k + 1) := fun seat hseat =>
    Nat.lt_of_lt_of_le (hlt seat (List.mem_append_right _ hseat)) (Nat.le_max_left _ _)
  have hafter : ∀ j ≥ max n (k + 1), Function.update members k m j = Gathering.Member.unknown := by
    intro j hj
    have hjk : j ≠ k := by omega
    rw [Function.update_of_ne hjk]
    exact hunknown j (Nat.le_trans (Nat.le_max_left _ _) hj)
  cases new with
  | none =>
    refine ⟨hdistinct, hothers, fun j hj => ?_, _, hbefore, hafter⟩
    by_cases hjk : j = k
    · rw [hjk, Function.update_self]
      exact hnone rfl
    · exact haway hjk hj
  | some role =>
    have hself : (Function.update members k m k).role.Shows role := by
      rw [Function.update_self]
      exact hnew role rfl
    refine ⟨List.nodup_cons.mpr ⟨hk, hdistinct⟩, List.forall_mem_cons.mpr ⟨hself, hothers⟩,
      fun j hj => ?_, _, List.forall_mem_cons.mpr ⟨?_, hbefore⟩, hafter⟩
    · exact haway (List.ne_of_not_mem_cons hj) (List.not_mem_of_not_mem_cons hj)
    · exact Nat.lt_of_lt_of_le (Nat.lt_succ_self k) (Nat.le_max_right _ _)

end Seating

/-! ## Moves -/

section Moves

variable {y : Gathering} {c c' : Company} {hs hs' : List Holder} {w w' : World}
  {guests rest : List String} {holder holder' : Holder} {role role' : Gathering.Role}
  {seats : List (ℕ × Gathering.Role)}

def nanosecond : Duration := ⟨1, by decide⟩

theorem run_passes (y : Gathering) (n : ℕ) :
    y.run (List.replicate n (.pass nanosecond)) = { y with now := ⟨y.now.nanos + n⟩ } := by
  induction n generalizing y with
  | zero => rfl
  | succ n ih =>
    have hrest := ih (y.step (.pass nanosecond)).2
    rw [List.replicate_succ, Gathering.run, List.foldl_cons]
    refine hrest.trans ?_
    simp only [Gathering.step, nanosecond, Nat.add_assoc, Nat.add_comm 1]

/-- What happens next, after what has happened so far. -/
theorem Mirrored.next (h : Mirrored i y c guests)
    (hnext : ∀ y seats, Hosts i y c guests seats → Mirrored i y c' rest) : Mirrored i y c' rest := by
  obtain ⟨moves, seats, h⟩ := h
  obtain ⟨more, seats', h'⟩ := hnext _ _ h
  refine ⟨moves ++ more, seats', ?_⟩
  rwa [Gathering.run, List.foldl_append]

theorem Mirrored.of_perm (h : Mirrored i y c guests) (hperm : guests.Perm rest) :
    Mirrored i y c rest := by
  obtain ⟨moves, seats, h⟩ := h
  exact ⟨moves, seats, { h with guests := h.guests.trans hperm }⟩

namespace Hosts

theorem mirrored (h : Hosts i y c guests seats) : Mirrored i y c guests := ⟨[], seats, h⟩

theorem quiet (h : Hosts i y c guests seats) (hnow : c'.world.now = c.world.now)
    (hregistry : c'.world.registry i = c.world.registry i) (hroles : (c.roles i).Perm (c'.roles i)) :
    Mirrored i y c' guests := by
  refine ⟨[], seats, ?_⟩
  exact
    { h with
      now := h.now.trans hnow.symm
      registry := h.registry.trans hregistry.symm
      roles := h.roles.trans hroles }

theorem join (h : Hosts i y ⟨hs, w⟩ guests seats) {name : String} (hnow : w'.now = w.now)
    (hregistry : w'.registry i = (w.registry i).join name) :
    Mirrored i y ⟨hs, w'⟩ (name :: guests) := by
  refine ⟨[.join name], seats, ?_⟩
  exact
    { h with
      now := h.now.trans hnow.symm
      registry := (congrArg (Registry.join · name) h.registry).trans hregistry.symm
      guests := h.guests.cons name }

theorem leave (h : Hosts i y ⟨hs, w⟩ guests seats) {name : String}
    (hname : guests.Perm (name :: rest)) (hnow : w'.now = w.now)
    (hregistry : w'.registry i = (w.registry i).leave name) : Mirrored i y ⟨hs, w'⟩ rest := by
  have hguests : y.guests.Perm (name :: rest) := h.guests.trans hname
  have hguest : name ∈ y.guests := hguests.mem_iff.mpr (List.mem_cons_self ..)
  have hrun : y.run [.leave name] =
      { y with registry := y.registry.leave name, guests := y.guests.erase name } := by
    simp only [Gathering.run, List.foldl_cons, List.foldl_nil, Gathering.step, if_pos hguest]
  refine ⟨[.leave name], seats, ?_⟩
  rw [hrun]
  exact
    { h with
      now := h.now.trans hnow.symm
      registry := (congrArg (Registry.leave · name) h.registry).trans hregistry.symm
      guests := by simpa using hguests.erase name }

theorem setUnavailable (h : Hosts i y ⟨hs, w⟩ guests seats) (reason : Option String)
    (hnow : w'.now = w.now)
    (hregistry : w'.registry i = { w.registry i with unavailable := reason }) :
    Mirrored i y ⟨hs, w'⟩ guests := by
  refine ⟨[.setUnavailable reason], seats, ?_⟩
  exact
    { h with
      now := h.now.trans hnow.symm
      registry := by
        rw [hregistry, ← h.registry]
        rfl }

theorem pass (h : Hosts i y ⟨hs, w⟩ guests seats) {t : Instant} (ht : w.now ≤ t) :
    Mirrored i y ⟨hs, { w with now := t }⟩ guests := by
  have hle : w.now.nanos ≤ t.nanos := ht
  refine ⟨List.replicate (t.nanos - w.now.nanos) (.pass nanosecond), seats, ?_⟩
  rw [run_passes]
  exact
    { h with
      now := by
        rw [h.now]
        exact congrArg Instant.mk (Nat.add_sub_cancel' hle) }

/-! ### Deeds -/

/-- A member has done some deeds. -/
theorem deal {k : ℕ} {others : List (ℕ × Gathering.Role)} (old new : Option Gathering.Role)
    (h : Hosts i y c guests (old.toList.map (Prod.mk k) ++ others)) (hk : k ∉ others.map Prod.fst)
    {deeds : List Gathering.Deed} {m : Gathering.Member}
    (hdeal : (y.members k).deal c.world.now deeds (c.world.registry i) = (m, c'.world.registry i))
    (hnew : ∀ role, new = some role → m.role.Shows role) (hnone : new = none → m.role.claim = none)
    (hnow : c'.world.now = c.world.now)
    (hroles : (new.toList ++ others.map Prod.snd).Perm (c'.roles i)) : Mirrored i y c' guests := by
  refine ⟨deeds.map (.act k), new.toList.map (Prod.mk k) ++ others, ?_⟩
  rw [Gathering.run_deal, h.now, h.registry, hdeal]
  refine ⟨hnow.symm, rfl, h.guests, h.seating.update hk hnew hnone, ?_⟩
  cases new with
  | none => exact hroles
  | some role => exact hroles

/-- Whoever has a role has a place. -/
theorem exists_seat (h : Hosts i y ⟨holder :: hs, w⟩ guests seats)
    (hrole : holder.role? i = some role) :
    ∃ k others, Hosts i y ⟨holder :: hs, w⟩ guests ((k, role) :: others) ∧
      (others.map Prod.snd).Perm (hs.filterMap (Holder.role? i)) := by
  have hroles : (seats.map Prod.snd).Perm (role :: hs.filterMap (Holder.role? i)) := by
    have hall := h.roles
    rwa [Company.roles, List.filterMap_cons_some hrole] at hall
  obtain ⟨k, others, hperm⟩ := Company.exists_seat hroles
  have hseats := (hperm.map Prod.snd).symm
  exact ⟨k, others, { h with seating := h.seating.of_perm hperm, roles := hseats.trans h.roles },
    (List.perm_cons _).mp (hseats.trans hroles)⟩

/-- Somebody on the registry does something. -/
theorem act (h : Hosts i y ⟨holder :: hs, w⟩ guests seats) (hrole : holder.role? i = some role)
    (hrole' : holder'.role? i = some role') (hnow : w'.now = w.now)
    (hdeal : ∀ m : Gathering.Member, m.role.Shows role →
      ∃ deeds m', m.deal w.now deeds (w.registry i) = (m', w'.registry i) ∧ m'.role.Shows role') :
    Mirrored i y ⟨holder' :: hs, w'⟩ guests := by
  obtain ⟨k, others, h, hothers⟩ := h.exists_seat hrole
  obtain ⟨deeds, m', hdeal, hshows⟩ := hdeal _ (h.seating.seated _ (List.mem_cons_self ..))
  have hk : k ∉ others.map Prod.fst := (List.nodup_cons.mp h.seating.nodup).1
  have hnew : ∀ role, some role' = some role → m'.role.Shows role := by
    rintro _ ⟨⟩
    exact hshows
  refine deal (some role) (some role') h hk hdeal hnew nofun hnow ?_
  rw [Company.roles, List.filterMap_cons_some hrole']
  exact hothers.cons role'

/-- Somebody on the registry leaves it for good. -/
theorem quit (h : Hosts i y ⟨holder :: hs, w⟩ guests seats) (hrole : holder.role? i = some role)
    (hroles : hs'.filterMap (Holder.role? i) = hs.filterMap (Holder.role? i)) (hnow : w'.now = w.now)
    (hdeal : ∀ m : Gathering.Member, m.role.Shows role →
      ∃ deeds m', m.deal w.now deeds (w.registry i) = (m', w'.registry i) ∧ m'.role.claim = none) :
    Mirrored i y ⟨hs', w'⟩ guests := by
  obtain ⟨k, others, h, hothers⟩ := h.exists_seat hrole
  obtain ⟨deeds, m', hdeal, hclaim⟩ := hdeal _ (h.seating.seated _ (List.mem_cons_self ..))
  have hk : k ∉ others.map Prod.fst := (List.nodup_cons.mp h.seating.nodup).1
  refine deal (some role) none h hk hdeal nofun (fun _ => hclaim) hnow ?_
  rw [Company.roles, hroles]
  exact hothers

/-- Somebody comes to the registry. -/
theorem come (h : Hosts i y ⟨hs, w⟩ guests seats) (hrole : holder.role? i = some role)
    (hnow : w'.now = w.now)
    (hdeal : ∃ deeds m',
      Gathering.Member.unknown.deal w.now deeds (w.registry i) = (m', w'.registry i) ∧
        m'.role.Shows role) :
    Mirrored i y ⟨holder :: hs, w'⟩ guests := by
  obtain ⟨n, hlt, hunknown⟩ := h.seating.unknown
  obtain ⟨deeds, m', hdeal, hshows⟩ := hdeal
  rw [← hunknown n (Nat.le_refl n)] at hdeal
  have hn : n ∉ seats.map Prod.fst := by
    intro hmem
    obtain ⟨seat, hseat, rfl⟩ := List.mem_map.mp hmem
    exact Nat.lt_irrefl _ (hlt seat hseat)
  have hnew : ∀ role', some role = some role' → m'.role.Shows role' := by
    rintro _ ⟨⟩
    exact hshows
  refine deal none (some role) h hn hdeal hnew nofun hnow ?_
  rw [Company.roles, List.filterMap_cons_some hrole]
  exact h.roles.cons role

end Hosts

end Moves

end Scenario

end RollCall
