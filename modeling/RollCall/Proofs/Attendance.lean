import Mathlib.Algebra.BigOperators.Group.Finset.Piecewise
import Mathlib.Algebra.Order.BigOperators.Group.Finset
import RollCall.Proofs.Gathering

/-!
# Attendance

Whatever the guests and the members of a registry do, and under whatever names, the registry
counts for each name the guests that are there and the members whose registration has not been
taken back. It never keeps a count of zero, so it shows exactly the names that somebody bears, and
a count that goes down is always there to go down. Handles are tallied when they are created and
when they are destroyed for the first time.

The invariant is `Attended`. One move keeps it because the registrations of all members but one
stay as they are, and `Member.act_effect` says what becomes of that one.
-/

namespace RollCall

/-! ## Counts -/

namespace Registry

variable {counts : List (String × ℕ)}

theorem pos_increment (hpos : ∀ entry ∈ counts, 0 < entry.2) (name : String) :
    ∀ entry ∈ increment name counts, 0 < entry.2 := by
  induction counts with
  | nil => simp [increment]
  | cons first rest ih =>
    obtain ⟨hfirst, hrest⟩ := List.forall_mem_cons.mp hpos
    simp only [increment]
    split
    · exact List.forall_mem_cons.mpr ⟨Nat.one_pos, hpos⟩
    · split
      · exact List.forall_mem_cons.mpr ⟨Nat.succ_pos _, hrest⟩
      · exact List.forall_mem_cons.mpr ⟨hfirst, ih hrest⟩

theorem pos_decrement (hpos : ∀ entry ∈ counts, 0 < entry.2) (name : String) :
    ∀ entry ∈ decrement name counts, 0 < entry.2 := by
  induction counts with
  | nil => simp [decrement]
  | cons first rest ih =>
    obtain ⟨hfirst, hrest⟩ := List.forall_mem_cons.mp hpos
    simp only [decrement]
    split
    · split
      · exact hrest
      · rename_i hone
        refine List.forall_mem_cons.mpr ⟨?_, hrest⟩
        omega
    · exact List.forall_mem_cons.mpr ⟨hfirst, ih hrest⟩

theorem mem_counts {r : Registry} {name : String} {k : ℕ} (hcount : r.count name = k + 1) :
    (name, k + 1) ∈ r.counts := by
  simp only [count, countIn] at hcount
  cases hlookup : r.counts.lookup name with
  | none => simp [hlookup] at hcount
  | some n =>
    obtain rfl : n = k + 1 := by simpa [hlookup] using hcount
    obtain ⟨before, after, hcounts, -⟩ := List.lookup_eq_some_iff.mp hlookup
    simp [hcounts]

/-- Where no count is zero, the names that are shown are those that are counted. -/
theorem mem_names_iff {r : Registry} (hpos : ∀ entry ∈ r.counts, 0 < entry.2) (name : String) :
    name ∈ r.names ↔ 1 ≤ r.count name := by
  constructor
  · intro hname
    obtain ⟨entry, hentry, rfl⟩ := List.mem_map.mp hname
    cases hlookup : r.counts.lookup entry.1 with
    | none => simpa using List.lookup_eq_none_iff.mp hlookup entry hentry
    | some n =>
      obtain ⟨before, after, hcounts, -⟩ := List.lookup_eq_some_iff.mp hlookup
      have hn : 0 < n := hpos (entry.1, n) (by simp [hcounts])
      simp only [count, countIn, hlookup, Option.getD_some]
      exact hn
  · intro hcount
    obtain ⟨k, hk⟩ := Nat.exists_eq_add_of_le' hcount
    exact List.mem_map.mpr ⟨_, mem_counts hk, rfl⟩

end Registry

namespace Gathering

/-! ## Who is there -/

/-- The members that have a live registration under a name. -/
def bearers (s : Finset ℕ) (members : ℕ → Member) (name : String) : ℕ :=
  (s.filter fun i => (members i).role.claim = some name).card

def creations (s : Finset ℕ) (members : ℕ → Member) : ℕ :=
  ∑ i ∈ s, (members i).trace.count .created

def destructions (s : Finset ℕ) (members : ℕ → Member) : ℕ :=
  (s.filter fun i => .released ∈ (members i).trace).card

def Move.number? : Move → Option ℕ
  | .act i _ => some i
  | _ => none

theorem Move.number?_eq_some {move : Move} {i : ℕ} (hmove : move.number? = some i) :
    ∃ deed, move = .act i deed := by
  cases move with
  | act j deed =>
    cases hmove
    exact ⟨deed, rfl⟩
  | _ => cases hmove

def numbers (moves : List Move) : Finset ℕ := (moves.filterMap Move.number?).toFinset

/-- The name under which a move takes somebody away. -/
def departing (y : Gathering) : Move → Option String
  | .leave name => if name ∈ y.guests then some name else none
  | .act i deed => (y.members i).takenBack deed
  | _ => none

section Update

variable {s : Finset ℕ} {i : ℕ} (hi : i ∈ s) (members : ℕ → Member) (m : Member)
include hi

theorem sum_update_member (weight : Member → ℕ) :
    ∑ j ∈ s, weight (Function.update members i m j) + weight (members i) =
      ∑ j ∈ s, weight (members j) + weight m := by
  have hothers : ∑ j ∈ s.erase i, weight (Function.update members i m j) =
      ∑ j ∈ s.erase i, weight (members j) := by
    refine Finset.sum_congr rfl fun j hj => ?_
    rw [Function.update_of_ne (Finset.ne_of_mem_erase hj)]
  rw [← Finset.add_sum_erase s _ hi, ← Finset.add_sum_erase s (fun j => weight (members j)) hi,
    hothers, Function.update_self]
  omega

theorem bearers_update (name : String) :
    bearers s (Function.update members i m) name +
        (if (members i).role.claim = some name then 1 else 0) =
      bearers s members name + if m.role.claim = some name then 1 else 0 := by
  simp only [bearers, Finset.card_filter]
  exact sum_update_member hi members m fun m => if m.role.claim = some name then 1 else 0

/-- One more bears a name when it is registered for a member. -/
theorem bearers_came {name : String} (hbefore : (members i).role.claim = none)
    (hclaim : m.role.claim = some name) (other : String) :
    bearers s (Function.update members i m) other =
      bearers s members other + if other = name then 1 else 0 := by
  have hother := bearers_update hi members m other
  simpa [hbefore, hclaim, eq_comm] using hother

/-- One less bears a name when its registration is taken back from a member. -/
theorem bearers_gone {name : String} (hbefore : (members i).role.claim = some name)
    (hclaim : m.role.claim = none) (other : String) :
    bearers s members other =
      bearers s (Function.update members i m) other + if other = name then 1 else 0 := by
  have hother := bearers_update hi members m other
  simpa [hbefore, hclaim, eq_comm] using hother

theorem creations_update :
    creations s (Function.update members i m) + (members i).trace.count .created =
      creations s members + m.trace.count .created :=
  sum_update_member hi members m fun m => m.trace.count Happening.created

theorem destructions_update :
    destructions s (Function.update members i m) +
        (if .released ∈ (members i).trace then 1 else 0) =
      destructions s members + if .released ∈ m.trace then 1 else 0 := by
  simp only [destructions, Finset.card_filter]
  exact sum_update_member hi members m fun m => if .released ∈ m.trace then 1 else 0

end Update

/-! ## The invariant -/

/-- All who are there are counted, and nobody else. -/
structure Attended (s : Finset ℕ) (y : Gathering) : Prop where
  sound : ∀ i, (y.members i).Sound
  absent : ∀ i ∉ s, y.members i = Member.unknown
  count : ∀ name, y.registry.count name = y.guests.count name + bearers s y.members name
  pos : ∀ entry ∈ y.registry.counts, 0 < entry.2
  created : y.registry.tally.created = creations s y.members
  destroyed : y.registry.tally.destroyed = destructions s y.members

theorem attended_start (now : Instant) (s : Finset ℕ) : Attended s (start now Registry.empty) where
  sound _ := .absent
  absent _ _ := rfl
  count name := by simp [start, Registry.empty, Registry.count, Registry.countIn, bearers,
    Member.unknown, Role.claim]
  pos := by simp [start, Registry.empty]
  created := by simp [start, Registry.empty, creations, Member.unknown]
  destroyed := by simp [start, Registry.empty, destructions, Member.unknown]

namespace Attended

variable {s : Finset ℕ} {y : Gathering}

/-- A registration that is taken back has been counted. -/
theorem one_le_count (hy : Attended s y) {i : ℕ} {name : String}
    (hclaim : (y.members i).role.claim = some name) : 1 ≤ y.registry.count name := by
  have hi : i ∈ s := by
    by_contra hi
    rw [hy.absent i hi] at hclaim
    cases hclaim
  have hbearer : 0 < bearers s y.members name :=
    Finset.card_pos.mpr ⟨i, Finset.mem_filter.mpr ⟨hi, hclaim⟩⟩
  have hcount := hy.count name
  omega

/-- A member whose registration is taken back is counted no longer. -/
theorem count_gone (hy : Attended s y) {i : ℕ} (hi : i ∈ s) {m : Member} {name : String}
    (hbefore : (y.members i).role.claim = some name) (hclaim : m.role.claim = none)
    (other : String) :
    (y.registry.leave name).count other =
      y.guests.count other + bearers s (Function.update y.members i m) other := by
  rw [Registry.count_leave, hy.count other, bearers_gone hi y.members m hbefore hclaim other]
  omega

/-- A deed that has its effect on one member keeps the attendance right. -/
theorem after_effect (hy : Attended s y) {i : ℕ} (hi : i ∈ s) {deed : Deed} {m : Member}
    {g : Registry} {taken : Option String}
    (heffect : Member.Effect deed (y.members i) m y.registry g taken) (hsound : m.Sound) :
    Attended s { y with registry := g, members := Function.update y.members i m } := by
  have hcreations := creations_update hi y.members m
  have hdestructions := destructions_update hi y.members m
  have hcreated := hy.created
  have hdestroyed := hy.destroyed
  have hsound' (j : ℕ) : (Function.update y.members i m j).Sound := by
    by_cases hj : j = i
    · subst hj
      simpa using hsound
    · simpa [hj] using hy.sound j
  have habsent (j : ℕ) (hj : j ∉ s) : Function.update y.members i m j = Member.unknown := by
    have hne : j ≠ i := fun h => hj (h ▸ hi)
    simpa [hne] using hy.absent j hj
  cases heffect with
  | still hregistry hclaim hmade hreleased =>
    subst hregistry
    simp only [hmade, hreleased, Nat.add_right_cancel_iff] at hcreations hdestructions
    refine ⟨hsound', habsent, fun name => ?_, hy.pos, ?_, ?_⟩
    · have hbearers := bearers_update hi y.members m name
      rw [hclaim, Nat.add_right_cancel_iff] at hbearers
      exact (hy.count name).trans (by rw [hbearers])
    · exact hcreated.trans hcreations.symm
    · exact hdestroyed.trans hdestructions.symm
  | came name hname havailable hregistry hbefore hclaim hmade hreleased =>
    subst hregistry
    simp only [hmade, hreleased, Nat.add_right_cancel_iff] at hcreations hdestructions
    refine ⟨hsound', habsent, fun other => ?_, Registry.pos_increment hy.pos name, ?_, ?_⟩
    · have hcount := Registry.count_join y.registry name other
      rw [hy.count other, Nat.add_assoc] at hcount
      rw [bearers_came hi y.members m hbefore hclaim other]
      exact hcount
    · dsimp only
      omega
    · exact hdestroyed.trans hdestructions.symm
  | destroyed name hregistry hbefore hclaim hmade hheld hreleased =>
    subst hregistry
    simp only [hmade, Nat.add_right_cancel_iff] at hcreations
    simp only [hheld, hreleased, if_true, if_false] at hdestructions
    refine ⟨hsound', habsent, hy.count_gone hi hbefore hclaim, Registry.pos_decrement hy.pos name,
      ?_, ?_⟩
    · exact hcreated.trans hcreations.symm
    · have htally : (y.registry.leave name).tally.destroyed = destructions s y.members := hdestroyed
      dsimp only
      omega
  | left name hregistry hbefore hclaim hmade hreleased =>
    subst hregistry
    simp only [hmade, hreleased, Nat.add_right_cancel_iff] at hcreations hdestructions
    refine ⟨hsound', habsent, hy.count_gone hi hbefore hclaim, Registry.pos_decrement hy.pos name,
      ?_, ?_⟩
    · exact hcreated.trans hcreations.symm
    · exact hdestroyed.trans hdestructions.symm

/-- Every move keeps the attendance right. -/
theorem step (hy : Attended s y) {move : Move} (hmove : ∀ i, move.number? = some i → i ∈ s) :
    Attended s (y.step move).2 := by
  cases move with
  | pass time => exact ⟨hy.sound, hy.absent, hy.count, hy.pos, hy.created, hy.destroyed⟩
  | join name =>
    refine ⟨hy.sound, hy.absent, fun other => ?_, Registry.pos_increment hy.pos name, hy.created,
      hy.destroyed⟩
    have hjoin := Registry.count_join y.registry name other
    have hcount := hy.count other
    simp only [Gathering.step, List.count_cons, beq_iff_eq, eq_comm (a := name)]
    omega
  | leave name =>
    simp only [Gathering.step]
    split
    · rename_i hguest
      refine ⟨hy.sound, hy.absent, fun other => ?_, Registry.pos_decrement hy.pos name, hy.created,
        hy.destroyed⟩
      have hleave := Registry.count_leave y.registry name other
      have hcount := hy.count other
      have hguests : 0 < y.guests.count name := List.count_pos_iff.mpr hguest
      simp only [List.count_erase, beq_iff_eq, eq_comm (a := name)]
      split at hleave
      · rename_i hother
        subst hother
        simp only [if_true]
        omega
      · rename_i hother
        simp only [hother, if_false]
        omega
    · exact hy
  | setUnavailable reason =>
    exact ⟨hy.sound, hy.absent, hy.count, hy.pos, hy.created, hy.destroyed⟩
  | act i deed =>
    obtain ⟨heffect, hsound⟩ := Member.act_effect (hy.sound i) y.now deed y.registry
    exact hy.after_effect (hmove i rfl) heffect hsound

theorem run {moves : List Move} (hmoves : ∀ move ∈ moves, ∀ i, move.number? = some i → i ∈ s)
    (hy : Attended s y) : Attended s (y.run moves) := by
  induction moves generalizing y with
  | nil => exact hy
  | cons move moves ih =>
    obtain ⟨hmove, hrest⟩ := List.forall_mem_cons.mp hmoves
    exact ih hrest (hy.step hmove)

theorem of_perm (hy : Attended s y) {guests : List String} (hperm : guests.Perm y.guests) :
    Attended s { y with guests } where
  sound := hy.sound
  absent := hy.absent
  count name := by rw [hperm.count_eq, hy.count]
  pos := hy.pos
  created := hy.created
  destroyed := hy.destroyed

theorem join (hy : Attended s y) (name : String) :
    Attended s { y with registry := y.registry.join name, guests := name :: y.guests } := by
  have hjoined : Attended s (y.step (.join name)).2 := hy.step fun _ hi => nomatch hi
  exact hjoined

theorem leave (hy : Attended s y) {name : String} (hguest : name ∈ y.guests) :
    Attended s { y with registry := y.registry.leave name, guests := y.guests.erase name } := by
  have hleft : Attended s (y.step (.leave name)).2 := hy.step fun _ hi => nomatch hi
  rwa [Gathering.step, if_pos hguest] at hleft

/-- Whoever a move takes away is counted until then, so the count goes down from at least one. -/
theorem departing_counted (hy : Attended s y) {move : Move} {name : String}
    (hdeparting : y.departing move = some name) :
    ∃ k, (name, k + 1) ∈ y.registry.counts ∧
      (y.step move).2.registry.counts = Registry.decrement name y.registry.counts := by
  have hcounted (hcount : 1 ≤ y.registry.count name) : ∃ k, (name, k + 1) ∈ y.registry.counts := by
    obtain ⟨k, hk⟩ := Nat.exists_eq_add_of_le' hcount
    exact ⟨k, Registry.mem_counts hk⟩
  cases move with
  | pass time => cases hdeparting
  | join other => cases hdeparting
  | setUnavailable reason => cases hdeparting
  | leave other =>
    simp only [departing] at hdeparting
    split at hdeparting
    · rename_i hguest
      cases hdeparting
      have hguests : 0 < y.guests.count name := List.count_pos_iff.mpr hguest
      have hcount := hy.count name
      obtain ⟨k, hk⟩ := hcounted (by omega)
      exact ⟨k, hk, by simp [Gathering.step, hguest, Registry.leave]⟩
    · cases hdeparting
  | act i deed =>
    obtain ⟨heffect, -⟩ := Member.act_effect (hy.sound i) y.now deed y.registry
    obtain ⟨hclaim, hcounts⟩ := heffect.counts_of_some hdeparting
    obtain ⟨k, hk⟩ := hcounted (hy.one_le_count hclaim)
    exact ⟨k, hk, hcounts⟩

theorem departing_none (hy : Attended s y) {move : Move} (hdeparting : y.departing move = none) :
    (y.step move).2.registry.counts = y.registry.counts ∨
      ∃ name, (y.step move).2.registry.counts = Registry.increment name y.registry.counts := by
  cases move with
  | pass time => exact Or.inl rfl
  | join name => exact Or.inr ⟨name, rfl⟩
  | setUnavailable reason => exact Or.inl rfl
  | leave name =>
    simp only [departing] at hdeparting
    split at hdeparting
    · cases hdeparting
    · rename_i hguest
      exact Or.inl (by simp [Gathering.step, hguest])
  | act i deed =>
    obtain ⟨heffect, -⟩ := Member.act_effect (hy.sound i) y.now deed y.registry
    exact heffect.counts_of_none hdeparting

/-- No more handles have been destroyed than created. -/
theorem destructions_le (hy : Attended s y) :
    destructions s y.members ≤ creations s y.members := by
  simp only [destructions, creations, Finset.card_filter]
  refine Finset.sum_le_sum fun i _ => ?_
  split
  · rename_i hreleased
    exact (hy.sound i).created_of_released hreleased
  · exact Nat.zero_le _

end Attended

/-- While a registry is unavailable, whoever comes is turned away, and nothing else happens. -/
theorem step_unavailable {y : Gathering} {reason : String}
    (hunavailable : y.registry.unavailable = some reason) {i : ℕ}
    (habsent : y.members i = Member.unknown) :
    (∀ identity,
      y.step (.act i (.register identity)) = (.refused (.transport reason), y)) ∧
    ∀ expected settings identity, ∃ cause,
      y.step (.act i (.connect expected settings identity)) = (.refused cause, y) := by
  have hturned (deed : Deed) (cause : WaitFailure)
      (hact : Member.unknown.act y.now deed y.registry = (.refused cause, .unknown, y.registry)) :
      y.step (.act i deed) = (.refused cause, y) := by
    have hupdate : Function.update y.members i Member.unknown = y.members := by
      rw [← habsent, Function.update_eq_self]
    simp only [step, habsent, hact, hupdate]
  constructor
  · intro identity
    apply hturned
    simp only [Member.act, Member.unknown, Role.act, actAbsent, Registry.traced, Transport.noted,
      Registry.transport, Registration.create, hunavailable]
  · intro expected settings identity
    cases hconnect : Session.connect Registry.traced expected settings identity
        ⟨y.registry, []⟩ with
    | ok opened =>
      obtain ⟨havailable, -⟩ := Session.connect_registry hconnect
      cases havailable.symm.trans hunavailable
    | error cause =>
      refine ⟨cause, hturned _ cause ?_⟩
      simp only [Member.act, Member.unknown, Role.act, actAbsent, hconnect]

/-- Whatever is done in whatever order and under whatever names, every name is counted as often as
guests are there and members have a registration under it, a departure takes one from a count that
is there, and the tally of the handles is exact. -/
theorem attendance_exact (now : Instant) (moves : List Move) :
    let y := (start now Registry.empty).run moves
    let s := numbers moves
    let present name := y.guests.count name + bearers s y.members name
    (∀ i ∉ s, y.members i = Member.unknown) ∧
    (∀ name, y.registry.count name = present name) ∧
    (∀ entry ∈ y.registry.counts, 0 < entry.2) ∧
    (∀ name, name ∈ y.registry.names ↔ 1 ≤ present name) ∧
    (∀ move name, y.departing move = some name →
      ∃ k, (name, k + 1) ∈ y.registry.counts ∧
        (y.step move).2.registry.counts = Registry.decrement name y.registry.counts) ∧
    (∀ move, y.departing move = none →
      (y.step move).2.registry.counts = y.registry.counts ∨
        ∃ name, (y.step move).2.registry.counts = Registry.increment name y.registry.counts) ∧
    (∀ i, (y.members i).trace.count .created ≤ 1) ∧
    y.registry.tally = ⟨creations s y.members, destructions s y.members⟩ ∧
    destructions s y.members ≤ creations s y.members ∧
    y.registry.tally.live? = some (creations s y.members - destructions s y.members) ∧
    ∀ reason, y.registry.unavailable = some reason →
      ∀ i, y.members i = Member.unknown →
        (∀ identity,
          y.step (.act i (.register identity)) = (.refused (.transport reason), y)) ∧
        ∀ expected settings identity, ∃ cause,
          y.step (.act i (.connect expected settings identity)) = (.refused cause, y) := by
  intro y s present
  have hnumbers (move : Move) (hmove : move ∈ moves) (i : ℕ) (hi : move.number? = some i) :
      i ∈ s :=
    List.mem_toFinset.mpr (List.mem_filterMap.mpr ⟨move, hmove, hi⟩)
  have hy : Attended s y := (attended_start now s).run hnumbers
  have htally : y.registry.tally = ⟨creations s y.members, destructions s y.members⟩ := by
    rw [← hy.created, ← hy.destroyed]
  refine ⟨hy.absent, hy.count, hy.pos, fun name => ?_, fun _ _ => hy.departing_counted,
    fun _ => hy.departing_none, fun i => (hy.sound i).created_le, htally, hy.destructions_le, ?_,
    fun _ hunavailable _ => step_unavailable hunavailable⟩
  · rw [Registry.mem_names_iff hy.pos, hy.count]
  · simp [htally, Tally.live?, hy.destructions_le]

end Gathering

end RollCall
