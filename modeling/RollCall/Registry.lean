import RollCall.NameSet

/-!
# Registries

A registry shows which participants are present. Several participants may share a name; the name
is visible until the last of them has left. Handles register under a name of their own, are
counted when they are created and when they are destroyed, and may be refused while the registry
is unavailable.

Main statements: `count_join` and `count_leave` (only the one name is touched).
-/

namespace RollCall

/-- How many handles have been created and destroyed. -/
structure Tally where
  created : Nat := 0
  destroyed : Nat := 0
  deriving DecidableEq

namespace Tally

/-- The number of handles that have not been destroyed; none when more have been destroyed than
created. -/
def live? (t : Tally) : Option Nat :=
  if t.destroyed ≤ t.created then some (t.created - t.destroyed) else none

end Tally

/-- The participants that are present. -/
structure Registry where
  /-- The names in increasing order, each with how many participants bear it. -/
  counts : List (String × Nat) := []
  sorted : (counts.map Prod.fst).Pairwise (· < ·) := by exact NameSet.sorted_nil
  tally : Tally := {}
  unavailable : Option String := none
  deriving DecidableEq

namespace Registry

def empty : Registry := {}

instance : Inhabited Registry := ⟨empty⟩

def increment (name : String) : List (String × Nat) → List (String × Nat)
  | [] => [(name, 1)]
  | (other, n) :: rest =>
    if name < other then (name, 1) :: (other, n) :: rest
    else if name = other then (other, n + 1) :: rest
    else (other, n) :: increment name rest

/-- One participant less under a name; the last one takes the name away. -/
def decrement (name : String) : List (String × Nat) → List (String × Nat)
  | [] => []
  | (other, n) :: rest =>
    if name = other then (if n ≤ 1 then rest else (other, n - 1) :: rest)
    else (other, n) :: decrement name rest

theorem map_fst_increment (name : String) (counts : List (String × Nat)) :
    (increment name counts).map Prod.fst = NameSet.place name (counts.map Prod.fst) := by
  induction counts with
  | nil => rfl
  | cons entry rest ih =>
      obtain ⟨other, n⟩ := entry
      simp only [increment, NameSet.place, List.map_cons]
      split
      · rfl
      · split
        · rfl
        · simp [ih]

theorem map_fst_decrement (name : String) (counts : List (String × Nat)) :
    ((decrement name counts).map Prod.fst).Sublist (counts.map Prod.fst) := by
  induction counts with
  | nil => exact List.Sublist.refl _
  | cons entry rest ih =>
      obtain ⟨other, n⟩ := entry
      simp only [decrement, List.map_cons]
      split
      · split
        · exact List.sublist_cons_self _ _
        · exact List.Sublist.refl _
      · simpa using ih

def join (r : Registry) (name : String) : Registry :=
  { r with
    counts := increment name r.counts
    sorted := by
      rw [map_fst_increment]
      exact NameSet.place_sorted r.sorted }

def leave (r : Registry) (name : String) : Registry :=
  { r with
    counts := decrement name r.counts
    sorted := r.sorted.sublist (map_fst_decrement name r.counts) }

def names (r : Registry) : NameSet := ⟨r.counts.map Prod.fst, r.sorted⟩

def countIn (name : String) (counts : List (String × Nat)) : Nat := (counts.lookup name).getD 0

def count (r : Registry) (name : String) : Nat := countIn name r.counts

theorem countIn_increment (name other : String) {counts : List (String × Nat)}
    (h : (counts.map Prod.fst).Pairwise (· < ·)) :
    countIn other (increment name counts) =
      countIn other counts + if other = name then 1 else 0 := by
  induction counts with
  | nil =>
      by_cases hn : other = name
      · simp [increment, countIn, hn]
      · simp [increment, countIn, hn, List.lookup_cons, beq_eq_false_iff_ne.mpr hn]
  | cons entry rest ih =>
      obtain ⟨first, n⟩ := entry
      obtain ⟨hlt, hrest⟩ := List.pairwise_cons.mp h
      have ih := ih hrest
      simp only [increment]
      split
      · rename_i hnf
        by_cases hn : other = name
        · subst hn
          have hne : other ≠ first := String.ne_of_lt hnf
          have hnone : rest.lookup other = none := by
            rw [List.lookup_eq_none_iff]
            intro p hp
            have := hlt p.1 (List.mem_map_of_mem hp)
            simp only [bne_iff_ne, ne_eq]
            exact String.ne_of_lt (String.lt_trans hnf this)
          simp [countIn, List.lookup_cons, beq_eq_false_iff_ne.mpr hne, hnone]
        · simp [countIn, List.lookup_cons, beq_eq_false_iff_ne.mpr hn, hn]
      · split
        · rename_i hEq
          subst hEq
          by_cases hn : other = name
          · simp [countIn, hn]
          · simp [countIn, List.lookup_cons, beq_eq_false_iff_ne.mpr hn, hn]
        · rename_i hne
          by_cases hof : other = first
          · subst hof
            have hon : other ≠ name := fun e => hne e.symm
            simp [countIn, hon]
          · simpa [countIn, List.lookup_cons, beq_eq_false_iff_ne.mpr hof] using ih

theorem countIn_decrement (name other : String) {counts : List (String × Nat)}
    (h : (counts.map Prod.fst).Pairwise (· < ·)) :
    countIn other (decrement name counts) =
      countIn other counts - if other = name then 1 else 0 := by
  induction counts with
  | nil => simp [decrement, countIn]
  | cons entry rest ih =>
      obtain ⟨first, n⟩ := entry
      obtain ⟨hlt, hrest⟩ := List.pairwise_cons.mp h
      have ih := ih hrest
      simp only [decrement]
      split
      · rename_i hnf
        subst hnf
        have hnone : rest.lookup name = none := by
          rw [List.lookup_eq_none_iff]
          intro p hp
          have := hlt p.1 (List.mem_map_of_mem hp)
          simp only [bne_iff_ne, ne_eq]
          exact String.ne_of_lt this
        by_cases hn : other = name
        · subst hn
          split
          · rename_i hle
            simp only [countIn, hnone, List.lookup_cons, BEq.rfl, Option.getD_none,
              Option.getD_some, if_true]
            omega
          · simp [countIn]
        · split
          · simp [countIn, List.lookup_cons, beq_eq_false_iff_ne.mpr hn]
          · simp [countIn, List.lookup_cons, beq_eq_false_iff_ne.mpr hn]
      · rename_i hne
        by_cases hof : other = first
        · subst hof
          have hon : other ≠ name := fun e => hne e.symm
          simp [countIn, hon]
        · simpa [countIn, List.lookup_cons, beq_eq_false_iff_ne.mpr hof] using ih

/-- Joining adds one to the count of the name and leaves the others as they are. -/
theorem count_join (r : Registry) (name other : String) :
    (r.join name).count other = r.count other + if other = name then 1 else 0 :=
  countIn_increment name other r.sorted

/-- Leaving takes one from the count of the name and leaves the others as they are. -/
theorem count_leave (r : Registry) (name other : String) :
    (r.leave name).count other = r.count other - if other = name then 1 else 0 :=
  countIn_decrement name other r.sorted

end Registry

/-- A handle's registration under a name, as long as it has not been taken back. -/
structure Registration where
  name : String
  live : Bool
  deriving DecidableEq

namespace Registration

/-- A new registration under a name, or the reason why there is none. -/
def create (name : String) (r : Registry) : Except String (Registration × Registry) :=
  match r.unavailable with
  | some reason => .error reason
  | none =>
    let joined := r.join name
    .ok (⟨name, true⟩, { joined with tally.created := joined.tally.created + 1 })

/-- Takes a live registration back and counts that; nothing else has any effect. -/
def destroy (g : Registration) (r : Registry) : Registration × Registry :=
  if g.live then
    let left := r.leave g.name
    ({ g with live := false }, { left with tally.destroyed := left.tally.destroyed + 1 })
  else (g, r)

/-- Gives a registration up without destroying it: the name leaves, and nothing is counted. -/
def drop (g : Registration) (r : Registry) : Registry := if g.live then r.leave g.name else r

end Registration

end RollCall
