/-!
# Sets of names

A `NameSet` is a strictly increasing list of names, in the order of their code points, so a set
has one form and equality of sets is equality of lists. Every operation is stated through
membership: `mem_insert`, `mem_erase`, `mem_diff`, `mem_ofList`, `subset_def`.
-/

namespace RollCall

/-- A finite set of names, listed in increasing order. -/
structure NameSet where
  toList : List String
  sorted : toList.Pairwise (· < ·)
  deriving DecidableEq

namespace NameSet

instance : Membership String NameSet := ⟨fun s x => x ∈ s.toList⟩

instance (x : String) (s : NameSet) : Decidable (x ∈ s) :=
  inferInstanceAs (Decidable (x ∈ s.toList))

theorem mem_def {x : String} {s : NameSet} : x ∈ s ↔ x ∈ s.toList := Iff.rfl

theorem sorted_nil : ([] : List String).Pairwise (· < ·) := List.Pairwise.nil

def empty : NameSet := ⟨[], sorted_nil⟩

instance : EmptyCollection NameSet := ⟨empty⟩

instance : Inhabited NameSet := ⟨empty⟩

@[simp] theorem not_mem_empty (x : String) : x ∉ (∅ : NameSet) := List.not_mem_nil

/-- Puts a name into its place among increasing names, unless it is there already. -/
def place (x : String) : List String → List String
  | [] => [x]
  | y :: ys => if x < y then x :: y :: ys else if x = y then y :: ys else y :: place x ys

theorem mem_place {x y : String} {ys : List String} : y ∈ place x ys ↔ y = x ∨ y ∈ ys := by
  induction ys with
  | nil => simp [place]
  | cons z zs ih =>
      rw [place]
      split
      · simp
      · split
        · rename_i h
          subst h
          simp
        · simp [ih, or_left_comm]

theorem place_sorted {x : String} {ys : List String} (h : ys.Pairwise (· < ·)) :
    (place x ys).Pairwise (· < ·) := by
  induction ys with
  | nil => simp [place]
  | cons z zs ih =>
      obtain ⟨hz, hzs⟩ := List.pairwise_cons.mp h
      rw [place]
      split
      · rename_i hxz
        refine List.pairwise_cons.mpr ⟨fun y hy => ?_, h⟩
        rcases List.mem_cons.mp hy with rfl | hy
        · exact hxz
        · exact String.lt_trans hxz (hz y hy)
      · split
        · exact h
        · rename_i hxz hne
          have hzx : z < x := by
            rcases String.le_total x z with hle | hle
            · exact absurd (String.le_antisymm hle (String.not_lt.mp hxz)) hne
            · exact String.not_le.mp fun hxz' => hne (String.le_antisymm hxz' hle)
          refine List.pairwise_cons.mpr ⟨fun y hy => ?_, ih hzs⟩
          rcases mem_place.mp hy with rfl | hy
          · exact hzx
          · exact hz y hy

def insert (x : String) (s : NameSet) : NameSet := ⟨place x s.toList, place_sorted s.sorted⟩

@[simp] theorem mem_insert {x y : String} {s : NameSet} : y ∈ s.insert x ↔ y = x ∨ y ∈ s :=
  mem_place

/-- The set of the names of a list, whatever their order and however often they occur. -/
def ofList : List String → NameSet
  | [] => ∅
  | x :: xs => (ofList xs).insert x

@[simp] theorem mem_ofList {x : String} {xs : List String} : x ∈ ofList xs ↔ x ∈ xs := by
  induction xs with
  | nil => simp [ofList]
  | cons y ys ih => simp [ofList, ih]

def filter (p : String → Bool) (s : NameSet) : NameSet := ⟨s.toList.filter p, s.sorted.filter p⟩

@[simp] theorem mem_filter {p : String → Bool} {x : String} {s : NameSet} :
    x ∈ s.filter p ↔ x ∈ s ∧ p x = true :=
  List.mem_filter

def erase (s : NameSet) (x : String) : NameSet := s.filter (· != x)

@[simp] theorem mem_erase {x y : String} {s : NameSet} : y ∈ s.erase x ↔ y ∈ s ∧ y ≠ x := by
  simp [erase]

/-- The members of the first set that the second lacks. -/
def diff (s t : NameSet) : NameSet := s.filter fun x => !decide (x ∈ t)

@[simp] theorem mem_diff {x : String} {s t : NameSet} : x ∈ s.diff t ↔ x ∈ s ∧ x ∉ t := by
  simp [diff]

def size (s : NameSet) : Nat := s.toList.length

def common (s t : NameSet) : Nat := s.toList.countP fun x => decide (x ∈ t)

instance : HasSubset NameSet := ⟨fun s t => ∀ x ∈ s, x ∈ t⟩

theorem subset_def {s t : NameSet} : s ⊆ t ↔ ∀ x ∈ s, x ∈ t := Iff.rfl

instance (s t : NameSet) : Decidable (s ⊆ t) :=
  decidable_of_iff (∀ x ∈ s.toList, x ∈ t) Iff.rfl

theorem ext {s t : NameSet} (h : ∀ x, x ∈ s ↔ x ∈ t) : s = t := by
  obtain ⟨xs, hxs⟩ := s
  obtain ⟨ys, hys⟩ := t
  congr
  induction xs generalizing ys with
  | nil =>
      refine (List.eq_nil_iff_forall_not_mem.mpr fun y hy => ?_).symm
      exact List.not_mem_nil ((h y).mpr hy)
  | cons x xs ih =>
      cases ys with
      | nil => exact absurd ((h x).mp List.mem_cons_self) List.not_mem_nil
      | cons y ys =>
          obtain ⟨hx, hxs'⟩ := List.pairwise_cons.mp hxs
          obtain ⟨hy, hys'⟩ := List.pairwise_cons.mp hys
          have hxy : x = y := by
            rcases List.mem_cons.mp ((h x).mp List.mem_cons_self) with hEq | hxIn
            · exact hEq
            · rcases List.mem_cons.mp ((h y).mpr List.mem_cons_self) with hEq | hyIn
              · exact hEq.symm
              · exact absurd (hx y hyIn) (String.lt_asymm (hy x hxIn))
          subst hxy
          congr
          refine ih hxs' ys hys' fun z => ?_
          have hz := h z
          simp only [mem_def, List.mem_cons] at hz
          constructor
          · intro hzx
            rcases hz.mp (Or.inr hzx) with rfl | hzy
            · exact absurd (hx z hzx) (String.lt_irrefl z)
            · exact hzy
          · intro hzy
            rcases hz.mpr (Or.inr hzy) with rfl | hzx
            · exact absurd (hy z hzy) (String.lt_irrefl z)
            · exact hzx

end NameSet

end RollCall
