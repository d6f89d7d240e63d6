/-!
# Labelled objects

A directory keeps objects under labels, one under each label, in the order in which the labels
were first used.

Main statements: `exists_split`, which says where the object under a label stands among the others
and what becomes of them when it is replaced or removed; `perm_put` and `perm_remove`, which say
what a directory keeps then, in any order.
-/

namespace RollCall

/-- Objects under labels. -/
structure Directory (α : Type) where
  entries : List (String × α) := []
  nodup : (entries.map Prod.fst).Nodup := by exact List.nodup_nil

namespace Directory

variable {α : Type}

def get? (d : Directory α) (label : String) : Option α := d.entries.lookup label

def putEntry (label : String) (x : α) : List (String × α) → List (String × α)
  | [] => [(label, x)]
  | (other, y) :: rest =>
    if label == other then (label, x) :: rest else (other, y) :: putEntry label x rest

theorem mem_putEntry_fst {label other : String} {x : α} {entries : List (String × α)} :
    other ∈ (putEntry label x entries).map Prod.fst ↔
      other = label ∨ other ∈ entries.map Prod.fst := by
  induction entries with
  | nil => simp [putEntry]
  | cons entry rest ih =>
      simp only [putEntry]
      split
      · rename_i he
        simp [← beq_iff_eq.mp he]
      · simp only [List.map_cons, List.mem_cons, ih]
        exact or_left_comm

theorem nodup_putEntry {label : String} {x : α} {entries : List (String × α)}
    (h : (entries.map Prod.fst).Nodup) : ((putEntry label x entries).map Prod.fst).Nodup := by
  induction entries with
  | nil => simp [putEntry]
  | cons entry rest ih =>
      obtain ⟨hfirst, hrest⟩ := List.nodup_cons.mp h
      simp only [putEntry]
      split
      · rename_i he
        rw [List.map_cons, beq_iff_eq.mp he]
        exact List.nodup_cons.mpr ⟨hfirst, hrest⟩
      · rename_i hne
        refine List.nodup_cons.mpr ⟨?_, ih hrest⟩
        rw [mem_putEntry_fst]
        rintro (hEq | hmem)
        · exact hne (beq_iff_eq.mpr hEq.symm)
        · exact hfirst hmem

def put (d : Directory α) (label : String) (x : α) : Directory α :=
  ⟨putEntry label x d.entries, nodup_putEntry d.nodup⟩

def remove (d : Directory α) (label : String) : Directory α :=
  ⟨d.entries.filter (·.1 != label), d.nodup.sublist (List.filter_sublist.map _)⟩

theorem mem_putEntry {label : String} {x : α} {entry : String × α} {entries : List (String × α)}
    (h : entry ∈ putEntry label x entries) : entry = (label, x) ∨ entry ∈ entries := by
  induction entries with
  | nil => simpa [putEntry] using h
  | cons first rest ih =>
      simp only [putEntry] at h
      split at h
      · rcases List.mem_cons.mp h with h | h
        · exact Or.inl h
        · exact Or.inr (List.mem_cons_of_mem _ h)
      · rcases List.mem_cons.mp h with h | h
        · exact Or.inr (List.mem_cons.mpr (Or.inl h))
        · exact (ih h).imp_right (List.mem_cons_of_mem _)

@[simp] theorem get?_put_self (d : Directory α) (label : String) (x : α) :
    (d.put label x).get? label = some x := by
  simp only [put, get?]
  induction d.entries with
  | nil => simp [putEntry]
  | cons entry rest ih =>
      obtain ⟨other, y⟩ := entry
      simp only [putEntry]
      split
      · simp
      · rename_i hne
        simp only [List.lookup_cons, Bool.not_eq_true] at hne ⊢
        simp [hne, ih]

theorem putEntry_append {label : String} {x : α} {before : List (String × α)}
    (h : ∀ entry ∈ before, entry.1 ≠ label) (after : List (String × α)) :
    putEntry label x (before ++ after) = before ++ putEntry label x after := by
  induction before with
  | nil => rfl
  | cons entry rest ih =>
      obtain ⟨hne, hrest⟩ := List.forall_mem_cons.mp h
      simp only [List.cons_append, putEntry, beq_eq_false_iff_ne.mpr hne.symm, ih hrest]
      rfl

/-- The object under a label stands between others, which stay when it is replaced or removed. -/
theorem exists_split {d : Directory α} {label : String} {x : α} (h : d.get? label = some x) :
    ∃ before after, d.entries = before ++ (label, x) :: after ∧
      (∀ entry ∈ before ++ after, entry.1 ≠ label) ∧
      (∀ y, (d.put label y).entries = before ++ (label, y) :: after) ∧
      (d.remove label).entries = before ++ after := by
  obtain ⟨before, after, hentries, hbefore⟩ := List.lookup_eq_some_iff.mp h
  have hne : ∀ entry ∈ before, entry.1 ≠ label := by
    intro entry hentry
    have hother := hbefore entry hentry
    simp only [bne_iff_ne, ne_eq] at hother
    exact fun hEq => hother hEq.symm
  have hnodup := d.nodup
  rw [hentries, List.map_append, List.map_cons] at hnodup
  have hafter : ∀ entry ∈ after, entry.1 ≠ label := by
    intro entry hentry hEq
    have hrest := (List.nodup_append.mp hnodup).2.1
    exact (List.nodup_cons.mp hrest).1 (List.mem_map.mpr ⟨entry, hentry, hEq⟩)
  have hothers : ∀ entry ∈ before ++ after, entry.1 ≠ label := by
    intro entry hentry
    rcases List.mem_append.mp hentry with hentry | hentry
    · exact hne entry hentry
    · exact hafter entry hentry
  refine ⟨before, after, hentries, hothers, ?_, ?_⟩
  · intro y
    have hput : (d.put label y).entries = putEntry label y d.entries := rfl
    rw [hput, hentries, putEntry_append hne]
    simp [putEntry]
  · have hkept (entries : List (String × α)) (hentries : ∀ entry ∈ entries, entry.1 ≠ label) :
        entries.filter (·.1 != label) = entries :=
      List.filter_eq_self.mpr fun entry hentry => bne_iff_ne.mpr (hentries entry hentry)
    have hremove : (d.remove label).entries = d.entries.filter (·.1 != label) := rfl
    rw [hremove, hentries, List.filter_append, List.filter_cons_of_neg (by simp), hkept before hne,
      hkept after hafter]

theorem get?_of_mem {d : Directory α} {label : String} {x : α} (h : (label, x) ∈ d.entries) :
    d.get? label = some x := by
  cases hget : d.get? label with
  | none =>
    have hother := List.lookup_eq_none_iff.mp hget _ h
    simp at hother
  | some y =>
    obtain ⟨before, after, hentries, hothers, -, -⟩ := exists_split hget
    have hmem : (label, x) ∈ (label, y) :: (before ++ after) := by
      rw [hentries] at h
      exact List.perm_middle.mem_iff.mp h
    rcases List.mem_cons.mp hmem with hself | hother
    · rw [(Prod.mk.inj hself).2]
    · exact absurd rfl (hothers _ hother)

theorem ne_of_get?_none {d : Directory α} {label : String} (h : d.get? label = none) :
    ∀ entry ∈ d.entries, entry.1 ≠ label := by
  intro entry hentry
  have hother := List.lookup_eq_none_iff.mp h entry hentry
  simp only [bne_iff_ne, ne_eq] at hother
  exact fun hEq => hother hEq.symm

/-- A label that is not in use is put after the others. -/
theorem entries_put_of_none {d : Directory α} {label : String} (h : d.get? label = none) (x : α) :
    (d.put label x).entries = d.entries ++ [(label, x)] := by
  have happend := putEntry_append (x := x) (ne_of_get?_none h) []
  rw [List.append_nil] at happend
  exact happend

theorem perm_put (d : Directory α) (label : String) (x : α) :
    ((d.get? label).toList.map (Prod.mk label) ++ (d.put label x).entries).Perm
      ((label, x) :: d.entries) := by
  cases hold : d.get? label with
  | none =>
    rw [entries_put_of_none hold]
    exact List.perm_append_singleton _ _
  | some old =>
    obtain ⟨before, after, hentries, -, hput, -⟩ := exists_split hold
    rw [hput, hentries]
    have hnew : (before ++ (label, x) :: after).Perm ((label, x) :: (before ++ after)) :=
      List.perm_middle
    have hbefore : ((label, old) :: (before ++ after)).Perm (before ++ (label, old) :: after) :=
      List.perm_middle.symm
    exact (hnew.cons _).trans ((List.Perm.swap _ _ _).trans (hbefore.cons _))

theorem perm_remove (d : Directory α) (label : String) :
    ((d.get? label).toList.map (Prod.mk label) ++ (d.remove label).entries).Perm d.entries := by
  cases hold : d.get? label with
  | none =>
    have hall : d.entries.filter (·.1 != label) = d.entries :=
      List.filter_eq_self.mpr fun entry hentry => bne_iff_ne.mpr (ne_of_get?_none hold entry hentry)
    exact List.Perm.of_eq hall
  | some old =>
    obtain ⟨before, after, hentries, -, -, hremove⟩ := exists_split hold
    rw [hremove, hentries, Option.toList_some, List.map_singleton, List.singleton_append]
    exact List.perm_middle.symm

end Directory

end RollCall
