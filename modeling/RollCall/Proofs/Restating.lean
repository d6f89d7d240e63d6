import Mathlib.Data.List.Pairwise
import Mathlib.Data.List.Perm.Basic
import RollCall.Proofs.Settling

/-!
# The members of a record in another order, or with others among them

The members of a record keep to their own parts of a draft. So it is of no consequence in which
order an object has its members, which unknown ones stand among them, and whether one that is as
good as left out is left out. An object makes a draft exactly if each of its members that the
record knows is given once and has a value that the member takes.
-/

namespace RollCall.Json

/-- A member's name, as its spelling has it. -/
def Entry.Names (e : Entry) (name : String) : Prop := Spells e.spelling name.toList

theorem Entry.names_iff {e : Entry} {name : String} :
    e.Names name ↔ spelled? e.spelling = some name :=
  (spelled?_eq_some_iff e.spelled).symm

theorem Entry.Names.unique {e : Entry} {name name' : String} (h : e.Names name)
    (h' : e.Names name') : name = name' := by
  rw [names_iff] at h h'
  exact Option.some.inj (h.symm.trans h')

namespace Member

variable {δ α : Type} {ms : List (Member δ)} {m m' : Member δ} {e : Entry} {entries : List Entry}

/-- The change to a draft that some value of the member stands for. -/
def Makes (m : Member δ) (change : δ → δ) : Prop := ∃ v, m.value.value? v = some change

/-- The record knows the member by its name. -/
def Known (ms : List (Member δ)) (m : Member δ) : Prop := ms.find? (·.name = m.name) = some m

/-- What one of two members changes is of no consequence to the other. -/
structure Apart (m m' : Member δ) : Prop where
  left : ∀ change, m.Makes change → ∀ d, m'.given (change d) = m'.given d
  right : ∀ change, m'.Makes change → ∀ d, m.given (change d) = m.given d
  commute : ∀ change, m.Makes change → ∀ change', m'.Makes change' → ∀ d,
    change (change' d) = change' (change d)

/-- Every member of a record keeps to its own part of a draft. -/
structure Independent (ms : List (Member δ)) : Prop where
  given : ∀ m ∈ ms, ∀ change, m.Makes change → ∀ d, m.given (change d) = true
  apart : ms.Pairwise Apart

instance : Std.Symm (Apart (δ := δ)) where
  symm _ _ h := ⟨h.right, h.left, fun change hchange change' hchange' d =>
    (h.commute change' hchange' change hchange d).symm⟩

theorem Independent.apart_of_name_ne (hms : Independent ms) (hm : m ∈ ms) (hm' : m' ∈ ms)
    (hname : m.name ≠ m'.name) : Apart m m' := by
  have hne : m ≠ m' := fun h => hname (h ▸ rfl)
  exact hms.apart.forall hm hm' hne

section Map

variable {β β' : Type} {name name' : String} {given given' : δ → Bool} {r : Reader β}
  {r' : Reader β'} {set : β → δ → δ} {set' : β' → δ → δ}

theorem exists_of_makes_map {change : δ → δ} (hchange : Makes ⟨name, given, r.map set⟩ change) :
    ∃ x, change = set x := by
  obtain ⟨v, hv⟩ := hchange
  rw [Reader.value?_map] at hv
  obtain ⟨x, -, hx⟩ := Option.map_eq_some_iff.mp hv
  exact ⟨x, hx.symm⟩

theorem given_map (hset : ∀ x d, given (set x d) = true) :
    ∀ change, Makes ⟨name, given, r.map set⟩ change → ∀ d, given (change d) = true := by
  intro change hchange d
  obtain ⟨x, rfl⟩ := exists_of_makes_map hchange
  exact hset x d

theorem apart_map (hleft : ∀ x d, given' (set x d) = given' d)
    (hright : ∀ x d, given (set' x d) = given d)
    (hcommute : ∀ x x' d, set x (set' x' d) = set' x' (set x d)) :
    Apart ⟨name, given, r.map set⟩ ⟨name', given', r'.map set'⟩ := by
  refine ⟨?_, ?_, ?_⟩
  · intro change hchange d
    obtain ⟨x, rfl⟩ := exists_of_makes_map hchange
    exact hleft x d
  · intro change hchange d
    obtain ⟨x, rfl⟩ := exists_of_makes_map hchange
    exact hright x d
  · intro change hchange change' hchange' d
    obtain ⟨x, rfl⟩ := exists_of_makes_map hchange
    obtain ⟨x', rfl⟩ := exists_of_makes_map hchange'
    exact hcommute x x' d

end Map

/-- A change to a draft, unless the member was given before. -/
def put (m : Member δ) (change : δ → δ) (d : δ) : Option δ :=
  if m.given d then none else some (change d)

theorem Known.mem (hm : Known ms m) : m ∈ ms := List.mem_of_find?_eq_some hm

theorem Known.eq_of_name (hm : Known ms m) (hm' : Known ms m') (hname : m.name = m'.name) :
    m = m' := by
  rw [Known, hname] at hm
  exact Option.some.inj (hm.symm.trans hm')

theorem known_of_find? {name : String} (hfind : ms.find? (·.name = name) = some m) :
    Known ms m ∧ m.name = name := by
  have hname : m.name = name := by simpa using List.find?_some hfind
  refine ⟨?_, hname⟩
  rw [Known, hname]
  exact hfind

theorem note_none (e : Entry) : note ms none e = none := rfl

theorem note_unknown {name : String} (hname : e.Names name)
    (hunknown : ms.find? (·.name = name) = none) (draft : Option δ) : note ms draft e = draft := by
  cases draft with
  | none => rfl
  | some d => rw [note_of_spelled (Entry.names_iff.mp hname), hunknown]

theorem note_known (hm : Known ms m) (hname : e.Names m.name) {change : δ → δ}
    (hchange : m.value.value? e.value = some change) (draft : Option δ) :
    note ms draft e = draft.bind (m.put change) := by
  cases draft with
  | none => rfl
  | some d =>
    have hfind : ms.find? (·.name = m.name) = some m := hm
    rw [note_of_spelled (Entry.names_iff.mp hname), hfind]
    simp only [hchange]
    rfl

theorem note_congr {e' : Entry} {name : String} (hname : e.Names name) (hname' : e'.Names name)
    (hvalues : ∀ m, Known ms m → m.name = name → m.value.value? e.value = m.value.value? e'.value)
    (draft : Option δ) : note ms draft e = note ms draft e' := by
  cases draft with
  | none => rfl
  | some d =>
    rw [note_of_spelled (Entry.names_iff.mp hname), note_of_spelled (Entry.names_iff.mp hname')]
    cases hfind : ms.find? (·.name = name) with
    | none => rfl
    | some m =>
      obtain ⟨hm, hm'⟩ := known_of_find? hfind
      simp only [hvalues m hm hm']

/-- A member of an object whose name spells no text, or whose value is refused. -/
def Spoils (ms : List (Member δ)) (e : Entry) : Prop :=
  (∀ name, ¬ e.Names name) ∨ ∃ m, Known ms m ∧ e.Names m.name ∧ m.value.value? e.value = none

theorem note_spoiled (he : Spoils ms e) (draft : Option δ) : note ms draft e = none := by
  cases draft with
  | none => rfl
  | some d =>
    rcases he with hname | ⟨m, hm, hname, hrefused⟩
    · apply note_of_not_spelled
      rw [Option.eq_none_iff_forall_ne_some]
      intro name hspelled
      exact hname name (Entry.names_iff.mpr hspelled)
    · have hfind : ms.find? (·.name = m.name) = some m := hm
      rw [note_of_spelled (Entry.names_iff.mp hname), hfind]
      simp [hrefused]

/-- A member of an object spoils every draft, or is unknown, or changes a draft in a way that a
member of the record knows. -/
theorem note_cases (ms : List (Member δ)) (e : Entry) :
    Spoils ms e ∨ (∃ name, e.Names name ∧ ms.find? (·.name = name) = none) ∨
      ∃ m change, Known ms m ∧ e.Names m.name ∧ m.value.value? e.value = some change := by
  by_cases hspelled : ∃ name, e.Names name
  · obtain ⟨name, hname⟩ := hspelled
    cases hfind : ms.find? (·.name = name) with
    | none => exact Or.inr (Or.inl ⟨name, hname, hfind⟩)
    | some m =>
      obtain ⟨hm, rfl⟩ := known_of_find? hfind
      cases hchange : m.value.value? e.value with
      | none => exact Or.inl (Or.inr ⟨m, hm, hname, hchange⟩)
      | some change => exact Or.inr (Or.inr ⟨m, change, hm, hname, hchange⟩)
  · exact Or.inl (Or.inl (not_exists.mp hspelled))

theorem not_names_of_unknown {name : String} (hname : e.Names name)
    (hunknown : ms.find? (·.name = name) = none) (hm : Known ms m) : ¬ e.Names m.name := by
  intro hname'
  rw [hname.unique hname', List.find?_eq_none] at hunknown
  exact hunknown m hm.mem (by simp)

/-! ## Order -/

theorem put_put_of_ne (hms : Independent ms) (hm : m ∈ ms) (hm' : m' ∈ ms)
    (hne : m.name ≠ m'.name) {change change' : δ → δ} (hchange : m.Makes change)
    (hchange' : m'.Makes change') (d : δ) :
    (m.put change d).bind (m'.put change') = (m'.put change' d).bind (m.put change) := by
  have hapart := hms.apart_of_name_ne hm hm' hne
  have hgiven := hapart.left change hchange d
  have hgiven' := hapart.right change' hchange' d
  have hcommute := hapart.commute change hchange change' hchange' d
  by_cases hd : m.given d = true
  · by_cases hd' : m'.given d = true
    · simp [put, hd, hd']
    · simp [put, hd, hd', hgiven']
  · by_cases hd' : m'.given d = true
    · simp [put, hd, hd', hgiven]
    · simp [put, hd, hd', hgiven, hgiven', hcommute]

theorem put_put_self (hms : Independent ms) (hm : m ∈ ms) {change change' : δ → δ}
    (hchange : m.Makes change) (d : δ) : (m.put change d).bind (m.put change') = none := by
  have hgiven := hms.given m hm change hchange d
  by_cases hd : m.given d = true
  · simp [put, hd]
  · simp [put, hd, hgiven]

/-- Two members of an object may change places. -/
theorem note_note (hms : Independent ms) (draft : Option δ) (e f : Entry) :
    note ms (note ms draft e) f = note ms (note ms draft f) e := by
  rcases note_cases ms e with he | ⟨name, he, hunknown⟩ | ⟨m, change, hm, he, hchange⟩
  · rw [note_spoiled he, note_spoiled he, note_none]
  · rw [note_unknown he hunknown, note_unknown he hunknown]
  · rcases note_cases ms f with hf | ⟨name, hf, hunknown⟩ | ⟨m', change', hm', hf, hchange'⟩
    · rw [note_spoiled hf, note_spoiled hf, note_none]
    · rw [note_unknown hf hunknown, note_unknown hf hunknown]
    · simp only [note_known hm he hchange, note_known hm' hf hchange']
      cases draft with
      | none => rfl
      | some d =>
        simp only [Option.bind_some]
        by_cases hname : m.name = m'.name
        · have heq : m = m' := hm.eq_of_name hm' hname
          subst heq
          rw [put_put_self hms hm.mem ⟨_, hchange⟩, put_put_self hms hm.mem ⟨_, hchange'⟩]
        · exact put_put_of_ne hms hm.mem hm'.mem hname ⟨_, hchange⟩ ⟨_, hchange'⟩ d

/-- The members of an object may stand in any order. -/
theorem foldl_note_perm (hms : Independent ms) {entries' : List Entry}
    (hperm : entries.Perm entries') (draft : Option δ) :
    entries.foldl (note ms) draft = entries'.foldl (note ms) draft :=
  hperm.foldl_eq' (fun e _ f _ draft => note_note hms draft e f) draft

/-! ## What was given -/

/-- A member is given in a draft exactly if it was given before or stands in the object. -/
theorem given_foldl (hms : Independent ms) (hm : Known ms m) {d result : δ}
    (hnoted : entries.foldl (note ms) (some d) = some result) :
    m.given result = true ↔ m.given d = true ∨ ∃ e ∈ entries, e.Names m.name := by
  induction entries generalizing d with
  | nil =>
    cases hnoted
    simp
  | cons e entries ih =>
    rw [List.foldl_cons] at hnoted
    rcases note_cases ms e with he | ⟨name, he, hunknown⟩ | ⟨m', change, hm', he, hchange⟩
    · rw [note_spoiled he, foldl_note_none] at hnoted
      cases hnoted
    · have hne := not_names_of_unknown he hunknown hm
      rw [note_unknown he hunknown] at hnoted
      simp [ih hnoted, hne]
    · rw [note_known hm' he hchange, Option.bind_some, put] at hnoted
      split at hnoted
      · rw [foldl_note_none] at hnoted
        cases hnoted
      · rw [ih hnoted]
        by_cases hname : m'.name = m.name
        · have heq : m' = m := hm'.eq_of_name hm hname
          subst heq
          simp [hms.given m' hm.mem change ⟨_, hchange⟩, he]
        · have hne : ¬ e.Names m.name := fun h => hname (he.unique h)
          rw [(hms.apart_of_name_ne hm'.mem hm.mem hname).left change ⟨_, hchange⟩]
          simp [hne]

/-- Every name in an object spells a text, and a member that the record knows is given once, by a
value that it takes. -/
structure Readable (ms : List (Member δ)) (entries : List Entry) : Prop where
  spelled : ∀ e ∈ entries, ∃ name, e.Names name
  once : entries.Pairwise fun e f => ∀ m, Known ms m → e.Names m.name → ¬ f.Names m.name
  taken : ∀ e ∈ entries, ∀ m, Known ms m → e.Names m.name → ∃ change,
    m.value.value? e.value = some change

theorem readable_nil : Readable ms [] :=
  ⟨fun _ h => absurd h List.not_mem_nil, .nil, fun _ h => absurd h List.not_mem_nil⟩

theorem readable_cons_iff :
    Readable ms (e :: entries) ↔
      (∃ name, e.Names name) ∧
        (∀ m, Known ms m → e.Names m.name →
          (∃ change, m.value.value? e.value = some change) ∧ ∀ f ∈ entries, ¬ f.Names m.name) ∧
        Readable ms entries := by
  constructor
  · rintro ⟨hspelled, honce, htaken⟩
    obtain ⟨he, hentries⟩ := List.forall_mem_cons.mp hspelled
    obtain ⟨hfirst, hrest⟩ := List.pairwise_cons.mp honce
    obtain ⟨hchange, hchanges⟩ := List.forall_mem_cons.mp htaken
    exact ⟨he, fun m hm hname => ⟨hchange m hm hname, fun f hf => hfirst f hf m hm hname⟩,
      hentries, hrest, hchanges⟩
  · rintro ⟨he, hknown, hspelled, honce, htaken⟩
    refine ⟨List.forall_mem_cons.mpr ⟨he, hspelled⟩, List.pairwise_cons.mpr ⟨?_, honce⟩,
      List.forall_mem_cons.mpr ⟨fun m hm hname => (hknown m hm hname).1, htaken⟩⟩
    intro f hf m hm hname
    exact (hknown m hm hname).2 f hf

theorem not_readable_of_spoils (he : Spoils ms e) : ¬ Readable ms (e :: entries) := by
  rw [readable_cons_iff]
  rintro ⟨⟨name, hname⟩, hknown, -⟩
  rcases he with hnone | ⟨m, hm, hname', hrefused⟩
  · exact hnone name hname
  · obtain ⟨⟨change, hchange⟩, -⟩ := hknown m hm hname'
    rw [hrefused] at hchange
    cases hchange

theorem readable_cons_unknown {name : String} (hname : e.Names name)
    (hunknown : ms.find? (·.name = name) = none) :
    Readable ms (e :: entries) ↔ Readable ms entries := by
  rw [readable_cons_iff]
  constructor
  · rintro ⟨-, -, hreadable⟩
    exact hreadable
  · intro hreadable
    exact ⟨⟨name, hname⟩,
      fun m hm hname' => absurd hname' (not_names_of_unknown hname hunknown hm), hreadable⟩

theorem readable_cons_known (hm : Known ms m) (hname : e.Names m.name) {change : δ → δ}
    (hchange : m.value.value? e.value = some change) :
    Readable ms (e :: entries) ↔ (∀ f ∈ entries, ¬ f.Names m.name) ∧ Readable ms entries := by
  rw [readable_cons_iff]
  constructor
  · rintro ⟨-, hknown, hreadable⟩
    exact ⟨(hknown m hm hname).2, hreadable⟩
  · rintro ⟨honce, hreadable⟩
    refine ⟨⟨m.name, hname⟩, fun m' hm' hname' => ?_, hreadable⟩
    obtain rfl := hm.eq_of_name hm' (hname.unique hname')
    exact ⟨⟨change, hchange⟩, honce⟩

def New (ms : List (Member δ)) (d : δ) (entries : List Entry) : Prop :=
  ∀ e ∈ entries, ∀ m, Known ms m → e.Names m.name → m.given d = false

theorem new_cons_unknown {name : String} (hname : e.Names name)
    (hunknown : ms.find? (·.name = name) = none) {d : δ} :
    New ms d (e :: entries) ↔ New ms d entries := by
  rw [New, List.forall_mem_cons]
  exact and_iff_right fun m hm hname' =>
    absurd hname' (not_names_of_unknown hname hunknown hm)

theorem new_cons_known (hm : Known ms m) (hname : e.Names m.name) {d : δ} :
    New ms d (e :: entries) ↔ m.given d = false ∧ New ms d entries := by
  rw [New, List.forall_mem_cons]
  refine and_congr_left fun _ => ⟨fun hgiven => hgiven m hm hname, fun hgiven m' hm' hname' => ?_⟩
  obtain rfl := hm.eq_of_name hm' (hname.unique hname')
  exact hgiven

/-- After a member is given, what it names is no longer new, and all else is as before. -/
theorem new_change_iff (hms : Independent ms) (hm : Known ms m) {change : δ → δ}
    (hchange : m.Makes change) (d : δ) :
    New ms (change d) entries ↔ (∀ f ∈ entries, ¬ f.Names m.name) ∧ New ms d entries := by
  have hself := hms.given m hm.mem change hchange d
  have hother : ∀ m', Known ms m' → m'.name ≠ m.name → m'.given (change d) = m'.given d :=
    fun m' hm' hne => (hms.apart_of_name_ne hm.mem hm'.mem hne.symm).left change hchange d
  constructor
  · intro hnew
    have honce : ∀ f ∈ entries, ¬ f.Names m.name := by
      intro f hf hname
      rw [hnew f hf m hm hname] at hself
      cases hself
    refine ⟨honce, fun f hf m' hm' hname => ?_⟩
    have hne : m'.name ≠ m.name := fun h => honce f hf (h ▸ hname)
    rw [← hother m' hm' hne]
    exact hnew f hf m' hm' hname
  · rintro ⟨honce, hnew⟩ f hf m' hm' hname
    have hne : m'.name ≠ m.name := fun h => honce f hf (h ▸ hname)
    rw [hother m' hm' hne]
    exact hnew f hf m' hm' hname

/-- An object makes a draft out of one exactly if it is readable and gives nothing that was given
before. -/
theorem exists_foldl_iff (hms : Independent ms) (d : δ) :
    (∃ result, entries.foldl (note ms) (some d) = some result) ↔
      Readable ms entries ∧ New ms d entries := by
  induction entries generalizing d with
  | nil => simp [readable_nil, New]
  | cons e entries ih =>
    rw [List.foldl_cons]
    rcases note_cases ms e with he | ⟨name, he, hunknown⟩ | ⟨m, change, hm, he, hchange⟩
    · rw [note_spoiled he, foldl_note_none]
      simp [not_readable_of_spoils he]
    · rw [note_unknown he hunknown, ih, readable_cons_unknown he hunknown,
        new_cons_unknown he hunknown]
    · rw [note_known hm he hchange, Option.bind_some, put, readable_cons_known hm he hchange,
        new_cons_known hm he]
      cases hgiven : m.given d with
      | true =>
        rw [if_pos rfl, foldl_note_none]
        simp
      | false =>
        rw [if_neg (by decide), ih, new_change_iff hms hm ⟨_, hchange⟩ d]
        tauto

/-! ## Restatements -/

/-- Two ways to write the members of a record: in another order, with others whose names are not
among those that are known, with one that has its default where it was left out, or with a value
that is written in another way. -/
inductive Restated (known : List String) (isDefault : String → List Char → Prop)
    (alike : String → List Char → List Char → Prop) : List Entry → List Entry → Prop
  | symm {entries entries' : List Entry} :
      Restated known isDefault alike entries entries' →
        Restated known isDefault alike entries' entries
  | trans {entries entries' entries'' : List Entry} :
      Restated known isDefault alike entries entries' →
        Restated known isDefault alike entries' entries'' →
          Restated known isDefault alike entries entries''
  | permuted {entries entries' : List Entry} :
      entries.Perm entries' → Restated known isDefault alike entries entries'
  | unknown {e : Entry} {name : String} (entries : List Entry) :
      e.Names name → name ∉ known → IsValue e.value →
        Restated known isDefault alike entries (e :: entries)
  | default {e : Entry} {name : String} {entries : List Entry} :
      e.Names name → isDefault name e.value → IsValue e.value →
        (∀ f ∈ entries, ¬ f.Names name) → Restated known isDefault alike entries (e :: entries)
  | rewritten {e e' : Entry} {name : String} (entries : List Entry) :
      e.Names name → e'.Names name → alike name e.value e'.value → IsValue e.value →
        IsValue e'.value → Restated known isDefault alike (e :: entries) (e' :: entries)

section Restated

variable {isDefault : String → List Char → Prop} {alike : String → List Char → List Char → Prop}
  {finish : δ → Option α} {entries' : List Entry}

theorem Restated.forall_isValue_iff {known : List String}
    (hrestated : Restated known isDefault alike entries entries') :
    (∀ e ∈ entries, IsValue e.value) ↔ ∀ e ∈ entries', IsValue e.value := by
  induction hrestated with
  | symm _ ih => exact ih.symm
  | trans _ _ ih ih' => exact ih.trans ih'
  | permuted hperm => simp only [hperm.mem_iff]
  | unknown _ _ _ hvalue => simp [hvalue]
  | default _ _ hvalue _ => simp [hvalue]
  | rewritten _ _ _ _ hvalue hvalue' => simp [hvalue, hvalue']

/-- What is default is as good as left out. -/
def Idle (ms : List (Member δ)) (finish : δ → Option α) (name : String) (v : List Char) : Prop :=
  ∃ m change, ms.find? (·.name = name) = some m ∧ m.value.value? v = some change ∧
    ∀ d, m.given d = false → finish (change d) = finish d

theorem idle_map {β : Type} {name : String} {given : δ → Bool} {r : Reader β} {set : β → δ → δ}
    {x : β} {v : List Char} (hfind : ms.find? (·.name = name) = some ⟨name, given, r.map set⟩)
    (hv : r.value? v = some x) (hidle : ∀ d, given d = false → finish (set x d) = finish d) :
    Idle ms finish name v := by
  refine ⟨_, set x, hfind, ?_, hidle⟩
  rw [Reader.value?_map, hv]
  rfl

/-- A member that is as good as left out may stand where it was left out. -/
theorem finish_cons_idle (hms : Independent ms) (hm : Known ms m) (hname : e.Names m.name)
    {change : δ → δ} (hchange : m.value.value? e.value = some change)
    (hidle : ∀ d, m.given d = false → finish (change d) = finish d)
    {d : δ} (hd : m.given d = false) (hleft : ∀ f ∈ entries, ¬ f.Names m.name) :
    ((e :: entries).foldl (note ms) (some d)).bind finish =
      (entries.foldl (note ms) (some d)).bind finish := by
  -- It is noted last, when it is known not to be given.
  have hlast : (e :: entries).Perm (entries ++ [e]) := (List.perm_append_singleton e entries).symm
  rw [foldl_note_perm hms hlast, List.foldl_append, List.foldl_cons, List.foldl_nil,
    note_known hm hname hchange]
  cases hnoted : entries.foldl (note ms) (some d) with
  | none => rfl
  | some result =>
    have hgiven : m.given result = false := by
      rw [← Bool.not_eq_true, given_foldl hms hm hnoted, hd]
      rintro (hfalse | ⟨f, hf, hnames⟩)
      · cases hfalse
      · exact hleft f hf hnames
    simp [put, hgiven, hidle result hgiven]

/-- A restatement makes the same of a record, if nothing was given before. -/
theorem Restated.finish_eq (hms : Independent ms)
    (hdefault : ∀ name v, isDefault name v → Idle ms finish name v)
    (halike : ∀ m, Known ms m → ∀ v v', IsValue v → IsValue v' → alike m.name v v' →
      m.value.value? v = m.value.value? v')
    {d : δ} (hd : ∀ m, Known ms m → m.given d = false)
    (hrestated : Restated (ms.map (·.name)) isDefault alike entries entries') :
    (entries.foldl (note ms) (some d)).bind finish =
      (entries'.foldl (note ms) (some d)).bind finish := by
  induction hrestated with
  | symm _ ih => exact ih.symm
  | trans _ _ ih ih' => exact ih.trans ih'
  | permuted hperm => rw [foldl_note_perm hms hperm]
  | @unknown e name entries hname hunknown _ =>
    have hfind : ms.find? (·.name = name) = none := by
      rw [List.find?_eq_none]
      intro m hm heq
      exact hunknown (List.mem_map.mpr ⟨m, hm, by simpa using heq⟩)
    rw [List.foldl_cons, note_unknown hname hfind]
  | @default e name entries hname hvalue _ hleft =>
    obtain ⟨m, change, hfind, hchange, hidle⟩ := hdefault name e.value hvalue
    obtain ⟨hm, rfl⟩ := known_of_find? hfind
    exact (finish_cons_idle hms hm hname hchange hidle (hd m hm) hleft).symm
  | @rewritten e e' name entries hname hname' hvalues hvalue hvalue' =>
    rw [List.foldl_cons, List.foldl_cons, note_congr hname hname']
    rintro m hm rfl
    exact halike m hm _ _ hvalue hvalue' hvalues

end Restated

/-- A record whose members settle their values and keep to their own parts of a draft, beginning
with a draft in which none is given. -/
structure Lawful (ms : List (Member δ)) (d : δ) : Prop where
  settles : ∀ m ∈ ms, m.value.Settles
  independent : Independent ms
  empty : ∀ m ∈ ms, m.given d = false

/-- An object makes a draft exactly if it is readable. -/
theorem Lawful.exists_foldl_iff {d : δ} (hms : Lawful ms d) :
    (∃ result, entries.foldl (note ms) (some d) = some result) ↔ Readable ms entries := by
  rw [Member.exists_foldl_iff hms.independent]
  exact and_iff_left fun _ _ m hm _ => hms.empty m hm.mem

end Member

namespace Reader

variable {δ α : Type} {ms : List (Member δ)} {d : δ} {finish : δ → Option α}
  {entries entries' : List Entry}

/-- A record is what any restatement of it is. -/
theorem value?_restated (hms : Member.Lawful ms d) {isDefault : String → List Char → Prop}
    {alike : String → List Char → List Char → Prop}
    (hdefault : ∀ name v, isDefault name v → Member.Idle ms finish name v)
    (halike : ∀ m, Member.Known ms m → ∀ v v', IsValue v → IsValue v' → alike m.name v v' →
      m.value.value? v = m.value.value? v')
    (hentries : ∀ e ∈ entries, IsValue e.value)
    (hrestated : Member.Restated (ms.map (·.name)) isDefault alike entries entries')
    (last last' : Gap) :
    (record ms d finish).value? (objectText entries last) =
      (record ms d finish).value? (objectText entries' last') := by
  have hentries' := hrestated.forall_isValue_iff.mp hentries
  rw [value?_record hms.settles hentries, value?_record hms.settles hentries']
  exact hrestated.finish_eq hms.independent hdefault halike fun m hm => hms.empty m hm.mem

theorem exists_value?_iff (hms : Member.Lawful ms d) (hentries : ∀ e ∈ entries, IsValue e.value)
    (last : Gap) (finish : δ → α) :
    (∃ x, (record ms d fun d => some (finish d)).value? (objectText entries last) = some x) ↔
      Member.Readable ms entries := by
  rw [value?_record hms.settles hentries, ← hms.exists_foldl_iff]
  cases entries.foldl (Member.note ms) (some d) with
  | none => simp
  | some result => simp

end Reader

end RollCall.Json
