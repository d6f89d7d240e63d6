import RollCall.Plan
import RollCall.Proofs.Acceptance
import RollCall.Proofs.Restating

/-!
# How a plan is presented

A plan does not depend on how its document presents it. In a plan, in the settings of its wait and
in each of its entrants, members may stand in another order and among unknown ones, and one that may
be left out may be written with its default. Nothing has to be given but the names of the entrants.
-/

namespace RollCall

open Json

namespace Json

/-- A document is what a reader makes of its value, with blanks around it. -/
theorem Reader.Settles.document_iff {α : Type} {r : Reader α} (hr : r.Settles) {v : List Char}
    (hv : IsValue v) (before after : Gap) {x : α} :
    r.document (String.ofList (before.text ++ (v ++ after.text))) = .ok x ↔
      r.value? v = some x := by
  have hends : Ends (after.text ++ []) := ends_gap after ends_nil
  have hblank := skipBlanks_gap after []
  rw [List.append_nil] at hends hblank
  rw [Reader.document, String.toList_ofList, hr.skips]
  cases hvalue : r.value? v with
  | none =>
    obtain ⟨e, he⟩ := hr.read_of_none hv hvalue hends
    simp [he]
  | some y =>
    simp only [hr.read_of_some hv hvalue hends, hblank]
    simp [skipBlanks]

/-- The same text, or objects of which one restates the other. -/
inductive Rewritten (restated : List Entry → List Entry → Prop) : List Char → List Char → Prop
  | same (v : List Char) : Rewritten restated v v
  | object {entries entries' : List Entry} (last last' : Gap) :
      (∀ e ∈ entries, IsValue e.value) → restated entries entries' →
        Rewritten restated (objectText entries last) (objectText entries' last')

theorem Rewritten.value?_eq {α : Type} {r : Reader α} {restated : List Entry → List Entry → Prop}
    (hrestated : ∀ entries entries', (∀ e ∈ entries, IsValue e.value) → restated entries entries' →
      ∀ last last', r.value? (objectText entries last) = r.value? (objectText entries' last'))
    {v v' : List Char} (h : Rewritten restated v v') : r.value? v = r.value? v' := by
  cases h with
  | same => rfl
  | object last last' hvalues hentries => exact hrestated _ _ hvalues hentries last last'

end Json

/-! ## Settings -/

namespace Settings

inductive IsDefault : String → List Char → Prop
  | timeout {v : List Char} :
      Reader.real.value? v = some standard.timeout → IsDefault "timeout_secs" v
  | interval {v : List Char} :
      Reader.real.value? v = some standard.interval → IsDefault "poll_interval_secs" v
  | stem {v : List Char} :
      Reader.string.value? v = some standard.stem → IsDefault "identity_prefix" v

/-- Two ways to write the members of the same settings. -/
def Restated : List Entry → List Entry → Prop :=
  Member.Restated (members.map (·.name)) IsDefault fun _ v v' => v = v'

theorem lawful_members : Member.Lawful members {} where
  settles := by
    simp only [members, List.forall_mem_cons]
    exact ⟨Reader.settles_real.map _, Reader.settles_real.map _, Reader.settles_string.map _,
      List.forall_mem_nil _⟩
  independent.given := by
    simp only [members, List.forall_mem_cons]
    exact ⟨Member.given_map fun _ _ => rfl, Member.given_map fun _ _ => rfl,
      Member.given_map fun _ _ => rfl, List.forall_mem_nil _⟩
  independent.apart := by
    simp only [members, List.pairwise_cons, List.forall_mem_cons]
    refine ⟨⟨?_, ?_, List.forall_mem_nil _⟩, ⟨?_, List.forall_mem_nil _⟩, List.forall_mem_nil _, .nil⟩
    all_goals exact Member.apart_map (fun _ _ => rfl) (fun _ _ => rfl) fun _ _ _ => rfl
  empty := by simp [members]

theorem settles_reader : reader.Settles := Reader.settles_record lawful_members.settles

theorem takesValues_reader : reader.TakesValues := by
  apply Reader.record_takesValues
  simp only [members, List.forall_mem_cons]
  exact ⟨Reader.real_takesValues.map _, Reader.real_takesValues.map _,
    Reader.string_takesValues.map _, List.forall_mem_nil _⟩

/-- A member with its default is as good as left out. -/
theorem idle_of_isDefault {name : String} {v : List Char} (hdefault : IsDefault name v) :
    Member.Idle members (fun d => some d.settings) name v := by
  cases hdefault with
  | timeout hv =>
    refine Member.idle_map rfl hv fun d hd => ?_
    have hnone : d.timeout = none := by simpa using hd
    simp [Draft.settings, hnone]
  | interval hv =>
    refine Member.idle_map rfl hv fun d hd => ?_
    have hnone : d.interval = none := by simpa using hd
    simp [Draft.settings, hnone]
  | stem hv =>
    refine Member.idle_map rfl hv fun d hd => ?_
    have hnone : d.stem = none := by simpa using hd
    simp [Draft.settings, hnone]

theorem value?_restated {entries entries' : List Entry} (hentries : ∀ e ∈ entries, IsValue e.value)
    (hrestated : Restated entries entries') (last last' : Gap) :
    reader.value? (objectText entries last) = reader.value? (objectText entries' last') := by
  apply Reader.value?_restated lawful_members (fun _ _ => idle_of_isDefault) ?_ hentries hrestated
  rintro m - v v' - - rfl
  rfl

/-- Settings may leave out whatever they like. -/
theorem exists_value?_iff {entries : List Entry} (hentries : ∀ e ∈ entries, IsValue e.value)
    (last : Gap) :
    (∃ s, reader.value? (objectText entries last) = some s) ↔ Member.Readable members entries :=
  Reader.exists_value?_iff lawful_members hentries last Draft.settings

end Settings

/-! ## Entrants -/

namespace Entrant

inductive IsDefault : String → List Char → Prop
  | delay {v : List Char} : Reader.natural.value? v = some 0 → IsDefault "delay_ms" v

/-- Two ways to write the members of the same entrant. -/
def Restated : List Entry → List Entry → Prop :=
  Member.Restated (members.map (·.name)) IsDefault fun _ v v' => v = v'

theorem lawful_members : Member.Lawful members {} where
  settles := by
    simp only [members, List.forall_mem_cons]
    exact ⟨Reader.settles_string.map _, Reader.settles_natural.map _, List.forall_mem_nil _⟩
  independent.given := by
    simp only [members, List.forall_mem_cons]
    exact ⟨Member.given_map fun _ _ => rfl, Member.given_map fun _ _ => rfl, List.forall_mem_nil _⟩
  independent.apart := by
    simp only [members, List.pairwise_cons, List.forall_mem_cons]
    refine ⟨⟨?_, List.forall_mem_nil _⟩, List.forall_mem_nil _, .nil⟩
    exact Member.apart_map (fun _ _ => rfl) (fun _ _ => rfl) fun _ _ _ => rfl
  empty := by simp [members]

theorem settles_reader : reader.Settles := Reader.settles_record lawful_members.settles

theorem takesValues_reader : reader.TakesValues := by
  apply Reader.record_takesValues
  simp only [members, List.forall_mem_cons]
  exact ⟨Reader.string_takesValues.map _, Reader.natural_takesValues.map _, List.forall_mem_nil _⟩

theorem idle_of_isDefault {name : String} {v : List Char} (hdefault : IsDefault name v) :
    Member.Idle members Draft.entrant? name v := by
  cases hdefault with
  | delay hv =>
    refine Member.idle_map rfl hv fun d hd => ?_
    have hnone : d.delay = none := by simpa using hd
    simp [Draft.entrant?, hnone]

theorem value?_restated {entries entries' : List Entry} (hentries : ∀ e ∈ entries, IsValue e.value)
    (hrestated : Restated entries entries') (last last' : Gap) :
    reader.value? (objectText entries last) = reader.value? (objectText entries' last') := by
  apply Reader.value?_restated lawful_members (fun _ _ => idle_of_isDefault) ?_ hentries hrestated
  rintro m - v v' - - rfl
  rfl

/-- An entrant may leave out its delay, but not its name. -/
theorem exists_value?_iff {entries : List Entry} (hentries : ∀ e ∈ entries, IsValue e.value)
    (last : Gap) :
    (∃ entrant, reader.value? (objectText entries last) = some entrant) ↔
      Member.Readable members entries ∧ ∃ e ∈ entries, e.Names "name" := by
  rw [reader, Reader.value?_record lawful_members.settles hentries,
    ← lawful_members.exists_foldl_iff]
  obtain ⟨m, hfind, hd⟩ : ∃ m, members.find? (·.name = "name") = some m ∧
      ∀ d, m.given d = d.name.isSome := ⟨_, rfl, fun _ => rfl⟩
  obtain ⟨hm, hname⟩ := Member.known_of_find? hfind
  cases hnoted : entries.foldl (Member.note members) (some {}) with
  | none => simp
  | some d =>
    have hgiven := Member.given_foldl lawful_members.independent hm hnoted
    rw [hd, hname] at hgiven
    cases hleft : d.name with
    | none =>
      rw [hleft] at hgiven
      have hno : ¬ ∃ e ∈ entries, e.Names "name" := fun h => by simpa using hgiven.mpr (Or.inr h)
      simp [Draft.entrant?, hleft, hno]
    | some name =>
      rw [hleft] at hgiven
      have hyes : ∃ e ∈ entries, e.Names "name" :=
        (hgiven.mp rfl).resolve_left (by rw [hd]; decide)
      simp [Draft.entrant?, hleft, hyes]

end Entrant

/-! ## Plans -/

namespace Plan

inductive IsDefault : String → List Char → Prop
  | wait {v : List Char} :
      Settings.reader.value? v = some Settings.standard → IsDefault "wait" v
  | expected {v : List Char} :
      (Reader.list Reader.string).value? v = some [] → IsDefault "expected" v
  | participants {v : List Char} :
      (Reader.list Entrant.reader).value? v = some [] → IsDefault "participants" v

/-- Two ways to write the same value of a member: objects with restated members, for the settings
and for each entrant. -/
inductive Alike : String → List Char → List Char → Prop
  | same (name : String) (v : List Char) : Alike name v v
  | wait {v v' : List Char} : Rewritten Settings.Restated v v' → Alike "wait" v v'
  | participants {slots slots' : List Slot} (last last' : Gap) :
      (∀ s ∈ slots, IsValue s.value) → (∀ s ∈ slots', IsValue s.value) →
        List.Forall₂ (fun s s' => Rewritten Entrant.Restated s.value s'.value) slots slots' →
          Alike "participants" (listText slots last) (listText slots' last')

/-- Two ways to write the members of the same plan. -/
def Restated : List Entry → List Entry → Prop :=
  Member.Restated (members.map (·.name)) IsDefault Alike

theorem lawful_members : Member.Lawful members {} where
  settles := by
    simp only [members, List.forall_mem_cons]
    exact ⟨Settings.settles_reader.map _, Reader.settles_string.list.map _,
      Entrant.settles_reader.list.map _, List.forall_mem_nil _⟩
  independent.given := by
    simp only [members, List.forall_mem_cons]
    exact ⟨Member.given_map fun _ _ => rfl, Member.given_map fun _ _ => rfl,
      Member.given_map fun _ _ => rfl, List.forall_mem_nil _⟩
  independent.apart := by
    simp only [members, List.pairwise_cons, List.forall_mem_cons]
    refine ⟨⟨?_, ?_, List.forall_mem_nil _⟩, ⟨?_, List.forall_mem_nil _⟩, List.forall_mem_nil _, .nil⟩
    all_goals exact Member.apart_map (fun _ _ => rfl) (fun _ _ => rfl) fun _ _ _ => rfl
  empty := by simp [members]

theorem settles_reader : reader.Settles := Reader.settles_record lawful_members.settles

theorem takesValues_reader : reader.TakesValues := by
  apply Reader.record_takesValues
  simp only [members, List.forall_mem_cons]
  exact ⟨Settings.takesValues_reader.map _, Reader.string_takesValues.list.map _,
    Entrant.takesValues_reader.list.map _, List.forall_mem_nil _⟩

theorem idle_of_isDefault {name : String} {v : List Char} (hdefault : IsDefault name v) :
    Member.Idle members (fun d => some d.plan) name v := by
  cases hdefault with
  | wait hv =>
    refine Member.idle_map rfl hv fun d hd => ?_
    have hnone : d.settings = none := by simpa using hd
    simp [Draft.plan, hnone]
  | expected hv =>
    refine Member.idle_map rfl hv fun d hd => ?_
    have hnone : d.expected = none := by simpa using hd
    simp [Draft.plan, hnone]
  | participants hv =>
    refine Member.idle_map rfl hv fun d hd => ?_
    have hnone : d.participants = none := by simpa using hd
    simp [Draft.plan, hnone]

theorem value?_entrants {slots slots' : List Slot} (last last' : Gap)
    (hslots : ∀ s ∈ slots, IsValue s.value) (hslots' : ∀ s ∈ slots', IsValue s.value)
    (hrewritten : List.Forall₂ (fun s s' => Rewritten Entrant.Restated s.value s'.value)
      slots slots') :
    (Reader.list Entrant.reader).value? (listText slots last) =
      (Reader.list Entrant.reader).value? (listText slots' last') := by
  rw [Reader.value?_list Entrant.settles_reader hslots,
    Reader.value?_list Entrant.settles_reader hslots']
  clear hslots hslots'
  induction hrewritten with
  | nil => rfl
  | cons hfirst _ ih =>
    have hvalue := hfirst.value?_eq fun _ _ hentries hrestated =>
      Entrant.value?_restated hentries hrestated
    rw [List.mapM_cons, List.mapM_cons, hvalue, ih]

theorem value?_alike {m : Member Draft} (hm : Member.Known members m) {v v' : List Char}
    (halike : Alike m.name v v') : m.value.value? v = m.value.value? v' := by
  generalize hname : m.name = name at halike
  cases halike with
  | same => rfl
  | wait hrewritten =>
    have hvalue := hrewritten.value?_eq fun _ _ hentries hrestated =>
      Settings.value?_restated hentries hrestated
    have hfind : members.find? (·.name = "wait") = some m := hname ▸ hm
    cases hfind
    rw [Reader.value?_map, Reader.value?_map, hvalue]
  | participants last last' hslots hslots' hrewritten =>
    have hvalue := value?_entrants last last' hslots hslots' hrewritten
    have hfind : members.find? (·.name = "participants") = some m := hname ▸ hm
    cases hfind
    rw [Reader.value?_map, Reader.value?_map, hvalue]

theorem value?_restated {entries entries' : List Entry} (hentries : ∀ e ∈ entries, IsValue e.value)
    (hrestated : Restated entries entries') (last last' : Gap) :
    reader.value? (objectText entries last) = reader.value? (objectText entries' last') :=
  Reader.value?_restated lawful_members (fun _ _ => idle_of_isDefault)
    (fun _ hm _ _ _ _ halike => value?_alike hm halike) hentries hrestated last last'

theorem exists_value?_iff {entries : List Entry} (hentries : ∀ e ∈ entries, IsValue e.value)
    (last : Gap) :
    (∃ plan, reader.value? (objectText entries last) = some plan) ↔
      Member.Readable members entries :=
  Reader.exists_value?_iff lawful_members hentries last Draft.plan

/-- A document that consists of an object, with blanks around it. -/
def documentText (before : Gap) (entries : List Entry) (last after : Gap) : String :=
  String.ofList (before.text ++ (objectText entries last ++ after.text))

theorem document_iff {entries : List Entry} (hentries : ∀ e ∈ entries, IsValue e.value)
    (before last after : Gap) {plan : Plan} :
    reader.document (documentText before entries last after) = .ok plan ↔
      reader.value? (objectText entries last) = some plan :=
  settles_reader.document_iff (.object last hentries) before after

/-- A document that is accepted and is no list consists of an object. -/
theorem exists_documentText {text : String} {plan : Plan} (h : reader.document text = .ok plan)
    (hcurly : (skipBlanks text.toList).head? = some '\x7b') :
    ∃ (before : Gap) (entries : List Entry) (last after : Gap),
      (∀ e ∈ entries, IsValue e.value) ∧ text = documentText before entries last after := by
  obtain ⟨before, v, after, hv, rfl⟩ := takesValues_reader.exists_text h
  obtain ⟨c, tail, rfl, hblank, -⟩ := hv.begins
  rw [String.toList_ofList, List.cons_append, skipBlanks_gap_cons before hblank] at hcurly
  obtain rfl : c = '\x7b' := Option.some.inj hcurly
  obtain ⟨entries, last, hentries, heq⟩ := hv.object_of_head
  exact ⟨before, entries, last, after, hentries, by rw [heq, documentText]⟩

/-- A document that is accepted and begins with a brace is an object of members. Documents that are
restatements of each other are accepted as the same plan: the members of a plan, of its settings and
of its entrants may stand in any order, with any values under unknown names among them, to any
depth, and with what may be left out written with its default. A plan and its settings may leave out
every member, and an entrant every one but its name. -/
theorem document_restated :
    (∀ (text : String) (plan : Plan), reader.document text = .ok plan →
      (skipBlanks text.toList).head? = some '\x7b' →
        ∃ (before : Gap) (entries : List Entry) (last after : Gap),
          (∀ e ∈ entries, IsValue e.value) ∧ text = documentText before entries last after) ∧
    (∀ entries entries' : List Entry, (∀ e ∈ entries, IsValue e.value) →
      Restated entries entries' →
        ∀ (before last after before' last' after' : Gap) (plan : Plan),
          reader.document (documentText before entries last after) = .ok plan ↔
            reader.document (documentText before' entries' last' after') = .ok plan) ∧
    (∀ entries : List Entry, (∀ e ∈ entries, IsValue e.value) → ∀ before last after : Gap,
      (∃ plan, reader.document (documentText before entries last after) = .ok plan) ↔
        Member.Readable members entries) ∧
    (∀ entries : List Entry, (∀ e ∈ entries, IsValue e.value) → ∀ last : Gap,
      (∃ settings, Settings.reader.value? (objectText entries last) = some settings) ↔
        Member.Readable Settings.members entries) ∧
    (∀ entries : List Entry, (∀ e ∈ entries, IsValue e.value) → ∀ last : Gap,
      (∃ entrant, Entrant.reader.value? (objectText entries last) = some entrant) ↔
        Member.Readable Entrant.members entries ∧ ∃ e ∈ entries, e.Names "name") := by
  refine ⟨fun _ _ => exists_documentText, ?_, ?_, ?_, ?_⟩
  · intro entries entries' hentries hrestated before last after before' last' after' plan
    have hentries' := hrestated.forall_isValue_iff.mp hentries
    rw [document_iff hentries, document_iff hentries', value?_restated hentries hrestated last last']
  · intro entries hentries before last after
    simp only [document_iff hentries, exists_value?_iff hentries]
  · intro entries hentries last
    exact Settings.exists_value?_iff hentries last
  · intro entries hentries last
    exact Entrant.exists_value?_iff hentries last

/-! ### One document and another -/

section Written

/-- A member whose name is written without escapes, and with no blanks. -/
def entry (name : String) (hname : name.toList.all isPlain = true) (value : List Char) : Entry :=
  ⟨Gap.none, name.toList, (spells_plain hname).isChars, Gap.none, Gap.none, value, Gap.none⟩

def slot (value : List Char) : Slot := ⟨Gap.none, value, Gap.none⟩

def nameOnly : List Entry := [entry "name" (by decide) ['"', 'b', '"']]

def nameAndDelay : List Entry := entry "delay_ms" (by decide) ['0'] :: nameOnly

def short : List Entry :=
  [entry "participants" (by decide) (listText [slot (objectText nameOnly Gap.none)] Gap.none)]

/-- The same plan with an unknown member and with members that have their defaults. -/
def long : List Entry :=
  [entry "x" (by decide) ['[', '\x7b', '\x7d', ']'], entry "wait" (by decide) ['\x7b', '\x7d'],
   entry "participants" (by decide) (listText [slot (objectText nameAndDelay Gap.none)] Gap.none)]

theorem entry_names {name : String} (hname : name.toList.all isPlain = true) (value : List Char) :
    (entry name hname value).Names name :=
  spells_plain hname

theorem isValue_nameOnly : ∀ e ∈ nameOnly, IsValue e.value := by
  have hspells : Spells ['b'] ['b'] := spells_plain (by decide)
  have hb : IsValue ['"', 'b', '"'] := .string hspells.isChars
  intro e he
  rw [List.mem_singleton.mp he]
  exact hb

theorem restated_nameAndDelay : Entrant.Restated nameOnly nameAndDelay := by
  have hzero : IsNumber ([] ++ (['0'] ++ ([] ++ []))) := .parts (Or.inl rfl) .zero .absent .absent
  have hdelay : Reader.natural.value? ['0'] = some 0 := by decide +kernel
  refine .default (entry_names _ _) (.delay hdelay) (.number hzero) ?_
  intro f hf hnames
  rw [List.mem_singleton.mp hf] at hnames
  exact absurd ((entry_names _ _).unique hnames) (by decide)

theorem restated_long : Restated short long := by
  have hempty : IsValue (objectText [] Gap.none) := .object Gap.none (List.forall_mem_nil _)
  have hunknown : IsValue (listText [slot ['\x7b', '\x7d']] Gap.none) :=
    .list Gap.none (List.forall_mem_singleton.mpr hempty)
  have hdelay := restated_nameAndDelay.forall_isValue_iff.mp isValue_nameOnly
  have hshort : IsValue (objectText nameOnly Gap.none) := .object Gap.none isValue_nameOnly
  have hlong : IsValue (objectText nameAndDelay Gap.none) := .object Gap.none hdelay
  have hwait : Settings.reader.value? (objectText [] Gap.none) = some Settings.standard :=
    Reader.value?_record Settings.lawful_members.settles (List.forall_mem_nil _) Gap.none
  refine .trans (.rewritten [] (entry_names _ _) (entry_names (by decide) _)
    (.participants Gap.none Gap.none ?_ ?_ (.cons ?_ .nil)) ?_ ?_)
    (.trans (.default (entry_names (by decide) _) (.wait hwait) hempty ?_)
      (.unknown _ (entry_names (by decide) _) ?_ hunknown))
  · exact List.forall_mem_singleton.mpr hshort
  · exact List.forall_mem_singleton.mpr hlong
  · exact .object Gap.none Gap.none isValue_nameOnly restated_nameAndDelay
  · exact .list Gap.none (List.forall_mem_singleton.mpr hshort)
  · exact .list Gap.none (List.forall_mem_singleton.mpr hlong)
  · intro f hf hnames
    rw [List.mem_singleton.mp hf] at hnames
    exact absurd ((entry_names _ _).unique hnames) (by decide)
  · decide

example : documentText Gap.none long Gap.none Gap.none =
    "\x7b\"x\":[\x7b\x7d],\"wait\":\x7b\x7d,\"participants\":[\x7b\"delay_ms\":0,\"name\":\"b\"\x7d]\x7d" := by
  decide

def oneEntrant : Plan := ⟨Settings.standard, [], [⟨"b", 0⟩]⟩

theorem document_short :
    reader.document (documentText Gap.none short Gap.none Gap.none) = .ok oneEntrant := by
  have hname : Reader.string.Reads (Json.written "b") "b" := Reader.reads_written "b"
  have hentrant : Entrant.reader.Reads (writtenObject [("name", Json.written "b")]) ⟨"b", 0⟩ :=
    Member.reads_writtenObject (.cons rfl rfl
      (hname.map fun x (d : Entrant.Draft) => { d with name := some x }) (.nil _)) rfl
  have hentrants : Entrant.reader.list.Reads (writtenList ([⟨"b", 0⟩].map fun e : Entrant =>
      writtenObject [("name", Json.written e.name)])) [⟨"b", 0⟩] :=
    Reader.reads_writtenList (List.forall_mem_singleton.mpr hentrant)
  have hplan : reader.Reads (writtenObject [("participants",
      writtenList [writtenObject [("name", Json.written "b")]])]) oneEntrant :=
    Member.reads_writtenObject (.cons rfl rfl
      (hentrants.map fun x (d : Draft) => { d with participants := some x }) (.nil _))
      (by simp [Draft.plan, oneEntrant])
  exact hplan.document

/-- A document with more members, in another order, is accepted as the same plan. -/
theorem document_long :
    (∀ e ∈ short, IsValue e.value) ∧ Restated short long ∧
      reader.document (documentText Gap.none long Gap.none Gap.none) = .ok oneEntrant := by
  have hshort : ∀ e ∈ short, IsValue e.value :=
    List.forall_mem_singleton.mpr (.list Gap.none
      (List.forall_mem_singleton.mpr (.object Gap.none isValue_nameOnly)))
  have hsame := document_restated.2.1 short long hshort restated_long
  exact ⟨hshort, restated_long,
    (hsame Gap.none Gap.none Gap.none Gap.none Gap.none Gap.none oneEntrant).mp document_short⟩

end Written

end Plan

end RollCall
