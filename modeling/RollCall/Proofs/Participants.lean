import RollCall.Proofs.EntrantText
import RollCall.Proofs.Layers
import RollCall.Proofs.PlanDocument
import RollCall.Proofs.Yield

/-!
# The two entrances of participants

A participant comes from the short form on the command line or from the record of a file. The short
form asks for a name, the record does not, and nothing after them does: so a participant without a
name is launched exactly if a file lists it and the command line does not replace the list. Such a
participant is refused in the form that it is written in.
-/

namespace RollCall

open Json

/-! ## From a file -/

namespace Entrant

def Draft.Fits (d : Draft) : Prop := d.delay.getD 0 < 2 ^ 64

theorem members_keep : ∀ m ∈ members, m.Keeps Draft.Fits := by
  simp only [members, List.forall_mem_cons, List.not_mem_nil, false_implies, implies_true, and_true]
  exact ⟨Member.keeps_of_map (Reader.yields_true _) fun _ _ _ hd => hd,
    Member.keeps_of_map Reader.natural_yields fun _ _ hn _ => hn⟩

/-- The record of an entrant sees to its delay, and to nothing else. -/
theorem reader_yields : reader.Yields fun e => e.delay < 2 ^ 64 := by
  have hempty : Draft.Fits {} := Nat.two_pow_pos 64
  apply Reader.record_yields hempty members_keep
  intro d e hd he
  obtain ⟨name, -, rfl⟩ := Option.map_eq_some_iff.mp he
  exact hd

end Entrant

namespace Plan

variable {files : Files} {path : String} {plan : Plan}

def Draft.Fits (d : Draft) : Prop := ∀ e ∈ d.participants.getD [], e.delay < 2 ^ 64

theorem members_keep : ∀ m ∈ members, m.Keeps Draft.Fits := by
  simp only [members, List.forall_mem_cons, List.not_mem_nil, false_implies, implies_true, and_true]
  exact ⟨Member.keeps_of_map (Reader.yields_true _) fun _ _ _ hd => hd,
    Member.keeps_of_map (Reader.yields_true _) fun _ _ _ hd => hd,
    Member.keeps_of_map Entrant.reader_yields.list fun _ _ hes _ => hes⟩

theorem reader_yields : reader.Yields fun p => ∀ e ∈ p.participants, e.delay < 2 ^ 64 := by
  have hempty : Draft.Fits {} := by simp [Draft.Fits]
  apply Reader.record_yields hempty members_keep
  intro d p hd hp
  cases hp
  exact hd

theorem load_eq_ok_iff :
    load files path = .ok plan ↔
      ∃ bytes text, files path = .ok bytes ∧ String.fromUTF8? bytes = some text ∧
        reader.document text = .ok plan := by
  unfold load
  constructor
  · intro hload
    split at hload
    · cases hload
    · rename_i bytes hbytes
      split at hload
      · cases hload
      · rename_i text htext
        split at hload
        · cases hload
        · rename_i hplan
          cases hload
          exact ⟨bytes, text, hbytes, htext, hplan⟩
  · rintro ⟨bytes, text, hbytes, htext, hplan⟩
    simp only [hbytes, htext, hplan]

theorem load_of_document {text : String} (hfile : files path = .ok text.toUTF8)
    (hread : reader.document text = .ok plan) : load files path = .ok plan :=
  load_eq_ok_iff.mpr ⟨text.toUTF8, text, hfile, dif_pos text.isValidUTF8, hread⟩

theorem delay_lt_of_load (hload : load files path = .ok plan) :
    ∀ e ∈ plan.participants, e.delay < 2 ^ 64 := by
  obtain ⟨bytes, text, -, -, hplan⟩ := load_eq_ok_iff.mp hload
  exact reader_yields.document hplan

/-- A document without settings, of lists of names and of participants. -/
def listed (expected : List String) (participants : List Entrant) : List Char :=
  writtenObject
    [("expected", writtenList (expected.map Json.written)),
     ("participants", writtenList (participants.map Entrant.written))]

/-- A document may list any participants whose delays fit sixty-four bits, named or not. -/
theorem reads_listed (expected : List String) {participants : List Entrant}
    (hdelays : ∀ e ∈ participants, e.delay < 2 ^ 64) :
    reader.Reads (listed expected participants) ⟨Settings.standard, expected, participants⟩ := by
  have hexpected := reads_names expected
  have hparticipants := reads_entrants hdelays
  have hfills : Member.Fills members {}
      [("expected", writtenList (expected.map Json.written)),
       ("participants", writtenList (participants.map Entrant.written))]
      ⟨none, some expected, some participants⟩ := by
    refine .cons rfl rfl (hexpected.map fun x (d : Draft) => { d with expected := some x }) ?_
    exact .cons rfl rfl
      (hparticipants.map fun x (d : Draft) => { d with participants := some x }) (.nil _)
  exact Member.reads_writtenObject hfills rfl

theorem demonstration_participants :
    ∀ e ∈ demonstration.participants, e.name ≠ "" ∧ e.delay < 2 ^ 64 := by decide +kernel

end Plan

/-! ## From the command line -/

namespace CommandLine

variable {a a' : Arguments}

/-- Arguments whose participants have been read from short forms. -/
def Arguments.Spelled (a : Arguments) : Prop :=
  ∀ e ∈ a.spawn, ∃ text, Entrant.Spells text e

theorem spelled_assign {o : Opt} {value : String} (ha : a.Spelled)
    (hassign : o.assign value a = some a') : a'.Spelled := by
  cases o with
  | spawn =>
    obtain ⟨e, he, rfl⟩ := Option.map_eq_some_iff.mp hassign
    have hspells : Entrant.Spells value e := by
      apply Entrant.ofText_eq_ok_iff.mp
      cases hread : Entrant.ofText value with
      | error cause => simp [hread, Except.toOption] at he
      | ok e' => simpa [hread, Except.toOption] using he
    intro e' he'
    rcases List.mem_append.mp he' with hold | hnew
    · exact ha e' hold
    · cases List.mem_singleton.mp hnew
      exact ⟨value, hspells⟩
  | expect =>
    cases hassign
    exact ha
  | _ =>
    obtain ⟨x, -, rfl⟩ := Option.map_eq_some_iff.mp hassign
    exact ha

/-- By induction on the arguments that are left: only an option that is given changes what has been
read. -/
theorem spelled_readFrom {waiting : Option Opt} {arguments : List String} (ha : a.Spelled)
    (hread : readFrom waiting a arguments = some (.run a')) : a'.Spelled := by
  induction arguments generalizing waiting a with
  | nil =>
    unfold readFrom at hread
    split at hread
    · cases hread
      exact ha
    · cases hread
  | cons text rest ih =>
    have hassigned : ∀ {o : Opt} {value : String},
        (o.assign value a).bind (fun a => readFrom none a rest) = some (.run a') →
          a'.Spelled := by
      intro o value hbind
      obtain ⟨next, hassign, hrest⟩ := Option.bind_eq_some_iff.mp hbind
      exact ih (spelled_assign ha hassign) hrest
    unfold readFrom at hread
    split at hread
    · exact hassigned hread
    · cases hread
    · cases hread
    · split at hread
      · cases hread
        exact ha
      · cases hread
    · split at hread
      · exact hassigned hread
      · exact ih ha hread
      · split at hread
        · cases hread
        · refine ih ?_ hread
          exact ha
      · cases hread
      · cases hread
    · split at hread
      · exact hassigned hread
      · exact ih ha hread
      · cases hread
      · cases hread

theorem spelled_read {arguments : List String} (hread : read arguments = some (.run a)) :
    a.Spelled :=
  spelled_readFrom (fun _ he => absurd he List.not_mem_nil) hread

section Resolve

variable {files : Files} {env : Environment} {plan : Plan}

/-- The participants of a plan stand on the command line, or are demonstrated, or stand in the
file. -/
theorem participants_of_resolve (hresolve : resolve files env a = .ok plan) :
    (a.spawn ≠ [] ∧ plan.participants = a.spawn) ∨
      a.spawn = [] ∧
        ((a.config = none ∧ plan.participants = Plan.demonstration.participants) ∨
          ∃ path base, a.config = some path ∧ Plan.load files path = .ok base ∧
            plan.participants = base.participants) := by
  unfold resolve at hresolve
  split at hresolve
  · cases hresolve
  · rename_i base hbase
    obtain ⟨-, hparticipants⟩ := resolve_lists hresolve
    rw [replaced_eq] at hparticipants
    by_cases hspawn : a.spawn = []
    · rw [if_pos hspawn] at hparticipants
      right
      refine ⟨hspawn, ?_⟩
      cases hconfig : a.config with
      | none =>
        rw [hconfig] at hbase
        have hdemonstration : base = Plan.demonstration := (Except.ok.inj hbase).symm
        exact Or.inl ⟨rfl, by rw [hparticipants, hdemonstration]⟩
      | some path =>
        rw [hconfig] at hbase
        exact Or.inr ⟨path, base, rfl, hbase, hparticipants⟩
    · rw [if_neg hspawn] at hparticipants
      exact Or.inl ⟨hspawn, hparticipants⟩

/-- Whatever has been resolved, its delays fit sixty-four bits. -/
theorem delay_lt_of_resolve (ha : a.Spelled) (hresolve : resolve files env a = .ok plan) :
    ∀ e ∈ plan.participants, e.delay < 2 ^ 64 := by
  intro e he
  rcases participants_of_resolve hresolve with
    ⟨-, hgiven⟩ | ⟨-, ⟨-, hdemonstrated⟩ | ⟨path, base, -, hload, hlisted⟩⟩
  · rw [hgiven] at he
    obtain ⟨text, hspells⟩ := ha e he
    exact hspells.sound.2
  · rw [hdemonstrated] at he
    exact (Plan.demonstration_participants e he).2
  · rw [hlisted] at he
    exact Plan.delay_lt_of_load hload e he

theorem exists_nameless_iff (ha : a.Spelled) (hresolve : resolve files env a = .ok plan) :
    (∃ e ∈ plan.participants, e.name = "") ↔
      a.spawn = [] ∧ ∃ path base, a.config = some path ∧ Plan.load files path = .ok base ∧
        ∃ e ∈ base.participants, e.name = "" := by
  rcases participants_of_resolve hresolve with
    ⟨hspawn, hgiven⟩ | ⟨hspawn, ⟨hconfig, hdemonstrated⟩ | ⟨path, base, hconfig, hload, hlisted⟩⟩
  · refine iff_of_false ?_ fun h => hspawn h.1
    rintro ⟨e, he, hname⟩
    rw [hgiven] at he
    obtain ⟨text, hspells⟩ := ha e he
    exact hspells.sound.1 hname
  · refine iff_of_false ?_ fun ⟨_, path, _, hpath, _⟩ => by simp [hconfig] at hpath
    rintro ⟨e, he, hname⟩
    rw [hdemonstrated] at he
    exact (Plan.demonstration_participants e he).1 hname
  · simp [hspawn, hconfig, hload, hlisted]

end Resolve

/-- A run launches a participant without a name exactly if its file lists one and its command line
names no participants. Whoever has a name is read back from the short form that it is written as,
and whoever has none is refused there. -/
theorem nameless_launched_iff {files : Files} {env : Environment} {arguments : List String}
    {a : Arguments} {plan : Plan} (hread : read arguments = some (.run a))
    (hresolve : resolve files env a = .ok plan) :
    ((∃ e ∈ plan.participants, e.name = "") ↔
      a.spawn = [] ∧ ∃ path base, a.config = some path ∧ Plan.load files path = .ok base ∧
        ∃ e ∈ base.participants, e.name = "") ∧
    ∀ e ∈ plan.participants,
      Entrant.ofText e.text = if e.name = "" then .error (.emptyName e.text) else .ok e := by
  have ha := spelled_read hread
  refine ⟨exists_nameless_iff ha hresolve, ?_⟩
  intro e he
  have hdelay := delay_lt_of_resolve ha hresolve e he
  by_cases hname : e.name = ""
  · rw [if_pos hname]
    exact Entrant.ofText_text_of_empty hname hdelay
  · rw [if_neg hname]
    exact Entrant.ofText_text hname hdelay

/-- The demonstration launches three participants, all of which are read back. -/
theorem demonstration_participants_read_back :
    let files : Files := fun _ => .error .notFound
    let env : Environment := fun _ => none
    read [] = some (.run {}) ∧ resolve files env {} = .ok Plan.demonstration ∧
      ∀ e ∈ Plan.demonstration.participants, Entrant.ofText e.text = .ok e := by
  intro files env
  have hread : read [] = some (.run {}) := rfl
  have hresolve : resolve files env {} = .ok Plan.demonstration := by decide +kernel
  refine ⟨hread, hresolve, ?_⟩
  intro e he
  obtain ⟨-, hback⟩ := nameless_launched_iff hread hresolve
  rw [hback e he, if_neg (Plan.demonstration_participants e he).1]

/-- A file that lists a participant without a name is loaded and the participant is launched, but
the short form that it is written as is refused. -/
theorem nameless_from_file :
    let text :=
      "\x7b\"expected\":[\"\"],\"participants\":[\x7b\"name\":\"\",\"delay_ms\":0\x7d]\x7d"
    let files : Files := fun _ => .ok text.toUTF8
    let env : Environment := fun _ => none
    let nameless : Entrant := ⟨"", 0⟩
    ∃ a plan, read ["-c", "plan.json"] = some (.run a) ∧ resolve files env a = .ok plan ∧
      nameless ∈ plan.participants ∧ nameless.text = "@0" ∧
      Entrant.ofText "@0" = .error (.emptyName "@0") ∧ read ["-s", "@0"] = none := by
  intro text files env nameless
  let a : Arguments := { config := some "plan.json" }
  let plan : Plan := ⟨Settings.standard, [""], [nameless]⟩
  have hdelays : ∀ e ∈ [nameless], e.delay < 2 ^ 64 := by decide
  have hlisted := Plan.reads_listed [""] hdelays
  have htext : String.ofList (Plan.listed [""] [nameless]) = text := by decide +kernel
  have hload : Plan.load files "plan.json" = .ok plan :=
    Plan.load_of_document rfl (htext ▸ hlisted.document)
  have hfrom : resolveFrom env a plan = .ok plan := by decide +kernel
  have hresolve : resolve files env a = .ok plan := by
    simp only [resolve, Plan.loadOrDemonstrate, a, hload, hfrom]
  exact ⟨a, plan, rfl, hresolve, List.mem_singleton_self nameless, by decide +kernel,
    by decide +kernel, rfl⟩

end CommandLine

end RollCall
