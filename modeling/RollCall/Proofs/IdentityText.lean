import RollCall.Identity
import RollCall.Proofs.Document

/-!
# Identities as text

The ten characters of a fresh identity are always of the alphabet, whatever the random words are.
So nothing but its stem decides whether the identity is read back from its name or from its
document: it is, exactly when the stem is ASCII. Whatever is read as an identity is written as the
text that it was read from.
-/

namespace RollCall.Identity

def IsAscii (text : String) : Prop := ∀ c ∈ text.toList, c.toNat < 128

/-! ## Fresh identities -/

theorem mem_alphabet_getD (n : Nat) : alphabet.getD n 'A' ∈ alphabet := by
  rw [List.getD_eq_getElem?_getD]
  cases hget : alphabet[n]? with
  | none => decide
  | some c => exact List.mem_of_getElem? hget

theorem toNat_lt_of_mem_alphabet {c : Char} (hc : c ∈ alphabet) : c.toNat < 128 := by
  have hall : alphabet.all (fun c => decide (c.toNat < 128)) = true := by decide +kernel
  exact of_decide_eq_true (List.all_eq_true.mp hall c hc)

theorem length_sampleChars (n : Nat) (s : WordSource) : (sampleChars n s).1.length = n := by
  induction n generalizing s with
  | zero => rfl
  | succ n ih => simp [sampleChars, ih]

theorem mem_alphabet_of_mem_sampleChars {n : Nat} {s : WordSource} {c : Char}
    (hc : c ∈ (sampleChars n s).1) : c ∈ alphabet := by
  induction n generalizing s with
  | zero => cases hc
  | succ n ih =>
    simp only [sampleChars, List.mem_cons] at hc
    rcases hc with rfl | hc
    · exact mem_alphabet_getD _
    · exact ih hc

theorem toList_fresh (stem : String) (s : WordSource) :
    (fresh stem s).1.name.toList = stem.toList ++ (sampleChars suffixLength s).1 := by
  simp [fresh]

theorem lastTen_append {cs : List Char} (stem : List Char) (hlength : cs.length = suffixLength) :
    lastTen (stem ++ cs) = cs := by
  simp [lastTen, hlength]

/-! ## Reading -/

theorem ofName?_eq_some_iff {name : String} {i : Identity} :
    ofName? name = some i ↔
      i.name = name ∧ IsAscii name ∧ suffixLength ≤ name.toList.length ∧
        ∀ c ∈ lastTen name.toList, c ∈ alphabet := by
  simp only [ofName?, IsAscii, Option.ite_none_right_eq_some, Bool.and_eq_true, decide_eq_true_eq,
    List.all_eq_true, List.contains_iff_mem, Option.some.injEq]
  constructor
  · rintro ⟨⟨⟨hlength, hascii⟩, hsuffix⟩, rfl⟩
    exact ⟨rfl, hascii, hlength, hsuffix⟩
  · rintro ⟨rfl, hascii, hlength, hsuffix⟩
    exact ⟨⟨⟨hlength, hascii⟩, hsuffix⟩, rfl⟩

/-- The ten characters of a fresh identity do not keep it from being read. -/
theorem ofName?_fresh_eq_some_iff (stem : String) (s : WordSource) :
    ofName? (fresh stem s).1.name = some (fresh stem s).1 ↔ IsAscii stem := by
  have hlength : (sampleChars suffixLength s).1.length = suffixLength := length_sampleChars _ s
  rw [ofName?_eq_some_iff, IsAscii, toList_fresh, lastTen_append _ hlength]
  constructor
  · rintro ⟨-, hascii, -, -⟩ c hc
    exact hascii c (List.mem_append_left _ hc)
  · intro hascii
    refine ⟨rfl, ?_, ?_, fun c hc => mem_alphabet_of_mem_sampleChars hc⟩
    · intro c hc
      rcases List.mem_append.mp hc with hstem | hsuffix
      · exact hascii c hstem
      · exact toNat_lt_of_mem_alphabet (mem_alphabet_of_mem_sampleChars hsuffix)
    · rw [List.length_append, hlength]
      exact Nat.le_add_left _ _

theorem ofName?_eq_none_of_not_ascii {name : String} (hname : ¬ IsAscii name) :
    ofName? name = none := by
  rw [Option.eq_none_iff_forall_ne_some]
  intro i hi
  exact hname (ofName?_eq_some_iff.mp hi).2.1

/-- A name that is that of an identity is read back from its document. -/
theorem document_json_of_ofName? {i : Identity} (hi : ofName? i.name = some i) :
    reader.document i.json = .ok i :=
  ((Json.Reader.reads_written i.name).filterMap hi).document

theorem document_json_eq_mismatch {i : Identity} (hi : ofName? i.name = none) :
    reader.document i.json = .error .mismatch :=
  (Json.Reader.reads_written i.name).document_filterMap_none hi

/-- Whatever the random words are, a fresh identity is read back from its name, and from its
document, exactly when its stem is ASCII; otherwise both are refused. And whatever name is read as
an identity, the identity has that name, its document is the string of that name, and it is read
back from it. -/
theorem fresh_read_back_iff_ascii (stem : String) (s : WordSource) :
    let i := (fresh stem s).1
    (ofName? i.name = some i ↔ IsAscii stem) ∧
    (reader.document i.json = .ok i ↔ IsAscii stem) ∧
    (¬ IsAscii stem → ofName? i.name = none ∧ reader.document i.json = .error .mismatch) ∧
    (∀ name j, ofName? name = some j →
      j.name = name ∧ Json.Reader.string.document j.json = .ok name ∧
        reader.document j.json = .ok j) := by
  intro i
  have hread : ofName? i.name = some i ↔ IsAscii stem := ofName?_fresh_eq_some_iff stem s
  have hrefused : ¬ IsAscii stem → ofName? i.name = none := by
    intro hstem
    apply ofName?_eq_none_of_not_ascii
    intro hname
    apply hstem
    intro c hc
    apply hname
    rw [toList_fresh]
    exact List.mem_append_left _ hc
  refine ⟨hread, ⟨?_, ?_⟩, ?_, ?_⟩
  · intro hdocument
    by_cases hstem : IsAscii stem
    · exact hstem
    · rw [document_json_eq_mismatch (hrefused hstem)] at hdocument
      cases hdocument
  · intro hstem
    exact document_json_of_ofName? (hread.mpr hstem)
  · intro hstem
    exact ⟨hrefused hstem, document_json_eq_mismatch (hrefused hstem)⟩
  · intro name j hj
    obtain ⟨rfl, -⟩ := ofName?_eq_some_iff.mp hj
    exact ⟨rfl, (Json.Reader.reads_written j.name).document, document_json_of_ofName? hj⟩

/-- An identity whose stem has an accent is refused, as a name and as a document. -/
theorem accented_identity_refused :
    let i := (fresh "é" (WordSource.ofList [])).1
    i.name = "éAAAAAAAAAA" ∧ ofName? i.name = none ∧
      reader.document i.json = .error .mismatch := by
  intro i
  have hname : i.name = "éAAAAAAAAAA" := by decide +kernel
  have hrefused : ofName? i.name = none := by
    rw [hname]
    decide +kernel
  exact ⟨hname, hrefused, document_json_eq_mismatch hrefused⟩

end RollCall.Identity
