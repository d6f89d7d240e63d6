import RollCall.Proofs.IdentityText
import RollCall.Proofs.Yield

/-!
# The random part of an identity

An index is the high half of 36 times a random word. Where the low half is so large that the digits
after it could carry, a second word says whether they do. Either way the index names a character of
the alphabet. So a fresh identity is its stem and ten characters of `A-Z0-9`, for which ten to
twenty words are taken.

Ten such characters are ten bytes. So the last ten bytes of an identity begin at a character,
whatever its stem is made of, and are its random part, whether it is fresh or has been read.
-/

namespace RollCall.Identity

/-! ## Sampling -/

/-- What is sampled from a row of words at a place: an index, and the place after the words that
it takes. -/
inductive Samples (word : Nat → UInt32) (place : Nat) : Nat → Nat → Prop
  | one {high low : Nat} (hword : (word place).toNat * 36 = high * 2 ^ 32 + low)
      (hlow : low ≤ 2 ^ 32 - 36) : Samples word place high (place + 1)
  /-- The low half leaves the index open. -/
  | two {high low high' low' : Nat} (hword : (word place).toNat * 36 = high * 2 ^ 32 + low)
      (hopen : 2 ^ 32 - 36 < low) (hlow : low < 2 ^ 32)
      (hnext : (word (place + 1)).toNat * 36 = high' * 2 ^ 32 + low') (hlow' : low' < 2 ^ 32) :
      Samples word place (if 2 ^ 32 ≤ low + high' then high + 1 else high) (place + 2)

/-- Indices that are sampled one after the other. -/
inductive SamplesAll (word : Nat → UInt32) : Nat → List Nat → Nat → Prop
  | nil (place : Nat) : SamplesAll word place [] place
  | cons {place next last index : Nat} {indices : List Nat}
      (hindex : Samples word place index next) (hindices : SamplesAll word next indices last) :
      SamplesAll word place (index :: indices) last

section Sampling

variable {word : Nat → UInt32} {start next index : Nat} {indices : List Nat}

/-- With the largest high half the low half is too small to leave the index open. -/
theorem Samples.lt (hsamples : Samples word start index next) : index < 36 := by
  have hlt := (word start).toNat_lt
  cases hsamples with
  | one hword hlow => omega
  | two hword hopen hlow hnext hlow' =>
    split
    · omega
    · omega

theorem Samples.next_bounds (hsamples : Samples word start index next) :
    start + 1 ≤ next ∧ next ≤ start + 2 := by
  cases hsamples with
  | one => omega
  | two => omega

theorem SamplesAll.lt (hsamples : SamplesAll word start indices next) :
    ∀ index ∈ indices, index < 36 := by
  induction hsamples with
  | nil place => simp
  | cons hindex hindices ih => exact List.forall_mem_cons.mpr ⟨hindex.lt, ih⟩

theorem SamplesAll.next_bounds (hsamples : SamplesAll word start indices next) :
    start + indices.length ≤ next ∧ next ≤ start + 2 * indices.length := by
  induction hsamples with
  | nil place => simp
  | cons hindex hindices ih =>
    have hfirst := hindex.next_bounds
    rw [List.length_cons]
    omega

end Sampling

theorem samples_sampleIndex (s : WordSource) :
    (sampleIndex s).2.word = s.word ∧
      Samples s.word s.used (sampleIndex s).1 (sampleIndex s).2.used := by
  have hbound : wordBound = 2 ^ 32 := rfl
  have hhalves (w : UInt32) :
      w.toNat * 36 = w.toNat * 36 / 2 ^ 32 * 2 ^ 32 + w.toNat * 36 % 2 ^ 32 :=
    (Nat.div_add_mod' _ _).symm
  have hlow (w : UInt32) : w.toNat * 36 % 2 ^ 32 < 2 ^ 32 := Nat.mod_lt _ (by decide)
  cases hsecond : needsSecond (s.word s.used).toNat with
  | true =>
    simp only [sampleIndex, WordSource.next, hsecond, if_true, indexOf, hbound, true_and]
    simp only [needsSecond, hbound, decide_eq_true_eq] at hsecond
    exact .two (hhalves _) hsecond (hlow _) (hhalves _) (hlow _)
  | false =>
    simp only [sampleIndex, WordSource.next, hsecond, Bool.false_eq_true, if_false, indexOf,
      hbound, true_and]
    simp only [needsSecond, hbound, decide_eq_false_iff_not, Nat.not_lt] at hsecond
    rw [if_neg (by omega)]
    exact .one (hhalves _) hsecond

-- The first word leaves its index open, and the second one carries.
example :
    (sampleIndex (WordSource.ofList [119304647, 477218589])).1 = 1 ∧
      (sampleIndex (WordSource.ofList [119304647, 477218588])).1 = 0 := by decide +kernel

/-- The characters are those that the sampled indices name. -/
theorem exists_samplesAll (n : Nat) (s : WordSource) :
    ∃ indices, indices.length = n ∧
      SamplesAll s.word s.used indices (sampleChars n s).2.used ∧
      indices.map (alphabet[·]?) = (sampleChars n s).1.map some := by
  induction n generalizing s with
  | zero => exact ⟨[], rfl, .nil _, rfl⟩
  | succ n ih =>
    obtain ⟨hword, hindex⟩ := samples_sampleIndex s
    obtain ⟨indices, hlength, hindices, hchars⟩ := ih (sampleIndex s).2
    rw [hword] at hindices
    have hlt : (sampleIndex s).1 < alphabet.length := hindex.lt
    refine ⟨(sampleIndex s).1 :: indices, by simp [hlength], .cons hindex hindices, ?_⟩
    simp only [List.map_cons, sampleChars, hchars, List.getD_eq_getElem?_getD,
      List.getElem?_eq_getElem hlt, Option.getD_some]

theorem fresh_eq (stem : String) (s : WordSource) :
    fresh stem s =
      (⟨stem ++ String.ofList (sampleChars suffixLength s).1⟩, (sampleChars suffixLength s).2) := by
  simp only [fresh]

/-! ## The last ten bytes -/

def IsSuffixChar (c : Char) : Prop := ('A' ≤ c ∧ c ≤ 'Z') ∨ ('0' ≤ c ∧ c ≤ '9')

theorem isSuffixChar_of_mem_alphabet {c : Char} (hc : c ∈ alphabet) : IsSuffixChar c := by
  have hall : alphabet.all (fun c =>
      decide (('A' ≤ c ∧ c ≤ 'Z') ∨ ('0' ≤ c ∧ c ≤ '9'))) = true := by decide +kernel
  rw [IsSuffixChar]
  exact of_decide_eq_true (List.all_eq_true.mp hall c hc)

theorem utf8Size_of_mem_alphabet {c : Char} (hc : c ∈ alphabet) : c.utf8Size = 1 := by
  have hall : alphabet.all (fun c => decide (c.utf8Size = 1)) = true := by decide +kernel
  exact of_decide_eq_true (List.all_eq_true.mp hall c hc)

theorem utf8ByteSize_ofList {cs : List Char} (hcs : ∀ c ∈ cs, c ∈ alphabet) :
    (String.ofList cs).utf8ByteSize = cs.length := by
  induction cs with
  | nil => simp
  | cons c cs ih =>
    obtain ⟨hc, hcs⟩ := List.forall_mem_cons.mp hcs
    rw [String.ofList_cons, String.utf8ByteSize_append, String.utf8ByteSize_singleton,
      utf8Size_of_mem_alphabet hc, ih hcs, List.length_cons, Nat.add_comm]

theorem textFrom?_eq_some_iff {text rest : String} {byte : Nat} :
    textFrom? text byte = some rest ↔
      ∃ front, text = front ++ rest ∧ byte = front.utf8ByteSize := by
  simp only [textFrom?, Option.dite_none_right_eq_some, Option.some.injEq]
  constructor
  · rintro ⟨hplace, rfl⟩
    have hsplits := String.Pos.splits ⟨⟨byte⟩, hplace⟩
    exact ⟨_, hsplits.eq_append, congrArg String.Pos.Raw.byteIdx hsplits.offset_eq_rawEndPos⟩
  · rintro ⟨front, rfl, rfl⟩
    have hplace : String.Pos.Raw.IsValid (front ++ rest) ⟨front.utf8ByteSize⟩ :=
      String.Pos.Raw.isValid_iff_exists_append.mpr ⟨front, rest, rfl, rfl⟩
    have hsplits : String.Pos.Splits ⟨⟨front.utf8ByteSize⟩, hplace⟩ front rest := ⟨rfl, rfl⟩
    exact ⟨hplace, hsplits.copy_sliceFrom_eq⟩

/-- A name that ends in ten characters of the alphabet has them as its suffix. -/
theorem suffix?_of_name {i : Identity} {stem : String} {cs : List Char}
    (hname : i.name = stem ++ String.ofList cs) (hlength : cs.length = suffixLength)
    (hcs : ∀ c ∈ cs, c ∈ alphabet) : i.suffix? = some (String.ofList cs) := by
  have hsize : i.name.utf8ByteSize = stem.utf8ByteSize + suffixLength := by
    rw [hname, String.utf8ByteSize_append, utf8ByteSize_ofList hcs, hlength]
  rw [suffix?, hsize, if_pos (Nat.le_add_left _ _), Nat.add_sub_cancel]
  exact textFrom?_eq_some_iff.mpr ⟨stem, hname, rfl⟩

theorem eq_append_lastTen {name : String} (hlength : suffixLength ≤ name.toList.length) :
    ∃ stem, name = stem ++ String.ofList (lastTen name.toList) ∧
      (lastTen name.toList).length = suffixLength := by
  refine ⟨String.ofList (name.toList.take (name.toList.length - suffixLength)), ?_, ?_⟩
  · rw [← String.ofList_append, lastTen, List.take_append_drop, String.ofList_toList]
  · rw [lastTen, List.length_drop]
    omega

/-- The identities that there are: fresh ones, and those that are read from a name or from a
document. -/
inductive Made : Identity → Prop
  | fresh (stem : String) (s : WordSource) : Made (fresh stem s).1
  | ofName {name : String} {i : Identity} (hread : ofName? name = some i) : Made i
  | ofDocument {text : String} {i : Identity} (hread : reader.document text = .ok i) : Made i

theorem exists_ofName?_of_document {text : String} {i : Identity}
    (hread : reader.document text = .ok i) : ∃ name, ofName? name = some i := by
  have hyields : reader.Yields fun i => ∃ name, ofName? name = some i :=
    (Json.Reader.yields_true _).filterMap fun name _ _ hi => ⟨name, hi⟩
  exact hyields.document hread

theorem Made.exists_name {i : Identity} (hmade : Made i) :
    ∃ stem cs, i.name = stem ++ String.ofList cs ∧ cs.length = suffixLength ∧
      ∀ c ∈ cs, c ∈ alphabet := by
  have hnamed {name : String} {i : Identity} (hread : ofName? name = some i) :
      ∃ stem cs, i.name = stem ++ String.ofList cs ∧ cs.length = suffixLength ∧
        ∀ c ∈ cs, c ∈ alphabet := by
    obtain ⟨rfl, -, hlength, hcs⟩ := ofName?_eq_some_iff.mp hread
    obtain ⟨stem, hname, htenth⟩ := eq_append_lastTen hlength
    exact ⟨stem, _, hname, htenth, hcs⟩
  cases hmade with
  | fresh stem s =>
    rw [fresh_eq]
    exact ⟨stem, _, rfl, length_sampleChars _ _, fun c hc => mem_alphabet_of_mem_sampleChars hc⟩
  | ofName hread => exact hnamed hread
  | ofDocument hread =>
    obtain ⟨name, hname⟩ := exists_ofName?_of_document hread
    exact hnamed hname

/-- A fresh identity is its stem and the ten characters that the indices sampled from the words
name, every index below 36; ten to twenty words are taken. And the last ten bytes of any identity
that is made are text, namely ten characters of `A-Z0-9`, and its name is a stem and that text. -/
theorem fresh_and_suffix :
    (∀ (stem : String) (s : WordSource), ∃ indices cs,
      SamplesAll s.word s.used indices (fresh stem s).2.used ∧ indices.length = 10 ∧
      (∀ index ∈ indices, index < 36) ∧ indices.map (alphabet[·]?) = cs.map some ∧
      (∀ c ∈ cs, IsSuffixChar c) ∧ (fresh stem s).1.name = stem ++ String.ofList cs ∧
      s.used + 10 ≤ (fresh stem s).2.used ∧ (fresh stem s).2.used ≤ s.used + 20) ∧
    (∀ i, Made i → ∃ stem cs, i.suffix? = some (String.ofList cs) ∧ cs.length = 10 ∧
      (∀ c ∈ cs, IsSuffixChar c) ∧ i.name = stem ++ i.suffix) := by
  constructor
  · intro stem s
    obtain ⟨indices, hlength, hsamples, hchars⟩ := exists_samplesAll suffixLength s
    have hten : indices.length = 10 := hlength
    obtain ⟨hleast, hmost⟩ := hsamples.next_bounds
    rw [hten] at hleast hmost
    simp only [fresh_eq]
    refine ⟨indices, _, hsamples, hten, hsamples.lt, hchars, ?_, rfl, hleast, hmost⟩
    intro c hc
    exact isSuffixChar_of_mem_alphabet (mem_alphabet_of_mem_sampleChars hc)
  · intro i hmade
    obtain ⟨stem, cs, hname, hlength, hcs⟩ := hmade.exists_name
    have hsuffix := suffix?_of_name hname hlength hcs
    refine ⟨stem, cs, hsuffix, hlength, fun c hc => isSuffixChar_of_mem_alphabet (hcs c hc), ?_⟩
    rw [suffix, hsuffix, hname, Option.getD_some]

/-- An accent takes two bytes of its stem, and none of the suffix. -/
theorem accented_identity_suffix :
    let i := (fresh "é" (WordSource.ofList [])).1
    Made i ∧ i.suffix = "AAAAAAAAAA" ∧
      ∃ stem cs, i.suffix? = some (String.ofList cs) ∧ cs.length = 10 ∧
        (∀ c ∈ cs, IsSuffixChar c) ∧ i.name = stem ++ i.suffix := by
  intro i
  have hmade : Made i := .fresh "é" (WordSource.ofList [])
  exact ⟨hmade, by decide +kernel, fresh_and_suffix.2 i hmade⟩

end RollCall.Identity
