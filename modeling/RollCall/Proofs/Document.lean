import RollCall.Json.Reader

/-!
# Reading undoes writing

A document is written without blanks, so what comes after a value in it is a comma, a closing
bracket or nothing. A reader *reads* a text as a value if it takes exactly that text off the front
of every document that goes on in such a way. The facts below say this of the string that a name is
written as, of lists if their elements are read, and of records if their members are.
-/

namespace RollCall.Json

/-! ## Strings -/

theorem hexValue?_digitChar {n : Nat} (h : n < 16) : hexValue? (Nat.digitChar n) = some n := by
  have hall : ∀ n < 16, hexValue? (Nat.digitChar n) = some n := by decide
  exact hall n h

/-- A control character is read back from the four digits of its escape. -/
theorem takeEscape_control {c : Char} (hc : c.toNat < 0x20) (cs : List Char) :
    takeEscape (['u', '0', '0', Nat.digitChar (c.toNat / 16), Nat.digitChar (c.toNat % 16)] ++ cs) =
      .ok (c, cs) := by
  have hzero : hexValue? '0' = some 0 := rfl
  have hhigh := hexValue?_digitChar (n := c.toNat / 16) (by omega)
  have hlow := hexValue?_digitChar (n := c.toNat % 16) (by omega)
  have hhex : takeHex ('0' :: '0' :: Nat.digitChar (c.toNat / 16) ::
      Nat.digitChar (c.toNat % 16) :: cs) = .ok (c.toNat, cs) := by
    simp only [takeHex, hzero, hhigh, hlow]
    congr
    omega
  have hsecond : ¬ (0xdc00 ≤ c.toNat ∧ c.toNat ≤ 0xdfff) := by omega
  have hfirst : ¬ (0xd800 ≤ c.toNat ∧ c.toNat ≤ 0xdbff) := by omega
  simp only [List.cons_append, List.nil_append, takeEscape, hhex, if_neg hsecond, if_neg hfirst,
    Char.ofNat_toNat]

/-- A character is written as an escape that is read back, or as it is. -/
theorem writtenChar_cases (c : Char) :
    (∃ escape, writtenChar c = '\\' :: escape ∧ ∀ cs, takeEscape (escape ++ cs) = .ok (c, cs)) ∨
      (writtenChar c = [c] ∧ c ≠ '"' ∧ c ≠ '\\' ∧ ¬ c.toNat < 0x20) := by
  by_cases hshort : c ∈ ['"', '\\', '\x08', '\x0c', '\n', '\r', '\t']
  · left
    simp only [List.mem_cons, List.not_mem_nil, or_false] at hshort
    rcases hshort with rfl | rfl | rfl | rfl | rfl | rfl | rfl
    all_goals exact ⟨[_], rfl, fun cs => rfl⟩
  · simp only [List.mem_cons, List.not_mem_nil, or_false, not_or] at hshort
    obtain ⟨hquote, hback, hb, hf, hn, hr, ht⟩ := hshort
    by_cases hcontrol : c.toNat < 0x20
    · left
      refine ⟨_, ?_, takeEscape_control hcontrol⟩
      simp [writtenChar, *]
    · right
      refine ⟨?_, hquote, hback, hcontrol⟩
      simp [writtenChar, *]

theorem takeChars_writtenChar (c : Char) {cs text rest : List Char}
    (h : takeChars cs = .ok (text, rest)) :
    takeChars (writtenChar c ++ cs) = .ok (c :: text, rest) := by
  rcases writtenChar_cases c with ⟨escape, hwritten, hescape⟩ | ⟨hwritten, hquote, hback, hlow⟩
  · rw [hwritten, List.cons_append, takeChars.eq_3]
    split
    · rename_i hfault
      rw [hescape] at hfault
      cases hfault
    · rename_i htaken
      rw [hescape] at htaken
      cases htaken
      simp only [h]
  · rw [hwritten, List.singleton_append, takeChars.eq_4 c cs hquote hback, if_neg hlow]
    simp only [h]

theorem takeChars_written (text rest : List Char) :
    takeChars (text.flatMap writtenChar ++ '"' :: rest) = .ok (text, rest) := by
  induction text with
  | nil => rw [List.flatMap_nil, List.nil_append, takeChars.eq_2]
  | cons c text ih =>
    rw [List.flatMap_cons, List.append_assoc]
    exact takeChars_writtenChar c ih

/-- A string is taken off the text that begins behind its opening quote. -/
theorem takeString_written (s : String) (rest : List Char) :
    takeString (s.toList.flatMap writtenChar ++ '"' :: rest) = .ok (s, rest) := by
  simp only [takeString, takeChars_written, String.ofList_toList]

theorem written_append (s : String) (rest : List Char) :
    written s ++ rest = '"' :: (s.toList.flatMap writtenChar ++ '"' :: rest) := by
  simp [written]

/-! ## Values in a document -/

/-- What may follow a value in a document that is written without blanks. -/
def Follows (rest : List Char) : Prop :=
  ∀ c, rest.head? = some c → c = ',' ∨ c = ']' ∨ c = '\x7d'

/-- How the text of a value begins: not with a blank, and not like the end of a list. -/
def Begins (text : List Char) : Prop :=
  ∃ c tail, text = c :: tail ∧ isBlank c = false ∧ c ≠ ']'

theorem Begins.append {text : List Char} (hbegins : Begins text) (rest : List Char) :
    Begins (text ++ rest) := by
  obtain ⟨c, tail, rfl, hblank, hend⟩ := hbegins
  exact ⟨c, tail ++ rest, rfl, hblank, hend⟩

theorem follows_nil : Follows [] := by
  intro c hc
  cases hc

/-- Between the parts of a list or an object, and at its end, a value may end. -/
theorem follows_parts (parts : List (List Char)) {last : Char} (hlast : last = ']' ∨ last = '\x7d')
    (rest : List Char) : Follows (parts.flatMap (',' :: ·) ++ last :: rest) := by
  intro c hc
  cases parts with
  | nil =>
    cases hc
    exact Or.inr hlast
  | cons part parts =>
    cases hc
    exact Or.inl rfl

theorem intercalate_cons (first : List Char) (parts : List (List Char)) :
    [','].intercalate (first :: parts) = first ++ parts.flatMap (',' :: ·) := by
  induction parts generalizing first with
  | nil => simp [List.intercalate]
  | cons second parts ih =>
    have hnext := ih second
    simp only [List.intercalate, List.intersperse] at hnext ⊢
    simp [hnext]

theorem skipBlanks_of_not_blank {c : Char} (hc : isBlank c = false) (cs : List Char) :
    skipBlanks (c :: cs) = c :: cs := by
  simp [skipBlanks, hc]

namespace Reader

variable {α β : Type}

/-- A reader takes exactly this text off the front of a document, as this value. -/
structure Reads (r : Reader α) (text : List Char) (x : α) : Prop where
  begins : Begins text
  read : ∀ rest, Follows rest → r.read (text ++ rest) = .ok (x, rest)

variable {r : Reader α} {text : List Char} {x : α}

/-- A text that a reader reads as a value is a whole document of that value. -/
theorem Reads.document (hreads : r.Reads text x) : r.document (String.ofList text) = .ok x := by
  have hread := hreads.read [] follows_nil
  rw [List.append_nil] at hread
  simp [Reader.document, hread, skipBlanks]

theorem Reads.map (hreads : r.Reads text x) (f : α → β) : (r.map f).Reads text (f x) := by
  refine ⟨hreads.begins, ?_⟩
  intro rest hrest
  simp [Reader.map, hreads.read rest hrest, Except.map]

theorem Reads.filterMap (hreads : r.Reads text x) {f : α → Option β} {y : β}
    (hy : f x = some y) : (r.filterMap f).Reads text y := by
  refine ⟨hreads.begins, ?_⟩
  intro rest hrest
  simp [Reader.filterMap, hreads.read rest hrest, hy]

/-- A value that a test refuses makes a document of the wrong shape. -/
theorem Reads.document_filterMap_none (hreads : r.Reads text x) {f : α → Option β}
    (hnone : f x = none) : (r.filterMap f).document (String.ofList text) = .error .mismatch := by
  have hread := hreads.read [] follows_nil
  rw [List.append_nil] at hread
  simp [Reader.document, Reader.filterMap, hread, hnone]

/-- A string is read from what it is written as. -/
theorem reads_written (s : String) : string.Reads (written s) s := by
  refine ⟨⟨'"', _, rfl, rfl, by decide⟩, ?_⟩
  intro rest _
  have hskip := skipBlanks_of_not_blank (c := '"') rfl
  rw [written_append]
  simp only [string, hskip]
  exact takeString_written s rest

/-! ## Lists -/

theorem nextElement_first {cs : List Char} (hbegins : Begins cs) :
    ∃ after, nextElement true cs = .ok (some cs, after) := by
  obtain ⟨c, tail, rfl, hblank, hend⟩ := hbegins
  refine ⟨tail, ?_⟩
  unfold nextElement
  rw [skipBlanks_of_not_blank hblank]
  grind

theorem nextElement_later {cs : List Char} (hbegins : Begins cs) :
    ∃ after, nextElement false (',' :: cs) = .ok (some cs, after) := by
  obtain ⟨c, tail, rfl, hblank, hend⟩ := hbegins
  refine ⟨c :: tail, ?_⟩
  have hskip := skipBlanks_of_not_blank hblank tail
  unfold nextElement
  rw [skipBlanks_of_not_blank (c := ',') rfl]
  grind

theorem elements_end (r : Reader α) (first : Bool) (rest : List Char) :
    elements r first (']' :: rest) = .ok ([], rest) := by
  have hnext : nextElement first (']' :: rest) = .ok (none, rest) := rfl
  rw [elements.eq_def]
  grind

theorem elements_cons {first : Bool} {cs element after rest later : List Char} {xs : List α}
    (hnext : nextElement first cs = .ok (some element, after))
    (hread : r.read element = .ok (x, rest)) (hlater : elements r false rest = .ok (xs, later)) :
    elements r first cs = .ok (x :: xs, later) := by
  rw [elements.eq_def]
  grind

variable {write : α → List Char} {xs : List α}

/-- The elements after the first one, each behind its comma. -/
theorem elements_written (hreads : ∀ x ∈ xs, r.Reads (write x) x) (rest : List Char) :
    elements r false ((xs.map write).flatMap (',' :: ·) ++ ']' :: rest) = .ok (xs, rest) := by
  induction xs with
  | nil => exact elements_end r false rest
  | cons x xs ih =>
    have hx := hreads x List.mem_cons_self
    have hxs := ih fun y hy => hreads y (List.mem_cons_of_mem x hy)
    obtain ⟨after, hnext⟩ := nextElement_later (hx.begins.append _)
    rw [List.map_cons, List.flatMap_cons, List.append_assoc, List.cons_append]
    apply elements_cons hnext ?_ hxs
    apply hx.read
    exact follows_parts _ (Or.inl rfl) rest

/-- A list is read from what it is written as if its elements are. -/
theorem reads_writtenList (hreads : ∀ x ∈ xs, r.Reads (write x) x) :
    r.list.Reads (writtenList (xs.map write)) xs := by
  refine ⟨⟨'[', _, rfl, rfl, by decide⟩, ?_⟩
  intro rest _
  have hskip := skipBlanks_of_not_blank (c := '[') rfl
  simp only [list, writtenList, List.cons_append, hskip]
  cases xs with
  | nil => exact elements_end r true rest
  | cons x xs =>
    have hx := hreads x List.mem_cons_self
    have hxs := elements_written (fun y hy => hreads y (List.mem_cons_of_mem x hy)) rest
    obtain ⟨after, hnext⟩ := nextElement_first (hx.begins.append _)
    rw [List.map_cons, intercalate_cons, List.append_assoc, List.append_assoc]
    apply elements_cons hnext ?_ hxs
    apply hx.read
    exact follows_parts _ (Or.inl rfl) rest

end Reader

/-! ## Records -/

def memberText (member : String × List Char) : List Char := written member.1 ++ ':' :: member.2

theorem writtenObject_eq (members : List (String × List Char)) :
    writtenObject members = '\x7b' :: [','].intercalate (members.map memberText) ++ ['\x7d'] := rfl

namespace Member

variable {δ : Type}

/-- Members that are read one after the other take a draft to another one. Each has a name that a
member of the record has, and is given for the first time. -/
inductive Fills (ms : List (Member δ)) : δ → List (String × List Char) → δ → Prop
  | nil (draft : δ) : Fills ms draft [] draft
  | cons {draft result : δ} {m : Member δ} {name : String} {text : List Char} {change : δ → δ}
      {members : List (String × List Char)} (hfind : ms.find? (·.name = name) = some m)
      (hnew : m.given draft = false) (hreads : m.value.Reads text change)
      (hrest : Fills ms (change draft) members result) :
      Fills ms draft ((name, text) :: members) result

variable {ms : List (Member δ)} {draft result : δ}

theorem takeMember_written
    {m : Member δ} {name : String} {text : List Char} {change : δ → δ}
    (hfind : ms.find? (·.name = name) = some m) (hnew : m.given draft = false)
    (hreads : m.value.Reads text change) {rest : List Char} (hrest : Follows rest) :
    takeMember ms draft (name.toList.flatMap writtenChar ++ '"' :: ':' :: (text ++ rest)) =
      .ok (change draft, rest) := by
  have hcolon : takeColon (':' :: (text ++ rest)) = .ok (text ++ rest) := rfl
  simp only [takeMember, takeString_written, hfind, hnew, hcolon, Except.bind,
    hreads.read rest hrest, Bool.false_eq_true, if_false]

theorem takeMembers_end (first : Bool) (draft : δ) (rest : List Char) :
    takeMembers ms first draft ('\x7d' :: rest) = .ok (draft, rest) := by
  have hnext : nextMember first ('\x7d' :: rest) = .ok (none, rest) := rfl
  rw [takeMembers.eq_def]
  grind

theorem takeMembers_cons {first : Bool} {cs key after rest : List Char} {next : δ}
    (hnext : nextMember first cs = .ok (some key, after))
    (hmember : takeMember ms draft key = .ok (next, rest)) :
    takeMembers ms first draft cs = takeMembers ms false next rest := by
  rw [takeMembers.eq_def]
  grind

theorem memberText_append (name : String) (text rest : List Char) :
    memberText (name, text) ++ rest =
      '"' :: (name.toList.flatMap writtenChar ++ '"' :: ':' :: (text ++ rest)) := by
  simp [memberText, written]

/-- The members after the first one, each behind its comma. -/
theorem takeMembers_written {members : List (String × List Char)}
    (hfills : Fills ms draft members result) (rest : List Char) :
    takeMembers ms false draft ((members.map memberText).flatMap (',' :: ·) ++ '\x7d' :: rest) =
      .ok (result, rest) := by
  induction hfills with
  | nil draft => exact takeMembers_end false draft rest
  | @cons draft result m name text change members hfind hnew hreads _ ih =>
    rw [List.map_cons, List.flatMap_cons, List.append_assoc, List.cons_append, memberText_append,
      takeMembers_cons rfl (takeMember_written hfind hnew hreads
        (follows_parts _ (Or.inr rfl) rest))]
    exact ih

/-- The members of an object are taken off the text that begins behind its opening brace. -/
theorem takeMembers_object {members : List (String × List Char)}
    (hfills : Fills ms draft members result) (rest : List Char) :
    takeMembers ms true draft ([','].intercalate (members.map memberText) ++ '\x7d' :: rest) =
      .ok (result, rest) := by
  cases hfills with
  | nil draft => exact takeMembers_end true draft rest
  | @cons _ _ m name text change members hfind hnew hreads hrest =>
    rw [List.map_cons, intercalate_cons, List.append_assoc, memberText_append,
      takeMembers_cons rfl (takeMember_written hfind hnew hreads
        (follows_parts _ (Or.inr rfl) rest))]
    exact takeMembers_written hrest rest

/-- A record is read from the object that it is written as. -/
theorem reads_writtenObject {α : Type} {members : List (String × List Char)}
    (hfills : Fills ms draft members result) {finish : δ → Option α} {x : α}
    (hfinish : finish result = some x) :
    (Reader.record ms draft finish).Reads (writtenObject members) x := by
  have hbegins : Begins (writtenObject members) := ⟨'\x7b', _, rfl, rfl, by decide⟩
  refine Reader.Reads.filterMap ⟨hbegins, ?_⟩ hfinish
  intro rest _
  have hskip := skipBlanks_of_not_blank (c := '\x7b') rfl
  simp only [writtenObject_eq, List.cons_append, List.append_assoc, hskip]
  exact takeMembers_object hfills rest

end Member

end RollCall.Json
