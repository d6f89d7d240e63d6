import RollCall.Json.Value

/-!
# Readers of typed values

A reader takes a value of a known shape off the front of a text. Lists are read element by
element. A record is written as an object, whose members may stand in any order and among unknown
members, or as a list of its members in their own order; members that are left out keep the draft
as it is, and the finished draft says whether enough was given.

Main statement: a reader takes at least one character (`Reader.shorter`, part of every reader).
-/

namespace RollCall.Json

/-- A way to take a value off the front of a text. -/
structure Reader (α : Type) where
  read : List Char → Taken α
  shorter : ∀ {cs rest : List Char} {x : α}, read cs = .ok (x, rest) → rest.length < cs.length

namespace Reader

/-- The value that a document consists of. -/
def document {α : Type} (r : Reader α) (text : String) : Except Fault α :=
  match r.read text.toList with
  | .error e => .error e
  | .ok (x, rest) => if (skipBlanks rest).isEmpty then .ok x else .error .malformed

def map {α β : Type} (f : α → β) (r : Reader α) : Reader β where
  read cs := (r.read cs).map fun (x, rest) => (f x, rest)
  shorter {cs rest x} h := by
    obtain ⟨⟨a, rest'⟩, ha, he⟩ := exists_of_map_eq_ok h
    cases he
    exact r.shorter ha

/-- The value that a test accepts; any other has the wrong shape. -/
def filterMap {α β : Type} (f : α → Option β) (r : Reader α) : Reader β where
  read cs :=
    match r.read cs with
    | .error e => .error e
    | .ok (x, rest) =>
      match f x with
      | none => .error .mismatch
      | some y => .ok (y, rest)
  shorter {cs rest x} h := by
    split at h
    · cases h
    · rename_i ha
      split at h
      · cases h
      · cases h
        exact r.shorter ha

def string : Reader String where
  read cs :=
    match skipBlanks cs with
    | '"' :: rest => takeString rest
    | cs => .error (refusal cs)
  shorter {cs rest x} h := by
    split at h
    · rename_i hb
      exact Nat.lt_trans (takeString_length h) (length_lt_of_skipBlanks hb)
    · cases h

def number : Reader Number where
  read cs :=
    match skipBlanks cs with
    | [] => .error .ended
    | c :: rest =>
      if c = '-' ∨ Text.isDigit c then takeNumber (c :: rest) else .error (refusal (c :: rest))
  shorter {cs rest x} h := by
    split at h
    · cases h
    · rename_i hb
      split at h
      · have := takeNumber_length h
        have hle := skipBlanks_length_le cs
        rw [hb] at hle
        omega
      · cases h

def real : Reader Binary64 := number.map Number.toBinary64

/-- A whole number below 2⁶⁴, written without sign, fraction and exponent. -/
def natural : Reader Nat :=
  number.filterMap fun
    | .natural n => some n
    | .real _ => none

/-- Where the next element of a list begins: none after the last. A comma stands before every
element but the first. -/
def nextElement (first : Bool) (cs : List Char) : Except Fault (Option (List Char) × List Char) :=
  match skipBlanks cs with
  | [] => .error .ended
  | ']' :: rest => .ok (none, rest)
  | c :: rest =>
    if first then .ok (some (c :: rest), rest)
    else if c = ',' then
      match skipBlanks rest with
      | [] => .error .ended
      | ']' :: _ => .error .malformed
      | element => .ok (some element, element)
    else .error .malformed

theorem nextElement_length {first : Bool} {cs element after : List Char}
    (h : nextElement first cs = .ok (some element, after)) : element.length ≤ cs.length := by
  have hle := skipBlanks_length_le cs
  unfold nextElement at h
  split at h
  · cases h
  · cases h
  · rename_i c rest hne hb
    rw [hb, List.length_cons] at hle
    split at h
    · cases h
      exact hle
    · split at h
      · have hle' := skipBlanks_length_le rest
        split at h
        · cases h
        · cases h
        · cases h
          omega
      · cases h

theorem nextElement_end_length {first : Bool} {cs after : List Char}
    (h : nextElement first cs = .ok (none, after)) : after.length < cs.length := by
  unfold nextElement at h
  split at h
  · cases h
  · rename_i hb
    cases h
    exact length_lt_of_skipBlanks hb
  · split at h
    · cases h
    · split at h
      · split at h <;> cases h
      · cases h

def elements {α : Type} (r : Reader α) (first : Bool) (cs : List Char) : Taken (List α) :=
  match _hn : nextElement first cs with
  | .error e => .error e
  | .ok (none, rest) => .ok ([], rest)
  | .ok (some element, _) =>
    match _hr : r.read element with
    | .error e => .error e
    | .ok (x, rest) =>
      match elements r false rest with
      | .error e => .error e
      | .ok (xs, after) => .ok (x :: xs, after)
termination_by cs.length
decreasing_by exact Nat.lt_of_lt_of_le (r.shorter _hr) (nextElement_length _hn)

theorem elements_length {α : Type} {r : Reader α} {first : Bool} {cs rest : List Char}
    {xs : List α} (h : elements r first cs = .ok (xs, rest)) : rest.length < cs.length := by
  induction hn : cs.length using Nat.strongRecOn generalizing first cs xs rest with
  | ind n ih =>
      subst hn
      rw [elements.eq_def] at h
      split at h
      · cases h
      · rename_i hs
        cases h
        exact nextElement_end_length hs
      · rename_i hs
        split at h
        · cases h
        · rename_i hr
          have hlt := Nat.lt_of_lt_of_le (r.shorter hr) (nextElement_length hs)
          split at h
          · cases h
          · rename_i hrec
            cases h
            exact Nat.lt_trans (ih _ hlt hrec rfl) hlt

def list {α : Type} (r : Reader α) : Reader (List α) where
  read cs :=
    match skipBlanks cs with
    | '[' :: rest => elements r true rest
    | cs => .error (refusal cs)
  shorter {cs rest x} h := by
    split at h
    · rename_i hb
      exact Nat.lt_trans (elements_length h) (length_lt_of_skipBlanks hb)
    · cases h

end Reader

/-- A member of a record: its name, whether a draft has it, and how its value changes a draft. -/
structure Member (δ : Type) where
  name : String
  given : δ → Bool
  value : Reader (δ → δ)

namespace Member

variable {δ : Type}

/-- The members that a record written as a list begins with, in their own order. -/
def takeListed (first : Bool) (draft : δ) : List (Member δ) → List Char → Taken δ
  | [], cs =>
    match skipBlanks cs with
    | [] => .error .ended
    | ']' :: rest => .ok (draft, rest)
    | _ => .error .malformed
  | m :: ms, cs =>
    match Reader.nextElement first cs with
    | .error e => .error e
    | .ok (none, rest) => .ok (draft, rest)
    | .ok (some element, _) =>
      match m.value.read element with
      | .error e => .error e
      | .ok (change, rest) => takeListed false (change draft) ms rest

theorem takeListed_length {first : Bool} {draft result : δ} {ms : List (Member δ)}
    {cs rest : List Char} (h : takeListed first draft ms cs = .ok (result, rest)) :
    rest.length < cs.length := by
  induction ms generalizing first draft cs with
  | nil =>
      unfold takeListed at h
      split at h
      · cases h
      · rename_i hb
        cases h
        exact length_lt_of_skipBlanks hb
      · cases h
  | cons m ms ih =>
      unfold takeListed at h
      split at h
      · cases h
      · rename_i hs
        cases h
        exact Reader.nextElement_end_length hs
      · rename_i hs
        split at h
        · cases h
        · rename_i hr
          have := ih h
          have := m.value.shorter hr
          have := Reader.nextElement_length hs
          omega

/-- Where the next member of an object begins, after its opening quote: none after the last. -/
def nextMember (first : Bool) (cs : List Char) : Except Fault (Option (List Char) × List Char) :=
  let quoted : List Char → Except Fault (Option (List Char) × List Char)
    | '"' :: rest => .ok (some rest, rest)
    | _ => .error .malformed
  match skipBlanks cs with
  | [] => .error .ended
  | '\x7d' :: rest => .ok (none, rest)
  | c :: rest =>
    if first then quoted (c :: rest)
    else if c = ',' then
      match skipBlanks rest with
      | [] => .error .ended
      | key => quoted key
    else .error .malformed

theorem nextMember_length {first : Bool} {cs key after : List Char}
    (h : nextMember first cs = .ok (some key, after)) : key.length < cs.length := by
  have hle := skipBlanks_length_le cs
  simp only [nextMember] at h
  split at h
  · cases h
  · cases h
  · rename_i c rest hne hb
    rw [hb, List.length_cons] at hle
    split at h
    · split at h
      · rename_i heq
        cases h
        cases heq
        exact hle
      · cases h
    · split at h
      · have hle' := skipBlanks_length_le rest
        split at h
        · cases h
        · split at h
          · rename_i heq
            cases h
            rw [heq, List.length_cons] at hle'
            omega
          · cases h
      · cases h

theorem nextMember_end_length {first : Bool} {cs after : List Char}
    (h : nextMember first cs = .ok (none, after)) : after.length < cs.length := by
  simp only [nextMember] at h
  split at h
  · cases h
  · rename_i hb
    cases h
    exact length_lt_of_skipBlanks hb
  · repeat' split at h
    all_goals cases h

/-- One member of an object, after its opening quote. A name that no member has is passed over
with its value; a member that is given twice is a fault before its value is read. -/
def takeMember (ms : List (Member δ)) (draft : δ) (cs : List Char) : Taken δ :=
  match takeString cs with
  | .error e => .error e
  | .ok (key, rest) =>
    match ms.find? (·.name = key) with
    | none => ((takeColon rest).bind passValue).map (draft, ·)
    | some m =>
      if m.given draft then .error .mismatch
      else
        match (takeColon rest).bind m.value.read with
        | .error e => .error e
        | .ok (change, rest) => .ok (change draft, rest)

/-- What is taken as a member is a name, a colon and a value, which is passed over if the name is
unknown. -/
theorem takeMember_cases {ms : List (Member δ)} {draft result : δ} {cs rest : List Char}
    (h : takeMember ms draft cs = .ok (result, rest)) :
    ∃ key after value, takeString cs = .ok (key, after) ∧ takeColon after = .ok value ∧
      ((passValue value = .ok rest ∧ result = draft) ∨
        ∃ m ∈ ms, ∃ change, m.value.read value = .ok (change, rest) ∧ result = change draft) := by
  unfold takeMember at h
  split at h
  · cases h
  · rename_i key after hkey
    split at h
    · obtain ⟨rest', hbind, heq⟩ := exists_of_map_eq_ok h
      cases heq
      obtain ⟨value, hcolon, hpass⟩ := exists_of_bind_eq_ok hbind
      exact ⟨key, after, value, hkey, hcolon, .inl ⟨hpass, rfl⟩⟩
    · rename_i m hfind
      split at h
      · cases h
      · split at h
        · cases h
        · rename_i change rest' hbind
          cases h
          obtain ⟨value, hcolon, hread⟩ := exists_of_bind_eq_ok hbind
          exact ⟨key, after, value, hkey, hcolon,
            .inr ⟨m, List.mem_of_find?_eq_some hfind, change, hread, rfl⟩⟩

theorem takeMember_length {ms : List (Member δ)} {draft result : δ} {cs rest : List Char}
    (h : takeMember ms draft cs = .ok (result, rest)) : rest.length < cs.length := by
  obtain ⟨key, after, value, hkey, hcolon, ⟨hpass, -⟩ | ⟨m, -, change, hread, -⟩⟩ :=
    takeMember_cases h
  · have := takeString_length hkey
    have := takeColon_length hcolon
    have := passValue_length hpass
    omega
  · have := takeString_length hkey
    have := takeColon_length hcolon
    have := m.value.shorter hread
    omega

/-- The members of an object up to its closing brace. -/
def takeMembers (ms : List (Member δ)) (first : Bool) (draft : δ) (cs : List Char) : Taken δ :=
  match _hn : nextMember first cs with
  | .error e => .error e
  | .ok (none, rest) => .ok (draft, rest)
  | .ok (some key, _) =>
    match _hm : takeMember ms draft key with
    | .error e => .error e
    | .ok (draft, rest) => takeMembers ms false draft rest
termination_by cs.length
decreasing_by exact Nat.lt_trans (takeMember_length _hm) (nextMember_length _hn)

theorem takeMembers_length {ms : List (Member δ)} {first : Bool} {draft result : δ}
    {cs rest : List Char} (h : takeMembers ms first draft cs = .ok (result, rest)) :
    rest.length < cs.length := by
  induction hn : cs.length using Nat.strongRecOn generalizing first draft cs with
  | ind n ih =>
      subst hn
      rw [takeMembers.eq_def] at h
      split at h
      · cases h
      · rename_i hs
        cases h
        exact nextMember_end_length hs
      · rename_i hs
        split at h
        · cases h
        · rename_i hm
          have hlt := Nat.lt_trans (takeMember_length hm) (nextMember_length hs)
          exact Nat.lt_trans (ih _ hlt h rfl) hlt

end Member

/-- A record: an object, or a list of its members in their own order. What the finished draft does
not accept has the wrong shape. -/
def Reader.record {δ α : Type} (members : List (Member δ)) (draft : δ) (finish : δ → Option α) :
    Reader α :=
  let taken : Reader δ :=
    { read := fun cs =>
        match skipBlanks cs with
        | '[' :: rest => Member.takeListed true draft members rest
        | '\x7b' :: rest => Member.takeMembers members true draft rest
        | cs => .error (refusal cs)
      shorter := fun {cs rest x} h => by
        split at h
        · rename_i hb
          exact Nat.lt_trans (Member.takeListed_length h) (length_lt_of_skipBlanks hb)
        · rename_i hb
          exact Nat.lt_trans (Member.takeMembers_length h) (length_lt_of_skipBlanks hb)
        · cases h }
  taken.filterMap finish

def writtenObject (members : List (String × List Char)) : List Char :=
  let member : String × List Char → List Char := fun (name, value) => written name ++ ':' :: value
  '\x7b' :: [','].intercalate (members.map member) ++ ['\x7d']

def writtenList (elements : List (List Char)) : List Char :=
  '[' :: [','].intercalate elements ++ [']']

end RollCall.Json
