import RollCall.Json.Fault

/-!
# Quoted strings of a document

Writing a string in quotes, reading one, and passing over one. A string that is read must be
text, so a character beyond the first plane is one pair of surrogate escapes and no surrogate
stands alone; a string that is only passed over needs four hexadecimal digits after `\u` and no
more.

Main statements: `takeString_length` and `passString_length` (something is always taken).
-/

namespace RollCall.Json

def hexValue? (c : Char) : Option Nat :=
  if 48 ≤ c.toNat && c.toNat ≤ 57 then some (c.toNat - 48)
  else if 97 ≤ c.toNat && c.toNat ≤ 102 then some (c.toNat - 87)
  else if 65 ≤ c.toNat && c.toNat ≤ 70 then some (c.toNat - 55)
  else none

def byteCount (cs : List Char) : Nat := cs.foldl (fun n c => n + c.utf8Size) 0

/-- Four hexadecimal digits. A text of fewer than four bytes ends too early, whatever it holds. -/
def takeHex : List Char → Taken Nat
  | a :: b :: c :: d :: rest =>
    match hexValue? a, hexValue? b, hexValue? c, hexValue? d with
    | some a, some b, some c, some d => .ok (((a * 16 + b) * 16 + c) * 16 + d, rest)
    | _, _, _, _ => .error .malformed
  | cs => if byteCount cs < 4 then .error .ended else .error .malformed

theorem takeHex_length {cs rest : List Char} {n : Nat} (h : takeHex cs = .ok (n, rest)) :
    rest.length < cs.length := by
  unfold takeHex at h
  split at h
  · split at h
    · cases h
      simp only [List.length_cons]
      omega
    · cases h
  · split at h <;> cases h

/-- The character that a letter stands for after a backslash. -/
def shortEscape? (c : Char) : Option Char :=
  if c = '"' ∨ c = '\\' ∨ c = '/' then some c
  else if c = 'b' then some '\x08'
  else if c = 'f' then some '\x0c'
  else if c = 'n' then some '\n'
  else if c = 'r' then some '\r'
  else if c = 't' then some '\t'
  else none

/-- The second half of a surrogate pair, after the four digits of the first. -/
def takeLowSurrogate (high : Nat) : List Char → Taken Char
  | [] => .error .ended
  | ['\\'] => .error .ended
  | '\\' :: 'u' :: cs =>
    match takeHex cs with
    | .error e => .error e
    | .ok (low, rest) =>
      if 0xdc00 ≤ low ∧ low ≤ 0xdfff then
        .ok (Char.ofNat (0x10000 + (high - 0xd800) * 0x400 + (low - 0xdc00)), rest)
      else .error .malformed
  | _ => .error .malformed

/-- The character that an escape stands for, after its backslash. -/
def takeEscape : List Char → Taken Char
  | [] => .error .ended
  | 'u' :: cs =>
    match takeHex cs with
    | .error e => .error e
    | .ok (n, rest) =>
      if 0xdc00 ≤ n ∧ n ≤ 0xdfff then .error .malformed
      else if 0xd800 ≤ n ∧ n ≤ 0xdbff then takeLowSurrogate n rest
      else .ok (Char.ofNat n, rest)
  | c :: cs =>
    match shortEscape? c with
    | some e => .ok (e, cs)
    | none => .error .malformed

theorem takeLowSurrogate_length {high : Nat} {cs rest : List Char} {c : Char}
    (h : takeLowSurrogate high cs = .ok (c, rest)) : rest.length < cs.length := by
  unfold takeLowSurrogate at h
  split at h
  · cases h
  · cases h
  · split at h
    · cases h
    · rename_i hx
      split at h
      · simp only [Except.ok.injEq, Prod.mk.injEq] at h
        obtain ⟨-, rfl⟩ := h
        have := takeHex_length hx
        simp only [List.length_cons]
        omega
      · cases h
  · cases h

theorem takeEscape_length {cs rest : List Char} {c : Char} (h : takeEscape cs = .ok (c, rest)) :
    rest.length < cs.length := by
  unfold takeEscape at h
  split at h
  · cases h
  · split at h
    · cases h
    · rename_i hx
      have hlt := takeHex_length hx
      split at h
      · cases h
      · split at h
        · have := takeLowSurrogate_length h
          simp only [List.length_cons]
          omega
        · cases h
          simp only [List.length_cons]
          omega
  · split at h
    · cases h
      simp
    · cases h

def takeChars (cs : List Char) : Taken (List Char) :=
  match cs with
  | [] => .error .ended
  | '"' :: rest => .ok ([], rest)
  | '\\' :: rest =>
    match _h : takeEscape rest with
    | .error e => .error e
    | .ok (c, rest') =>
      match takeChars rest' with
      | .error e => .error e
      | .ok (text, after) => .ok (c :: text, after)
  | c :: rest =>
    if c.toNat < 0x20 then .error .malformed
    else
      match takeChars rest with
      | .error e => .error e
      | .ok (text, after) => .ok (c :: text, after)
termination_by cs.length
decreasing_by
  · have := takeEscape_length _h
    simp only [List.length_cons]
    omega
  · simp

theorem takeChars_length {cs rest text : List Char} (h : takeChars cs = .ok (text, rest)) :
    rest.length < cs.length := by
  induction hn : cs.length using Nat.strongRecOn generalizing cs text rest with
  | ind n ih =>
      subst hn
      rw [takeChars.eq_def] at h
      split at h
      · cases h
      · cases h
        simp
      · split at h
        · cases h
        · rename_i hesc
          have hlt := takeEscape_length hesc
          split at h
          · cases h
          · rename_i hrec
            cases h
            have := ih _ (by simp only [List.length_cons]; omega) hrec rfl
            simp only [List.length_cons]
            omega
      · split at h
        · cases h
        · split at h
          · cases h
          · rename_i hrec
            cases h
            have := ih _ (by simp) hrec rfl
            simp only [List.length_cons]
            omega

def takeString (cs : List Char) : Taken String :=
  match takeChars cs with
  | .error e => .error e
  | .ok (text, rest) => .ok (String.ofList text, rest)

theorem takeString_length {cs rest : List Char} {s : String} (h : takeString cs = .ok (s, rest)) :
    rest.length < cs.length := by
  unfold takeString at h
  split at h
  · cases h
  · rename_i hc
    cases h
    exact takeChars_length hc

def passEscape : List Char → Except Fault (List Char)
  | [] => .error .ended
  | 'u' :: cs => (takeHex cs).map (·.2)
  | c :: cs => if (shortEscape? c).isSome then .ok cs else .error .malformed

theorem passEscape_length {cs rest : List Char} (h : passEscape cs = .ok rest) :
    rest.length < cs.length := by
  unfold passEscape at h
  split at h
  · cases h
  · rename_i cs
    cases hx : takeHex cs with
    | error e => simp [hx, Except.map] at h
    | ok p =>
        obtain ⟨n, r⟩ := p
        simp only [hx, Except.map, Except.ok.injEq] at h
        subst h
        have := takeHex_length hx
        simp only [List.length_cons]
        omega
  · split at h
    · cases h
      simp
    · cases h

def passString (cs : List Char) : Except Fault (List Char) :=
  match cs with
  | [] => .error .ended
  | '"' :: rest => .ok rest
  | '\\' :: rest =>
    match _h : passEscape rest with
    | .error e => .error e
    | .ok rest' => passString rest'
  | c :: rest => if c.toNat < 0x20 then .error .malformed else passString rest
termination_by cs.length
decreasing_by
  · have := passEscape_length _h
    simp only [List.length_cons]
    omega
  · simp

theorem passString_length {cs rest : List Char} (h : passString cs = .ok rest) :
    rest.length < cs.length := by
  induction hn : cs.length using Nat.strongRecOn generalizing cs with
  | ind n ih =>
      subst hn
      rw [passString.eq_def] at h
      split at h
      · cases h
      · cases h
        simp
      · split at h
        · cases h
        · rename_i hesc
          have hlt := passEscape_length hesc
          have := ih _ (by simp only [List.length_cons]; omega) h rfl
          simp only [List.length_cons]
          omega
      · split at h
        · cases h
        · have := ih _ (by simp) h rfl
          simp only [List.length_cons]
          omega

/-- One character of a string that is written: an escape for a quote, a backslash and everything
below the space. -/
def writtenChar (c : Char) : List Char :=
  if c = '"' then ['\\', '"']
  else if c = '\\' then ['\\', '\\']
  else if c = '\x08' then ['\\', 'b']
  else if c = '\x0c' then ['\\', 'f']
  else if c = '\n' then ['\\', 'n']
  else if c = '\r' then ['\\', 'r']
  else if c = '\t' then ['\\', 't']
  else if c.toNat < 0x20 then
    ['\\', 'u', '0', '0', Nat.digitChar (c.toNat / 16), Nat.digitChar (c.toNat % 16)]
  else [c]

def written (s : String) : List Char := '"' :: s.toList.flatMap writtenChar ++ ['"']

end RollCall.Json
