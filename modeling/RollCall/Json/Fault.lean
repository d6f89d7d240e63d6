/-!
# What can be wrong with a document

A document is read from left to right and the first fault ends the reading. A reader takes a
value off the front of a text and hands back what follows it; it never succeeds without taking
at least one character, which is why every loop over readers ends.
-/

namespace RollCall.Json

/-- Why a text cannot be read as the document that is asked for. -/
inductive Fault
  | ended
  | malformed
  /-- The text begins like a document, but not one of the shape that is asked for. -/
  | mismatch
  deriving DecidableEq

theorem exists_of_map_eq_ok {α β : Type} {f : α → β} {r : Except Fault α} {b : β}
    (h : r.map f = .ok b) : ∃ a, r = .ok a ∧ f a = b := by
  cases r with
  | error e => cases h
  | ok a => exact ⟨a, rfl, Except.ok.inj h⟩

theorem exists_of_bind_eq_ok {α β : Type} {f : α → Except Fault β} {r : Except Fault α} {b : β}
    (h : r.bind f = .ok b) : ∃ a, r = .ok a ∧ f a = .ok b := by
  cases r with
  | error e => cases h
  | ok a => exact ⟨a, rfl, h⟩

/-- The blanks that may stand between the parts of a document. -/
def isBlank (c : Char) : Bool := c = ' ' || c = '\t' || c = '\n' || c = '\r'

/-- The text from its first character that is not blank. -/
def skipBlanks (cs : List Char) : List Char := cs.dropWhile isBlank

theorem skipBlanks_length_le (cs : List Char) : (skipBlanks cs).length ≤ cs.length :=
  (List.dropWhile_suffix isBlank).length_le

theorem length_lt_of_skipBlanks {cs rest : List Char} {c : Char} (h : skipBlanks cs = c :: rest) :
    rest.length < cs.length := by
  have hle := skipBlanks_length_le cs
  rw [h] at hle
  exact hle

/-- The outcome of taking a value off the front of a text. -/
abbrev Taken (α : Type) := Except Fault (α × List Char)

def takeWord : List Char → List Char → Except Fault (List Char)
  | [], cs => .ok cs
  | _ :: _, [] => .error .ended
  | w :: ws, c :: cs => if c = w then takeWord ws cs else .error .malformed

theorem takeWord_length {ws cs rest : List Char} (h : takeWord ws cs = .ok rest) :
    rest.length ≤ cs.length := by
  induction ws generalizing cs with
  | nil =>
      cases h
      exact Nat.le_refl _
  | cons w ws ih =>
      cases cs with
      | nil => cases h
      | cons c cs =>
          rw [takeWord] at h
          split at h
          · exact Nat.le_succ_of_le (ih h)
          · cases h

/-- The text after the colon that follows a member's name. -/
def takeColon (cs : List Char) : Except Fault (List Char) :=
  match skipBlanks cs with
  | [] => .error .ended
  | ':' :: rest => .ok rest
  | _ => .error .malformed

theorem takeColon_length {cs rest : List Char} (h : takeColon cs = .ok rest) :
    rest.length < cs.length := by
  simp only [takeColon] at h
  split at h
  · cases h
  · rename_i hb
    cases h
    exact length_lt_of_skipBlanks hb
  · cases h

end RollCall.Json
