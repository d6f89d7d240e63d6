import RollCall.Json.Quote
import RollCall.Json.Numeral

/-!
# Values of any shape

Passing over a value of which only the form matters, to any depth: the brackets that are open are
kept in a list, so that no nesting is too deep. And the fault of a value that has not the shape
asked for: words, numbers and strings are read to their end first, so that their own faults win;
brackets are refused at once.

Main statement: `passValue_length` (something is always taken).
-/

namespace RollCall.Json

inductive Bracket
  | square
  | curly
  deriving DecidableEq

/-- The text after a word, a number or a string that is only passed over; none if the text does
not begin with one. -/
def passScalar? : List Char → Option (Except Fault (List Char))
  | 'n' :: cs => some (takeWord ['u', 'l', 'l'] cs)
  | 't' :: cs => some (takeWord ['r', 'u', 'e'] cs)
  | 'f' :: cs => some (takeWord ['a', 'l', 's', 'e'] cs)
  | '"' :: cs => some (passString cs)
  | c :: cs => if c = '-' ∨ Text.isDigit c then some (passNumber (c :: cs)) else none
  | [] => none

theorem passScalar?_length {cs rest : List Char} (h : passScalar? cs = some (.ok rest)) :
    rest.length < cs.length := by
  unfold passScalar? at h
  split at h
  · exact Nat.lt_succ_of_le (takeWord_length (Option.some.inj h))
  · exact Nat.lt_succ_of_le (takeWord_length (Option.some.inj h))
  · exact Nat.lt_succ_of_le (takeWord_length (Option.some.inj h))
  · exact Nat.lt_succ_of_lt (passString_length (Option.some.inj h))
  · split at h
    · exact passNumber_length (Option.some.inj h)
    · cases h
  · cases h

def passKey (cs : List Char) : Except Fault (List Char) :=
  match skipBlanks cs with
  | [] => .error .ended
  | '"' :: rest => (passString rest).bind takeColon
  | _ => .error .malformed

theorem passKey_length {cs rest : List Char} (h : passKey cs = .ok rest) :
    rest.length < cs.length := by
  unfold passKey at h
  split at h
  · cases h
  · rename_i r hb
    have hlt := length_lt_of_skipBlanks hb
    obtain ⟨after, hs, hc⟩ := exists_of_bind_eq_ok h
    have := passString_length hs
    have := takeColon_length hc
    omega
  · cases h

/-- Where in a value the reading stands. -/
inductive Place
  | value
  | opened
  | closed

/-- What is still to be passed over: the place, the open brackets with the innermost first, and
the text. -/
structure Pending where
  place : Place
  brackets : List Bracket
  text : List Char

namespace Pending

/-- A step that opens a bracket takes its character; one that finds the bracket not empty takes
nothing but leaves the opened bracket behind. -/
def measure (p : Pending) : Nat :=
  2 * p.text.length + match p.place with
    | .opened => 1
    | _ => 0

def enterValue (brackets : List Bracket) (cs : List Char) : Except Fault Pending :=
  match cs with
  | [] => .error .ended
  | '[' :: rest => .ok ⟨.opened, .square :: brackets, rest⟩
  | '\x7b' :: rest => .ok ⟨.opened, .curly :: brackets, rest⟩
  | cs =>
    match passScalar? cs with
    | none => .error .malformed
    | some outcome => outcome.map (⟨.closed, brackets, ·⟩)

def enterBracket (bracket : Bracket) (outer : List Bracket) (cs : List Char) :
    Except Fault Pending :=
  match bracket, cs with
  | _, [] => .error .ended
  | .square, ']' :: rest => .ok ⟨.closed, outer, rest⟩
  | .curly, '\x7d' :: rest => .ok ⟨.closed, outer, rest⟩
  | .square, cs => .ok ⟨.value, .square :: outer, cs⟩
  | .curly, cs => (passKey cs).map (⟨.value, .curly :: outer, ·⟩)

def leaveValue (bracket : Bracket) (outer : List Bracket) (cs : List Char) :
    Except Fault Pending :=
  match bracket, cs with
  | _, [] => .error .ended
  | .square, ']' :: rest => .ok ⟨.closed, outer, rest⟩
  | .curly, '\x7d' :: rest => .ok ⟨.closed, outer, rest⟩
  | .square, ',' :: rest => .ok ⟨.value, .square :: outer, rest⟩
  | .curly, ',' :: rest => (passKey rest).map (⟨.value, .curly :: outer, ·⟩)
  | _, _ => .error .malformed

def step (p : Pending) : Except Fault (Pending ⊕ List Char) :=
  match p.place, p.brackets with
  | .value, brackets => (enterValue brackets (skipBlanks p.text)).map .inl
  | .opened, bracket :: outer => (enterBracket bracket outer (skipBlanks p.text)).map .inl
  | .closed, bracket :: outer => (leaveValue bracket outer (skipBlanks p.text)).map .inl
  | _, [] => .ok (.inr p.text)

theorem enterValue_length {brackets : List Bracket} {cs : List Char} {q : Pending}
    (h : enterValue brackets cs = .ok q) : q.text.length < cs.length := by
  unfold enterValue at h
  split at h
  · cases h
  · cases h
    exact Nat.lt_succ_self _
  · cases h
    exact Nat.lt_succ_self _
  · split at h
    · cases h
    · rename_i hs
      obtain ⟨rest, rfl, rfl⟩ := exists_of_map_eq_ok h
      exact passScalar?_length hs

theorem enterBracket_measure {bracket : Bracket} {outer : List Bracket} {cs : List Char}
    {q : Pending} (h : enterBracket bracket outer cs = .ok q) :
    q.measure < 2 * cs.length + 1 := by
  unfold enterBracket at h
  split at h
  · cases h
  · cases h
    simp only [measure, List.length_cons]
    omega
  · cases h
    simp only [measure, List.length_cons]
    omega
  · cases h
    simp only [measure]
    omega
  · obtain ⟨rest, hk, rfl⟩ := exists_of_map_eq_ok h
    have := passKey_length hk
    simp only [measure]
    omega

theorem leaveValue_measure {bracket : Bracket} {outer : List Bracket} {cs : List Char}
    {q : Pending} (h : leaveValue bracket outer cs = .ok q) : q.measure < 2 * cs.length := by
  unfold leaveValue at h
  split at h
  · cases h
  · cases h
    simp only [measure, List.length_cons]
    omega
  · cases h
    simp only [measure, List.length_cons]
    omega
  · cases h
    simp only [measure, List.length_cons]
    omega
  · obtain ⟨rest, hk, rfl⟩ := exists_of_map_eq_ok h
    have := passKey_length hk
    simp only [measure, List.length_cons]
    omega
  · cases h

theorem step_measure {p q : Pending} (h : p.step = .ok (.inl q)) : q.measure < p.measure := by
  obtain ⟨place, brackets, text⟩ := p
  have hb := skipBlanks_length_le text
  cases place with
  | value =>
      obtain ⟨q', hq, hi⟩ := exists_of_map_eq_ok h
      cases hi
      have hl : q.text.length < (skipBlanks text).length := enterValue_length hq
      have hm : q.measure ≤ 2 * q.text.length + 1 := by
        simp only [measure]
        split <;> omega
      simp only [measure] at hm ⊢
      omega
  | opened =>
      cases brackets with
      | nil => cases h
      | cons bracket outer =>
          obtain ⟨q', hq, hi⟩ := exists_of_map_eq_ok h
          cases hi
          have := enterBracket_measure hq
          simp only [measure] at this ⊢
          omega
  | closed =>
      cases brackets with
      | nil => cases h
      | cons bracket outer =>
          obtain ⟨q', hq, hi⟩ := exists_of_map_eq_ok h
          cases hi
          have := leaveValue_measure hq
          simp only [measure] at this ⊢
          omega

theorem step_text {p : Pending} {rest : List Char} (h : p.step = .ok (.inr rest)) :
    p.text = rest ∧ p.brackets = [] ∧ p.place ≠ .value := by
  obtain ⟨place, brackets, text⟩ := p
  cases place with
  | value =>
      obtain ⟨q', hq, hi⟩ := exists_of_map_eq_ok h
      cases hi
  | opened =>
      cases brackets with
      | nil =>
          cases h
          exact ⟨rfl, rfl, by simp⟩
      | cons bracket outer =>
          obtain ⟨q', hq, hi⟩ := exists_of_map_eq_ok h
          cases hi
  | closed =>
      cases brackets with
      | nil =>
          cases h
          exact ⟨rfl, rfl, by simp⟩
      | cons bracket outer =>
          obtain ⟨q', hq, hi⟩ := exists_of_map_eq_ok h
          cases hi

/-- The text after everything that is pending. -/
def pass (p : Pending) : Except Fault (List Char) :=
  match _h : p.step with
  | .error e => .error e
  | .ok (.inr rest) => .ok rest
  | .ok (.inl q) => pass q
termination_by p.measure
decreasing_by exact step_measure _h

theorem pass_length {p : Pending} {rest : List Char} (h : p.pass = .ok rest) :
    2 * rest.length ≤ p.measure := by
  induction hn : p.measure using Nat.strongRecOn generalizing p with
  | ind n ih =>
      subst hn
      rw [pass.eq_def] at h
      split at h
      · cases h
      · rename_i hs
        cases h
        rw [← (step_text hs).1]
        exact Nat.le_add_right _ _
      · rename_i hs
        have hlt := step_measure hs
        have := ih _ hlt h rfl
        omega

end Pending

/-- The text after a value of any shape. -/
def passValue (cs : List Char) : Except Fault (List Char) := Pending.pass ⟨.value, [], cs⟩

theorem passValue_length {cs rest : List Char} (h : passValue cs = .ok rest) :
    rest.length < cs.length := by
  rw [passValue, Pending.pass.eq_def] at h
  split at h
  · cases h
  · rename_i hs
    exact absurd rfl (Pending.step_text hs).2.2
  · rename_i q hs
    have h2 := Pending.pass_length h
    have hm := Pending.step_measure hs
    simp only [Pending.measure] at hm
    have : 2 * rest.length < 2 * cs.length := Nat.lt_of_le_of_lt h2 hm
    omega

/-- The fault of a value that has not the shape asked for. The text is not blank in front. -/
def refusal (cs : List Char) : Fault :=
  let faultOf {α : Type} : Except Fault α → Fault
    | .error e => e
    | .ok _ => .mismatch
  match cs with
  | [] => .ended
  | 'n' :: rest => faultOf (takeWord ['u', 'l', 'l'] rest)
  | 't' :: rest => faultOf (takeWord ['r', 'u', 'e'] rest)
  | 'f' :: rest => faultOf (takeWord ['a', 'l', 's', 'e'] rest)
  | '"' :: rest => faultOf (takeString rest)
  | '[' :: _ => .mismatch
  | '\x7b' :: _ => .mismatch
  | c :: rest => if c = '-' ∨ Text.isDigit c then faultOf (takeNumber (c :: rest)) else .malformed

end RollCall.Json
