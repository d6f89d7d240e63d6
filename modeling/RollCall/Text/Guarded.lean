/-!
# Text on a terminal

A terminal acts on some characters instead of showing them: the escape that begins a sequence, the
bell, the backspace, the form feed, the delete, and the controls from U+0080 to U+009F. They are
spelled out before a text is told there, so that a name can neither move the cursor nor change a
colour. Tabs, ends of lines and the other controls stay as they are.

Main statement: `isTerminalControl_eq_false_of_mem_guarded` (nothing is left on which a terminal
acts).
-/

namespace RollCall.Text

/-- Whether a terminal acts on a character instead of showing it. -/
def isTerminalControl (c : Char) : Bool :=
  c == '\x07' || c == '\x08' || c == '\x0c' || c == '\x1b' ||
    (decide (0x7f ≤ c.toNat) && decide (c.toNat ≤ 0x9f))

/-- The two lower-case hexadecimal digits of a number below 256. -/
def hexPair (n : Nat) : List Char := [Nat.digitChar (n / 16 % 16), Nat.digitChar (n % 16)]

/-- One character on a terminal. What is spelled out and is not ASCII has braces. -/
def guardedChar (c : Char) : List Char :=
  if isTerminalControl c then
    if c.toNat < 0x80 then ['\\', 'x'] ++ hexPair c.toNat
    else ['\\', 'u', '\x7b'] ++ hexPair c.toNat ++ ['\x7d']
  else [c]

def guarded (s : String) : String := String.ofList (s.toList.flatMap guardedChar)

theorem isTerminalControl_digitChar_mod (n : Nat) :
    isTerminalControl (Nat.digitChar (n % 16)) = false := by
  have h : ∀ d < 16, isTerminalControl (Nat.digitChar d) = false := by decide
  exact h _ (Nat.mod_lt _ (by decide))

theorem isTerminalControl_eq_false_of_mem_hexPair {n : Nat} {d : Char} (h : d ∈ hexPair n) :
    isTerminalControl d = false := by
  simp only [hexPair, List.mem_cons, List.not_mem_nil, or_false] at h
  rcases h with rfl | rfl
  · exact isTerminalControl_digitChar_mod _
  · exact isTerminalControl_digitChar_mod _

theorem isTerminalControl_eq_false_of_mem_guardedChar {c d : Char} (h : d ∈ guardedChar c) :
    isTerminalControl d = false := by
  unfold guardedChar at h
  split at h
  · split at h
    · simp only [List.cons_append, List.nil_append, List.mem_cons] at h
      rcases h with rfl | rfl | h
      · decide
      · decide
      · exact isTerminalControl_eq_false_of_mem_hexPair h
    · simp only [List.cons_append, List.nil_append, List.mem_cons, List.mem_append,
        List.not_mem_nil, or_false] at h
      rcases h with rfl | rfl | rfl | h | rfl
      · decide
      · decide
      · decide
      · exact isTerminalControl_eq_false_of_mem_hexPair h
      · decide
  · rename_i hc
    obtain rfl := List.mem_singleton.1 h
    exact Bool.eq_false_iff.2 hc

/-- Nothing is left on which a terminal acts. -/
theorem isTerminalControl_eq_false_of_mem_guarded {s : String} {d : Char}
    (h : d ∈ (guarded s).toList) : isTerminalControl d = false := by
  rw [guarded, String.toList_ofList] at h
  obtain ⟨c, _, hd⟩ := List.mem_flatMap.1 h
  exact isTerminalControl_eq_false_of_mem_guardedChar hd

end RollCall.Text
