/-!
# Blank characters

The characters with the property White_Space, and the text left when they are taken off both
ends.

Main statements: `trimBlanks_head` and `trimBlanks_getLast` (what is left neither begins nor ends
with a blank).
-/

namespace RollCall.Text

/-- The characters with the property White_Space. The zero-width space and the byte order mark
do not have it. -/
def isBlank (c : Char) : Bool :=
  let code := c.toNat
  (9 ≤ code && code ≤ 13) || code == 0x20 || code == 0x85 || code == 0xa0 || code == 0x1680 ||
    (0x2000 ≤ code && code ≤ 0x200a) || code == 0x2028 || code == 0x2029 || code == 0x202f ||
    code == 0x205f || code == 0x3000

/-- The text without the blanks at its two ends. -/
def trimBlanks (cs : List Char) : List Char :=
  ((cs.dropWhile isBlank).reverse.dropWhile isBlank).reverse

theorem trimBlanks_isPrefix (cs : List Char) : trimBlanks cs <+: cs.dropWhile isBlank := by
  have h := List.dropWhile_suffix isBlank (l := (cs.dropWhile isBlank).reverse)
  rw [← List.reverse_prefix, List.reverse_reverse] at h
  exact h

theorem trimBlanks_head {cs : List Char} {c : Char} (h : (trimBlanks cs).head? = some c) :
    isBlank c = false := by
  obtain ⟨rest, hrest⟩ := trimBlanks_isPrefix cs
  have hhead : (cs.dropWhile isBlank).head? = some c := by
    rw [← hrest, List.head?_append, h, Option.some_or]
  have := List.head?_dropWhile_not isBlank cs
  rw [hhead] at this
  simpa using this

theorem trimBlanks_getLast {cs : List Char} {c : Char}
    (h : (trimBlanks cs).getLast? = some c) : isBlank c = false := by
  rw [trimBlanks, List.getLast?_reverse] at h
  have := List.head?_dropWhile_not isBlank (cs.dropWhile isBlank).reverse
  rw [h] at this
  simpa using this

end RollCall.Text
