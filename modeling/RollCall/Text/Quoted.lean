import RollCall.Text.Unprintable

/-!
# Quoted text

A text as it is shown inside a message: in double quotes, with every character that would be
misread written as an escape. Lists and sets of texts are quoted item by item.
-/

namespace RollCall.Text

/-- The lower-case hexadecimal digits of a number, without padding. -/
def hexDigits (n : Nat) : List Char := Nat.toDigits 16 n

/-- One character inside quotes. The apostrophe needs no escape. -/
def quotedChar (c : Char) : List Char :=
  if c = '"' then ['\\', '"']
  else if c = '\\' then ['\\', '\\']
  else if c = '\x00' then ['\\', '0']
  else if c = '\t' then ['\\', 't']
  else if c = '\n' then ['\\', 'n']
  else if c = '\r' then ['\\', 'r']
  else if isUnprintable c then ['\\', 'u', '\x7b'] ++ hexDigits c.toNat ++ ['\x7d']
  else [c]

def quoted (s : String) : String :=
  String.ofList ('"' :: s.toList.flatMap quotedChar ++ ['"'])

def quotedList (items : List String) : String :=
  "[" ++ ", ".intercalate (items.map quoted) ++ "]"

def quotedSet (items : List String) : String :=
  "\x7b" ++ ", ".intercalate (items.map quoted) ++ "\x7d"

end RollCall.Text
