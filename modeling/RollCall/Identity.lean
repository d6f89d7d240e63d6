import RollCall.Json.Reader

/-!
# Identities

The name under which a session registers: any stem and ten characters of `A-Z0-9`. A fresh
identity takes its ten characters from a source of random words, one word a character or, rarely,
two. An identity read from a text is ASCII throughout. Which texts are read, and what a fresh
identity looks like, is shown in `RollCall.Proofs.IdentityText` and
`RollCall.Proofs.IdentitySuffix`.
-/

namespace RollCall

/-- A source of random 32-bit words, and how many have been taken from it. -/
structure WordSource where
  word : Nat → UInt32
  used : Nat

namespace WordSource

def ofList (words : List UInt32) : WordSource := ⟨fun n => words.getD n 0, 0⟩

def next (s : WordSource) : Nat × WordSource := ((s.word s.used).toNat, ⟨s.word, s.used + 1⟩)

end WordSource

/-- The name under which a session is registered. -/
structure Identity where
  name : String
  deriving DecidableEq

namespace Identity

def defaultStem : String := "_test_node_"

def suffixLength : Nat := 10

def alphabet : List Char := "ABCDEFGHIJKLMNOPQRSTUVWXYZ0123456789".toList

def wordBound : Nat := Nat.pow 2 32

/-- Whether the low half of 36 times a word is so large that a second word may add to the high
half. -/
def needsSecond (w : Nat) : Bool := wordBound - 36 < w * 36 % wordBound

/-- The high half of 36 times a word, and one more when its low half and the high half of 36
times a second word carry. -/
def indexOf (w v : Nat) : Nat :=
  if wordBound ≤ w * 36 % wordBound + v * 36 / wordBound then w * 36 / wordBound + 1
  else w * 36 / wordBound

/-- An index below 36 from one word, or from two when the first leaves it open. -/
def sampleIndex (s : WordSource) : Nat × WordSource :=
  let (w, s) := s.next
  if needsSecond w then
    let (v, s) := s.next
    (indexOf w v, s)
  else (indexOf w 0, s)

def sampleChars : Nat → WordSource → List Char × WordSource
  | 0, s => ([], s)
  | n + 1, s =>
    let (i, s) := sampleIndex s
    let (cs, s) := sampleChars n s
    (alphabet.getD i 'A' :: cs, s)

def fresh (stem : String) (s : WordSource) : Identity × WordSource :=
  let (cs, s) := sampleChars suffixLength s
  (⟨stem ++ String.ofList cs⟩, s)

def lastTen (cs : List Char) : List Char := cs.drop (cs.length - suffixLength)

/-- The text from a byte on. There is none from within a character, nor beyond the end. -/
def textFrom? (text : String) (byte : Nat) : Option String :=
  let place : String.Pos.Raw := ⟨byte⟩
  if h : place.IsValid text then some (text.sliceFrom ⟨place, h⟩).copy else none

/-- The last ten bytes of the name as text. A name of fewer bytes has none, nor has one whose last
ten bytes begin within a character. -/
def suffix? (i : Identity) : Option String :=
  if suffixLength ≤ i.name.utf8ByteSize then
    textFrom? i.name (i.name.utf8ByteSize - suffixLength)
  else none

/-- The random part of the name, which every identity that is made has. -/
def suffix (i : Identity) : String := i.suffix?.getD ""

/-- The identity with a given name: ASCII text that ends in ten characters of the alphabet. -/
def ofName? (name : String) : Option Identity :=
  let cs := name.toList
  if suffixLength ≤ cs.length && cs.all (·.toNat < 128) && (lastTen cs).all (alphabet.contains ·)
  then some ⟨name⟩ else none

def invalidText : String := "Invalid session identity: expected a 10-char [A-Z0-9] suffix"

def reader : Json.Reader Identity := Json.Reader.string.filterMap ofName?

def json (i : Identity) : String := String.ofList (Json.written i.name)

end Identity

end RollCall
