import Mathlib.Algebra.Ring.Nat
import RollCall.Entrant

/-!
# The short form of an entrant

`Spells` is the grammar of the short form: a name without an at sign, or a name before the last at
sign and a delay behind it. `ofText` reads exactly the texts of this grammar. A name may hold at
signs of its own and may end like a delay: since no delay holds an at sign, the one that `text`
writes between them is the last, so whatever has a name is read back.
-/

namespace RollCall.Entrant

/-! ## The last at sign -/

/-- A text in two parts, before and after its last at sign. -/
structure Parted (input : String) (before after : List Char) : Prop where
  toList_eq : input.toList = before ++ '@' :: after
  last : '@' ∉ after

theorem exists_parted {input : String} (hat : '@' ∈ input.toList) :
    ∃ before after, Parted input before after := by
  obtain ⟨tail, init, hinput, hlast⟩ := List.eq_append_cons_of_mem (List.mem_reverse.mpr hat)
  refine ⟨init.reverse, tail.reverse, ?_, fun hmem => hlast (List.mem_reverse.mp hmem)⟩
  rw [← List.reverse_reverse input.toList, hinput]
  simp

theorem Parted.splitLast? {input : String} {before after : List Char}
    (h : Parted input before after) : splitLast? '@' input.toList = some (before, after) := by
  rw [h.toList_eq]
  exact splitLast?_append before h.last

/-! ## Delays -/

/-- A text of a number of milliseconds below `2⁶⁴`: digits, with at most one plus in front. -/
def SpellsDelay (cs : List Char) (n : ℕ) : Prop :=
  ∃ digits, (cs = digits ∨ cs = '+' :: digits) ∧ digits ≠ [] ∧
    (∀ c ∈ digits, Text.isDigit c = true) ∧ Text.value digits = n ∧ n < 2 ^ 64

def unsigned : List Char → List Char
  | '+' :: rest => rest
  | cs => cs

theorem unsigned_plus (cs : List Char) : unsigned ('+' :: cs) = cs := rfl

theorem unsigned_digits {cs : List Char} (hdigits : ∀ c ∈ cs, Text.isDigit c = true) :
    unsigned cs = cs := by
  unfold unsigned
  split
  · exact absurd (hdigits '+' List.mem_cons_self) (by decide)
  · rfl

theorem eq_unsigned_or (cs : List Char) : cs = unsigned cs ∨ cs = '+' :: unsigned cs := by
  unfold unsigned
  split
  · exact Or.inr rfl
  · exact Or.inl rfl

theorem readDelay?_eq (cs : List Char) :
    readDelay? cs =
      if !(unsigned cs).isEmpty && (unsigned cs).all Text.isDigit &&
          Text.value (unsigned cs) < delayBound then
        some (Text.value (unsigned cs))
      else none := rfl

theorem readDelay?_eq_some_iff {cs : List Char} {n : ℕ} :
    readDelay? cs = some n ↔ SpellsDelay cs n := by
  simp only [readDelay?_eq, Option.ite_none_right_eq_some, Bool.and_eq_true, Bool.not_eq_true',
    List.isEmpty_eq_false_iff, List.all_eq_true, decide_eq_true_eq, Option.some.injEq]
  constructor
  · rintro ⟨⟨⟨hne, hdigits⟩, hlt⟩, rfl⟩
    exact ⟨unsigned cs, eq_unsigned_or cs, hne, hdigits, rfl, hlt⟩
  · rintro ⟨digits, hcs, hne, hdigits, rfl, hlt⟩
    have hunsigned : unsigned cs = digits := by
      rcases hcs with rfl | rfl
      · exact unsigned_digits hdigits
      · exact unsigned_plus digits
    rw [hunsigned]
    exact ⟨⟨⟨hne, hdigits⟩, hlt⟩, rfl⟩

theorem readDelay?_eq_none_iff {cs : List Char} :
    readDelay? cs = none ↔ ∀ n, ¬ SpellsDelay cs n := by
  simp only [Option.eq_none_iff_forall_ne_some, ne_eq, readDelay?_eq_some_iff]

theorem SpellsDelay.at_not_mem {cs : List Char} {n : ℕ} (h : SpellsDelay cs n) : '@' ∉ cs := by
  obtain ⟨digits, hcs, -, hdigits, -⟩ := h
  have hat : '@' ∉ digits := fun hmem => absurd (hdigits '@' hmem) (by decide)
  rcases hcs with rfl | rfl
  · exact hat
  · simp [hat]

theorem spellsDelay_numeral {n : ℕ} (hn : n < 2 ^ 64) : SpellsDelay (Text.numeral n) n :=
  ⟨Text.numeral n, Or.inl rfl, Text.numeral_ne_nil n, fun _ => Text.isDigit_of_mem_numeral,
    Text.value_numeral n, hn⟩

/-! ## Texts that are read -/

/-- The grammar of the short form. A name alone joins at once. -/
inductive Spells (input : String) : Entrant → Prop
  | alone (hat : '@' ∉ input.toList) (hname : input ≠ "") : Spells input ⟨input, 0⟩
  | delayed {before after : List Char} {n : ℕ} (hparted : Parted input before after)
      (hname : before ≠ []) (hdelay : SpellsDelay after n) :
      Spells input ⟨String.ofList before, n⟩

theorem Spells.sound {input : String} {e : Entrant} (h : Spells input e) :
    e.name ≠ "" ∧ e.delay < 2 ^ 64 := by
  cases h with
  | alone hat hname => exact ⟨hname, Nat.two_pow_pos 64⟩
  | delayed hparted hname hdelay =>
    obtain ⟨digits, -, -, -, -, hlt⟩ := hdelay
    exact ⟨by simpa using hname, hlt⟩

section OfText

variable {input : String} {before after : List Char} {n : ℕ} {e : Entrant}

theorem ofText_of_not_mem (hat : '@' ∉ input.toList) :
    ofText input = if input = "" then .error (.emptyName input) else .ok ⟨input, 0⟩ := by
  simp [ofText, splitLast?_eq_none hat]

/-- A delay that is none is reported, whatever stands before it. -/
theorem Parted.ofText_of_unread (h : Parted input before after)
    (hunread : ∀ n, ¬ SpellsDelay after n) : ofText input = .error (.badDelay input) := by
  simp only [ofText, h.splitLast?, readDelay?_eq_none_iff.mpr hunread]

theorem Parted.ofText_of_read (h : Parted input before after) (hdelay : SpellsDelay after n) :
    ofText input =
      if before = [] then .error (.emptyName input) else .ok ⟨String.ofList before, n⟩ := by
  simp [ofText, h.splitLast?, readDelay?_eq_some_iff.mpr hdelay]

/-- A text spells an entrant, or else its delay is bad, or else it has a good one and no name. -/
theorem ofText_cases (input : String) :
    (∃ e, Spells input e ∧ ofText input = .ok e) ∨
    ((∃ before after, Parted input before after ∧ ∀ n, ¬ SpellsDelay after n) ∧
      ofText input = .error (.badDelay input)) ∨
    ((input = "" ∨ ∃ after n, Parted input [] after ∧ SpellsDelay after n) ∧
      ofText input = .error (.emptyName input)) := by
  by_cases hat : '@' ∈ input.toList
  · obtain ⟨before, after, hparted⟩ := exists_parted hat
    by_cases hdelay : ∃ n, SpellsDelay after n
    · obtain ⟨n, hdelay⟩ := hdelay
      have hread := hparted.ofText_of_read hdelay
      by_cases hname : before = []
      · subst hname
        exact Or.inr (Or.inr ⟨Or.inr ⟨after, n, hparted, hdelay⟩, hread⟩)
      · rw [if_neg hname] at hread
        exact Or.inl ⟨_, .delayed hparted hname hdelay, hread⟩
    · have hunread := not_exists.mp hdelay
      exact Or.inr (Or.inl ⟨⟨before, after, hparted, hunread⟩, hparted.ofText_of_unread hunread⟩)
  · have hread := ofText_of_not_mem hat
    by_cases hname : input = ""
    · rw [if_pos hname] at hread
      exact Or.inr (Or.inr ⟨Or.inl hname, hread⟩)
    · rw [if_neg hname] at hread
      exact Or.inl ⟨_, .alone hat hname, hread⟩

theorem ofText_of_spells (h : Spells input e) : ofText input = .ok e := by
  cases h with
  | alone hat hname => rw [ofText_of_not_mem hat, if_neg hname]
  | delayed hparted hname hdelay => rw [hparted.ofText_of_read hdelay, if_neg hname]

theorem ofText_eq_ok_iff : ofText input = .ok e ↔ Spells input e := by
  refine ⟨?_, ofText_of_spells⟩
  intro hread
  rcases ofText_cases input with ⟨e', hspells, hread'⟩ | ⟨-, hread'⟩ | ⟨-, hread'⟩
  · cases hread.symm.trans hread'
    exact hspells
  · cases hread.symm.trans hread'
  · cases hread.symm.trans hread'

theorem ofText_eq_badDelay_iff :
    ofText input = .error (.badDelay input) ↔
      ∃ before after, Parted input before after ∧ ∀ n, ¬ SpellsDelay after n := by
  constructor
  · intro hread
    rcases ofText_cases input with ⟨e', -, hread'⟩ | ⟨hbad, -⟩ | ⟨-, hread'⟩
    · cases hread.symm.trans hread'
    · exact hbad
    · cases hread.symm.trans hread'
  · rintro ⟨before, after, hparted, hunread⟩
    exact hparted.ofText_of_unread hunread

theorem ofText_eq_emptyName_iff :
    ofText input = .error (.emptyName input) ↔
      input = "" ∨ ∃ after n, Parted input [] after ∧ SpellsDelay after n := by
  constructor
  · intro hread
    rcases ofText_cases input with ⟨e', -, hread'⟩ | ⟨-, hread'⟩ | ⟨hempty, -⟩
    · cases hread.symm.trans hread'
    · cases hread.symm.trans hread'
    · exact hempty
  · rintro (rfl | ⟨after, n, hparted, hdelay⟩)
    · rfl
    · rw [hparted.ofText_of_read hdelay, if_pos rfl]

end OfText

/-! ## Texts that are written -/

section Written

variable {e : Entrant}

theorem parted_text (hdelay : e.delay < 2 ^ 64) :
    Parted e.text e.name.toList (Text.numeral e.delay) where
  toList_eq := by simp [text, Text.numeralText]
  last := (spellsDelay_numeral hdelay).at_not_mem

theorem ofText_text (hname : e.name ≠ "") (hdelay : e.delay < 2 ^ 64) : ofText e.text = .ok e := by
  have hread := (parted_text hdelay).ofText_of_read (spellsDelay_numeral hdelay)
  rwa [if_neg (by simpa using hname), String.ofList_toList] at hread

/-- Without a name an entrant is refused in the short form that it is written in. -/
theorem ofText_text_of_empty (hname : e.name = "") (hdelay : e.delay < 2 ^ 64) :
    ofText e.text = .error (.emptyName e.text) := by
  have hread := (parted_text hdelay).ofText_of_read (spellsDelay_numeral hdelay)
  rwa [if_pos (by simpa using hname)] at hread

end Written

/-- A text is read as an entrant exactly if it is a name without an at sign, or has a name before
its last at sign and a delay behind it. Every other text is refused, and a bad delay is reported
before a missing name. Whatever its name and its delay are, an entrant that has a name is read back
from the text that it is written as, and so is one that has been read. -/
theorem short_form_exact (input : String) :
    (∀ e, ofText input = .ok e ↔ Spells input e) ∧
    (ofText input = .error (.badDelay input) ↔
      ∃ before after, Parted input before after ∧ ∀ n, ¬ SpellsDelay after n) ∧
    (ofText input = .error (.emptyName input) ↔
      input = "" ∨ ∃ after n, Parted input [] after ∧ SpellsDelay after n) ∧
    ((∃ e, ofText input = .ok e) ∨ ofText input = .error (.badDelay input) ∨
      ofText input = .error (.emptyName input)) ∧
    (∀ e : Entrant, e.name ≠ "" → e.delay < 2 ^ 64 → ofText e.text = .ok e) ∧
    ∀ e, ofText input = .ok e → ofText e.text = .ok e := by
  refine ⟨fun e => ofText_eq_ok_iff, ofText_eq_badDelay_iff, ofText_eq_emptyName_iff, ?_,
    fun e => ofText_text, ?_⟩
  · rcases ofText_cases input with ⟨e, -, hread⟩ | ⟨-, hread⟩ | ⟨-, hread⟩
    · exact Or.inl ⟨e, hread⟩
    · exact Or.inr (Or.inl hread)
    · exact Or.inr (Or.inr hread)
  · intro e hread
    obtain ⟨hname, hdelay⟩ := (ofText_eq_ok_iff.mp hread).sound
    exact ofText_text hname hdelay

/-- A name that ends like a delay, with the longest delay there is. -/
theorem name_like_delay_read_back :
    let e : Entrant := ⟨"a@b@5", 18446744073709551615⟩
    e.text = "a@b@5@18446744073709551615" ∧ e.name ≠ "" ∧ e.delay < 2 ^ 64 ∧
      ofText e.text = .ok e := by
  intro e
  have hname : e.name ≠ "" := by decide
  have hdelay : e.delay < 2 ^ 64 := by decide
  obtain ⟨-, -, -, -, hback, -⟩ := short_form_exact e.text
  exact ⟨by decide +kernel, hname, hdelay, hback e hname hdelay⟩

end RollCall.Entrant
