import Mathlib.Algebra.Ring.Nat
import RollCall.Json.Reader

/-!
# What readers yield

Whatever text a value is taken off, its reader may see to a property of it: a number that is kept
as a whole number is below `2⁶⁴`, a list holds what the reader of its elements yields, and a record
is finished from a draft that the changes of its members keep sound.
-/

namespace RollCall.Json

/-! ## Numbers -/

/-- A number that is kept exactly fits sixty-four bits. -/
def Number.Fits : Number → Prop
  | natural n => n < 2 ^ 64
  | real _ => True

/-- A significand that fits sixty-four bits does so whatever digits are taken into it. -/
theorem absorb_lt {significand : ℕ} (hlt : significand < 2 ^ 64) (digits : List Char) :
    (absorb significand digits).1 < 2 ^ 64 := by
  induction digits generalizing significand with
  | nil => exact hlt
  | cons d ds ih =>
    simp only [absorb]
    split
    · rename_i hnext
      exact ih hnext
    · exact hlt

section Numbers

variable {negative : Bool} {significand : ℕ} {exponent : Int} {cs rest : List Char} {n : Number}

theorem fits_realOf
    (hread : (realOf negative significand exponent).map (·, cs) = .ok (n, rest)) : n.Fits := by
  obtain ⟨m, hm, heq⟩ := exists_of_map_eq_ok hread
  cases heq
  unfold realOf at hm
  split at hm
  · cases hm
  · cases hm
    trivial

theorem fits_takeExponent
    (hread : takeExponent negative significand exponent cs = .ok (n, rest)) : n.Fits := by
  simp only [takeExponent] at hread
  split at hread
  · cases hread
  · split at hread
    · exact fits_realOf hread
    · cases hread

theorem fits_takeScale (hread : takeScale negative significand exponent cs = .ok (n, rest)) :
    n.Fits := by
  unfold takeScale at hread
  split at hread
  · exact fits_takeExponent hread
  · exact fits_takeExponent hread
  · exact fits_realOf hread

theorem fits_takeFraction
    (hread : takeFraction negative significand exponent cs = .ok (n, rest)) : n.Fits := by
  simp only [takeFraction] at hread
  split at hread
  · split at hread <;> cases hread
  · exact fits_takeScale hread

theorem fits_takeAfterWhole {whole : List Char}
    (hread : takeAfterWhole negative whole cs = .ok (n, rest)) : n.Fits := by
  simp only [takeAfterWhole] at hread
  split at hread
  · exact fits_takeFraction hread
  · exact fits_takeExponent hread
  · exact fits_takeExponent hread
  · split at hread
    · exact fits_realOf hread
    · split at hread
      · cases hread
        trivial
      · cases hread
        exact absorb_lt (Nat.two_pow_pos 64) whole

theorem fits_takeDigits (hread : takeDigits negative cs = .ok (n, rest)) : n.Fits := by
  unfold takeDigits at hread
  split at hread
  · cases hread
  · split at hread
    · split at hread
      · cases hread
      · exact fits_takeAfterWhole hread
    · split at hread
      · exact fits_takeAfterWhole hread
      · cases hread

theorem fits_takeNumber (hread : takeNumber cs = .ok (n, rest)) : n.Fits := by
  unfold takeNumber at hread
  split at hread <;> exact fits_takeDigits hread

end Numbers

/-! ## Values -/

/-- Every value that a reader takes off a text has a property. -/
structure Reader.Yields {α : Type} (r : Reader α) (P : α → Prop) : Prop where
  of_read : ∀ {cs rest : List Char} {x : α}, r.read cs = .ok (x, rest) → P x

namespace Reader

variable {α β δ : Type} {r : Reader α} {P : α → Prop} {Q : β → Prop}

theorem Yields.document (hyields : r.Yields P) {text : String} {x : α}
    (hread : r.document text = .ok x) : P x := by
  unfold Reader.document at hread
  split at hread
  · cases hread
  · rename_i htaken
    split at hread
    · cases hread
      exact hyields.of_read htaken
    · cases hread

theorem Yields.map (hyields : r.Yields P) {f : α → β} (himp : ∀ x, P x → Q (f x)) :
    (r.map f).Yields Q := by
  constructor
  intro cs rest y hread
  obtain ⟨⟨x, rest'⟩, hx, heq⟩ := exists_of_map_eq_ok hread
  cases heq
  exact himp x (hyields.of_read hx)

theorem Yields.filterMap (hyields : r.Yields P) {f : α → Option β}
    (himp : ∀ x y, P x → f x = some y → Q y) : (r.filterMap f).Yields Q := by
  constructor
  intro cs rest y hread
  simp only [Reader.filterMap] at hread
  split at hread
  · cases hread
  · rename_i hx
    split at hread
    · cases hread
    · rename_i hy
      cases hread
      exact himp _ _ (hyields.of_read hx) hy

theorem yields_true (r : Reader α) : r.Yields fun _ => True := ⟨fun _ => trivial⟩

theorem number_yields : number.Yields Number.Fits := by
  constructor
  intro cs rest n hread
  simp only [number] at hread
  split at hread
  · cases hread
  · split at hread
    · exact fits_takeNumber hread
    · cases hread

theorem natural_yields : natural.Yields (· < 2 ^ 64) := by
  apply number_yields.filterMap
  intro n m hfits hm
  cases n with
  | natural n =>
    cases hm
    exact hfits
  | real x => cases hm

/-- The elements from any of them on, by induction on the text that is left. -/
theorem elements_yield (hyields : r.Yields P) {first : Bool} {cs rest : List Char} {xs : List α}
    (hread : elements r first cs = .ok (xs, rest)) : ∀ x ∈ xs, P x := by
  induction hn : cs.length using Nat.strongRecOn generalizing first cs rest xs with
  | ind n ih =>
    subst hn
    rw [elements.eq_def] at hread
    split at hread
    · cases hread
    · cases hread
      simp
    · rename_i hnext
      split at hread
      · cases hread
      · rename_i hx
        have hshorter := Nat.lt_of_lt_of_le (r.shorter hx) (nextElement_length hnext)
        split at hread
        · cases hread
        · rename_i hrest
          cases hread
          exact List.forall_mem_cons.mpr ⟨hyields.of_read hx, ih _ hshorter hrest rfl⟩

theorem Yields.list (hyields : r.Yields P) : r.list.Yields fun xs => ∀ x ∈ xs, P x := by
  constructor
  intro cs rest xs hread
  simp only [Reader.list] at hread
  split at hread
  · exact elements_yield hyields hread
  · cases hread

end Reader

/-! ## Records -/

namespace Member

variable {δ : Type} {ms : List (Member δ)} {D : δ → Prop} {draft result : δ} {first : Bool}
  {cs rest : List Char}

/-- Every value of a member changes a sound draft into a sound one. -/
def Keeps (m : Member δ) (D : δ → Prop) : Prop :=
  m.value.Yields fun change => ∀ draft, D draft → D (change draft)

theorem keeps_of_map {α : Type} {name : String} {given : δ → Bool} {r : Reader α} {P : α → Prop}
    {set : α → δ → δ} (hyields : r.Yields P) (hset : ∀ x draft, P x → D draft → D (set x draft)) :
    Keeps ⟨name, given, r.map set⟩ D :=
  hyields.map fun x hx draft hdraft => hset x draft hx hdraft

theorem takeListed_keeps (hkeeps : ∀ m ∈ ms, m.Keeps D) (hdraft : D draft)
    (hread : takeListed first draft ms cs = .ok (result, rest)) : D result := by
  induction ms generalizing first draft cs with
  | nil =>
    unfold takeListed at hread
    split at hread
    · cases hread
    · cases hread
      exact hdraft
    · cases hread
  | cons m ms ih =>
    obtain ⟨hm, hms⟩ := List.forall_mem_cons.mp hkeeps
    unfold takeListed at hread
    split at hread
    · cases hread
    · cases hread
      exact hdraft
    · split at hread
      · cases hread
      · rename_i hchange
        exact ih hms (hm.of_read hchange draft hdraft) hread

theorem takeMember_keeps (hkeeps : ∀ m ∈ ms, m.Keeps D) (hdraft : D draft)
    (hread : takeMember ms draft cs = .ok (result, rest)) : D result := by
  obtain ⟨_, _, _, -, -, ⟨-, rfl⟩ | ⟨m, hm, change, hchange, rfl⟩⟩ := takeMember_cases hread
  · exact hdraft
  · exact (hkeeps m hm).of_read hchange draft hdraft

theorem takeMembers_keeps (hkeeps : ∀ m ∈ ms, m.Keeps D) (hdraft : D draft)
    (hread : takeMembers ms first draft cs = .ok (result, rest)) : D result := by
  induction hn : cs.length using Nat.strongRecOn generalizing first draft cs with
  | ind n ih =>
    subst hn
    rw [takeMembers.eq_def] at hread
    split at hread
    · cases hread
    · cases hread
      exact hdraft
    · rename_i hnext
      split at hread
      · cases hread
      · rename_i hmember
        have hshorter := Nat.lt_trans (takeMember_length hmember) (nextMember_length hnext)
        exact ih _ hshorter (takeMember_keeps hkeeps hdraft hmember) hread rfl

end Member

/-- A record has a property that sound drafts are finished with, if the empty draft is sound and
every member keeps a draft sound. -/
theorem Reader.record_yields {δ α : Type} {ms : List (Member δ)} {draft : δ}
    {finish : δ → Option α} {D : δ → Prop} {P : α → Prop} (hdraft : D draft)
    (hkeeps : ∀ m ∈ ms, m.Keeps D) (hfinish : ∀ d x, D d → finish d = some x → P x) :
    (Reader.record ms draft finish).Yields P := by
  refine Yields.filterMap ⟨?_⟩ hfinish
  intro cs rest result hread
  dsimp only at hread
  split at hread
  · exact Member.takeListed_keeps hkeeps hdraft hread
  · exact Member.takeMembers_keeps hkeeps hdraft hread
  · cases hread

end RollCall.Json
