import RollCall.Proofs.Passing
import RollCall.Proofs.Spelling

/-!
# What readers make of values

A reader settles values if what it makes of one depends on nothing but the value: blanks before it
are skipped, and it is taken as the same thing, or refused, whatever follows it. All readers of a
document do. A list is what its elements are, in their order. Of an object, each member changes the
draft of the record or, if its name is unknown, leaves it alone; a member that is given twice or
whose value is refused spoils the object.
-/

namespace RollCall.Json

/-! ## Numbers -/

section Number

variable (negative : Bool) (significand : ℕ) (exponent : ℤ) {whole fraction power : List Char}

/-- Taking a number off a text has one outcome, whatever follows the number. -/
def Determined (take : List Char → Taken Number) : Prop :=
  ∃ outcome : Except Fault Number, ∀ rest, Stops rest → take rest = outcome.map (·, rest)

theorem determined_takeExponent {sign digits : List Char} {down : Bool}
    (hsign : Text.IsSign sign down) (hne : digits ≠ [])
    (hdigits : ∀ d ∈ digits, Text.isDigit d = true) :
    Determined fun rest =>
      takeExponent negative significand exponent (sign ++ (digits ++ rest)) := by
  refine ⟨realOf negative significand (if down then exponent - Text.value digits
    else exponent + Text.value digits), fun rest hrest => ?_⟩
  have hspan := Text.spanDigits_append hdigits hrest.digit
  have hsplit := Text.takeSign_append hsign (unsigned_digits hne hdigits rest)
  obtain ⟨c, tail, rfl⟩ := List.exists_cons_of_ne_nil hne
  have hc := hdigits c List.mem_cons_self
  rw [List.cons_append] at hspan hsplit
  simp only [List.cons_append, takeExponent, hsplit, hc, if_true, hspan]

theorem determined_takeScale (hpower : IsExponent power) :
    Determined fun rest => takeScale negative significand exponent (power ++ rest) := by
  cases hpower with
  | absent =>
    refine ⟨realOf negative significand exponent, fun rest hrest => ?_⟩
    simp only [List.nil_append]
    rw [takeScale]
    · exact fun cs h => hrest.small (h ▸ rfl)
    · exact fun cs h => hrest.capital (h ▸ rfl)
  | given hc hsign hne hdigits =>
    simp only [List.cons_append, List.append_assoc]
    rcases hc with rfl | rfl
    · exact determined_takeExponent _ _ _ hsign hne hdigits
    · exact determined_takeExponent _ _ _ hsign hne hdigits

theorem determined_takeAfterWhole (whole : List Char) (hfraction : IsFraction fraction) (hpower : IsExponent power) :
    Determined fun rest => takeAfterWhole negative whole (fraction ++ (power ++ rest)) := by
  cases hfraction with
  | @given digits hne hdigits =>
    obtain ⟨outcome, houtcome⟩ := determined_takeScale negative
      (absorb (absorb 0 whole).1 digits).1
      ((absorb 0 whole).2 - (digits.length - (absorb (absorb 0 whole).1 digits).2 : ℕ)) hpower
    refine ⟨outcome, fun rest hrest => ?_⟩
    have hspan := Text.spanDigits_append hdigits (noDigit_exponent hpower hrest)
    have hempty : digits.isEmpty = false := List.isEmpty_eq_false_iff.mpr hne
    simp only [List.cons_append, takeAfterWhole, takeFraction, hspan, hempty, Bool.false_eq_true,
      if_false]
    exact houtcome rest hrest
  | absent =>
    cases hpower with
    | given hc hsign hne hdigits =>
      simp only [List.nil_append, List.cons_append, List.append_assoc]
      rcases hc with rfl | rfl
      · exact determined_takeExponent _ _ _ hsign hne hdigits
      · exact determined_takeExponent _ _ _ hsign hne hdigits
    | absent =>
      refine ⟨if (absorb 0 whole).2 ≠ 0 then realOf negative (absorb 0 whole).1 (absorb 0 whole).2
        else if negative then .ok (.real (Binary64.ofNat (absorb 0 whole).1).neg)
        else .ok (.natural (absorb 0 whole).1), fun rest hrest => ?_⟩
      simp only [List.nil_append, takeAfterWhole]
      split
      · exact absurd rfl hrest.point
      · exact absurd rfl hrest.small
      · exact absurd rfl hrest.capital
      · split
        · rfl
        · split
          · rfl
          · rfl

theorem determined_takeDigits (hwhole : Whole whole) (hfraction : IsFraction fraction)
    (hpower : IsExponent power) :
    Determined fun rest => takeDigits negative (whole ++ (fraction ++ (power ++ rest))) := by
  obtain ⟨outcome, houtcome⟩ := determined_takeAfterWhole negative whole hfraction hpower
  refine ⟨outcome, fun rest hrest => ?_⟩
  exact (hwhole.takeDigits (noDigit_fraction hfraction hpower hrest)).trans (houtcome rest hrest)

theorem determined_takeNumber {text : List Char} (htext : IsNumber text) :
    Determined fun rest => takeNumber (text ++ rest) := by
  cases htext with
  | parts hsign hwhole hfraction hpower =>
    simp only [List.append_assoc]
    rcases hsign with rfl | rfl
    · obtain ⟨c, tail, rfl, hc⟩ := hwhole.head
      obtain ⟨outcome, houtcome⟩ :=
        determined_takeDigits false hwhole hfraction hpower
      refine ⟨outcome, fun rest hrest => ?_⟩
      exact (takeNumber_digit hc _).trans (houtcome rest hrest)
    · exact determined_takeDigits true hwhole hfraction hpower

end Number

/-! ## Readers -/

namespace Reader

variable {α β : Type} {r : Reader α} {v : List Char}

/-- What a reader makes of a value that stands alone. -/
def value? (r : Reader α) (v : List Char) : Option α := (r.read v).toOption.map Prod.fst

/-- What a reader makes of a value depends on the value alone. -/
structure Settles (r : Reader α) : Prop where
  skips : ∀ (g : Gap) (cs : List Char), r.read (g.text ++ cs) = r.read cs
  settles : ∀ {v rest : List Char}, IsValue v → Ends rest →
    (r.read (v ++ rest)).toOption = (r.value? v).map (·, rest)

theorem Settles.of_outcome (hskips : ∀ (g : Gap) (cs : List Char), r.read (g.text ++ cs) = r.read cs)
    (houtcome : ∀ v, IsValue v → ∃ outcome : Option α, ∀ rest, Ends rest →
      (r.read (v ++ rest)).toOption = outcome.map (·, rest)) : r.Settles := by
  refine ⟨hskips, fun {v rest} hv hrest => ?_⟩
  obtain ⟨outcome, hread⟩ := houtcome v hv
  have halone := hread [] ends_nil
  rw [List.append_nil] at halone
  have hvalue : r.value? v = outcome := by
    rw [value?, halone, Option.map_map]
    exact Option.map_id'
  rw [hread rest hrest, hvalue]

theorem toOption_eq_some_iff {ε : Type} {outcome : Except ε α} {x : α} :
    outcome.toOption = some x ↔ outcome = .ok x := by
  cases outcome with
  | error e => simp [Except.toOption]
  | ok y => simp [Except.toOption]

theorem toOption_eq_none_iff {ε : Type} {outcome : Except ε α} :
    outcome.toOption = none ↔ ∃ e, outcome = .error e := by
  cases outcome with
  | error e => simp [Except.toOption]
  | ok y => simp [Except.toOption]

theorem toOption_map {ε : Type} (f : α → β) (outcome : Except ε α) :
    (outcome.map f).toOption = outcome.toOption.map f := by
  cases outcome with
  | error e => rfl
  | ok x => rfl

theorem Settles.read_of_some (hr : r.Settles) (hv : IsValue v) {x : α} (hx : r.value? v = some x)
    {rest : List Char} (hrest : Ends rest) : r.read (v ++ rest) = .ok (x, rest) := by
  rw [← toOption_eq_some_iff, hr.settles hv hrest, hx]
  rfl

theorem Settles.read_of_none (hr : r.Settles) (hv : IsValue v) (hx : r.value? v = none)
    {rest : List Char} (hrest : Ends rest) : ∃ e, r.read (v ++ rest) = .error e := by
  rw [← toOption_eq_none_iff, hr.settles hv hrest, hx]
  rfl

theorem value?_map (f : α → β) (r : Reader α) (v : List Char) :
    (r.map f).value? v = (r.value? v).map f := by
  simp only [value?, map]
  cases r.read v with
  | error e => rfl
  | ok taken => rfl

theorem Settles.map (hr : r.Settles) (f : α → β) : (r.map f).Settles := by
  constructor
  · intro g cs
    simp only [Reader.map, hr.skips]
  · intro v rest hv hrest
    have hread := hr.settles hv hrest
    rw [value?_map]
    cases hx : r.value? v with
    | none =>
      obtain ⟨e, he⟩ := hr.read_of_none hv hx hrest
      simp only [Reader.map, he]
      rfl
    | some x =>
      simp only [Reader.map, hr.read_of_some hv hx hrest]
      rfl

theorem value?_filterMap (f : α → Option β) (r : Reader α) (v : List Char) :
    (r.filterMap f).value? v = (r.value? v).bind f := by
  simp only [value?, filterMap]
  cases r.read v with
  | error e => rfl
  | ok taken =>
    obtain ⟨x, rest⟩ := taken
    cases hy : f x with
    | none => simp [Except.toOption, hy]
    | some y => simp [Except.toOption, hy]

theorem Settles.filterMap (hr : r.Settles) (f : α → Option β) : (r.filterMap f).Settles := by
  constructor
  · intro g cs
    simp only [Reader.filterMap, hr.skips]
  · intro v rest hv hrest
    rw [value?_filterMap]
    cases hx : r.value? v with
    | none =>
      obtain ⟨e, he⟩ := hr.read_of_none hv hx hrest
      simp only [Reader.filterMap, he]
      rfl
    | some x =>
      simp only [Reader.filterMap, hr.read_of_some hv hx hrest, Option.bind_some]
      cases f x with
      | none => rfl
      | some y => rfl

/-- A reader refuses a value whatever follows it. -/
theorem outcome_of_refused (hrefused : ∀ rest, ∃ e, r.read (v ++ rest) = .error e) :
    ∃ outcome : Option α, ∀ rest, Ends rest →
      (r.read (v ++ rest)).toOption = outcome.map (·, rest) :=
  ⟨none, fun rest _ => toOption_eq_none_iff.mpr (hrefused rest)⟩

theorem settles_string : string.Settles := by
  apply Settles.of_outcome
  · intro g cs
    simp only [string, skipBlanks_gap]
  · intro v hv
    obtain ⟨c, tail, rfl, hblank, -⟩ := hv.begins
    by_cases hc : c = '"'
    · subst hc
      obtain ⟨cs, hcs, rfl⟩ := hv.string_of_head
      refine ⟨spelled? cs, fun rest _ => ?_⟩
      rw [← takeString_append hcs]
      simp only [string, List.cons_append, List.append_assoc, List.nil_append,
        skipBlanks_of_not_blank hblank]
    · apply outcome_of_refused
      intro rest
      simp only [string, List.cons_append, skipBlanks_of_not_blank hblank]
      split
      · rename_i heq
        exact absurd (List.cons.inj heq).1 hc
      · exact ⟨_, rfl⟩

theorem settles_number : number.Settles := by
  apply Settles.of_outcome
  · intro g cs
    simp only [number, skipBlanks_gap]
  · intro v hv
    obtain ⟨c, tail, rfl, hblank, -⟩ := hv.begins
    by_cases hc : Leads c
    · obtain ⟨outcome, houtcome⟩ := determined_takeNumber (hv.number_of_head hc)
      refine ⟨outcome.toOption, fun rest hrest => ?_⟩
      have htake : takeNumber (c :: (tail ++ rest)) = _ := houtcome rest hrest.stops
      rw [Leads] at hc
      simp only [number, List.cons_append, skipBlanks_of_not_blank hblank, if_pos hc, htake]
      cases outcome with
      | error e => rfl
      | ok n => rfl
    · apply outcome_of_refused
      intro rest
      rw [Leads] at hc
      simp only [number, List.cons_append, skipBlanks_of_not_blank hblank, if_neg hc]
      exact ⟨_, rfl⟩

theorem settles_real : real.Settles := settles_number.map _

theorem settles_natural : natural.Settles := settles_number.filterMap _

/-! ### Lists -/

/-- Parts with a comma before each, or before each but the first. -/
def joined (first : Bool) (parts : List (List Char)) : List Char :=
  if first then [','].intercalate parts else parts.flatMap (',' :: ·)

theorem joined_nil (first : Bool) : joined first [] = [] := by
  cases first with
  | true => rfl
  | false => rfl

theorem ends_joined (after : Gap) (parts : List (List Char)) (last : Gap) {closing : Char}
    (hclosing : closing = ']' ∨ closing = '\x7d') (rest : List Char) :
    Ends (after.text ++ (joined false parts ++ (last.text ++ closing :: rest))) :=
  ends_gap after (ends_parts parts last hclosing rest)

theorem nextElement_gap (first : Bool) (g : Gap) (cs : List Char) :
    nextElement first (g.text ++ cs) = nextElement first cs := by
  simp only [nextElement, skipBlanks_gap]

theorem nextElement_comma (cs : List Char) :
    nextElement false (',' :: cs) =
      match skipBlanks cs with
      | [] => .error .ended
      | ']' :: _ => .error .malformed
      | element => .ok (some element, element) := rfl

theorem nextElement_comma_gap (g : Gap) (cs : List Char) :
    nextElement false (',' :: (g.text ++ cs)) = nextElement false (',' :: cs) := by
  rw [nextElement_comma, nextElement_comma, skipBlanks_gap]

theorem nextElement_end (first : Bool) (g last : Gap) (rest : List Char) :
    nextElement first (g.text ++ (joined first [] ++ (last.text ++ ']' :: rest))) =
      .ok (none, rest) := by
  rw [joined_nil, List.nil_append, nextElement_gap, nextElement_gap]
  rfl

theorem nextElement_slot (first : Bool) (g : Gap) {s : Slot} (hbegins : Begins s.value)
    (parts : List (List Char)) (cs : List Char) :
    ∃ after, nextElement first (g.text ++ (joined first (s.text :: parts) ++ cs)) =
      .ok (some (s.value ++ (s.after.text ++ (joined false parts ++ cs))), after) := by
  rw [nextElement_gap]
  cases first with
  | true =>
    obtain ⟨after, hnext⟩ := nextElement_first (hbegins.append _)
    refine ⟨after, ?_⟩
    rw [joined, if_pos rfl, intercalate_cons, Slot.text]
    simp only [List.append_assoc, nextElement_gap]
    exact hnext
  | false =>
    obtain ⟨after, hnext⟩ := nextElement_later (hbegins.append _)
    refine ⟨after, ?_⟩
    rw [joined, if_neg (by decide), List.flatMap_cons, Slot.text]
    simp only [List.cons_append, List.append_assoc, nextElement_comma_gap]
    exact hnext

theorem elements_eq (r : Reader α) (first : Bool) (cs : List Char) :
    elements r first cs =
      match nextElement first cs with
      | .error e => .error e
      | .ok (none, rest) => .ok ([], rest)
      | .ok (some element, _) =>
        match r.read element with
        | .error e => .error e
        | .ok (x, rest) => (elements r false rest).map fun (xs, after) => (x :: xs, after) := by
  rw [elements.eq_def]
  cases nextElement first cs with
  | error e => rfl
  | ok next =>
    obtain ⟨element, after⟩ := next
    cases element with
    | none => rfl
    | some element =>
      dsimp only
      cases r.read element with
      | error e => rfl
      | ok taken =>
        dsimp only
        cases elements r false taken.2 with
        | error e => rfl
        | ok later => rfl

theorem elements_slots (hr : r.Settles) {slots : List Slot}
    (hslots : ∀ s ∈ slots, IsValue s.value) (first : Bool) (g last : Gap) (rest : List Char) :
    (elements r first
        (g.text ++ (joined first (slots.map Slot.text) ++ (last.text ++ ']' :: rest)))).toOption =
      (slots.mapM fun s => r.value? s.value).map (·, rest) := by
  induction slots generalizing first g with
  | nil =>
    rw [elements_eq, List.map_nil, nextElement_end]
    rfl
  | cons s slots ih =>
    obtain ⟨hs, hslots⟩ := List.forall_mem_cons.mp hslots
    obtain ⟨after, hnext⟩ := nextElement_slot first g hs.begins (slots.map Slot.text)
      (last.text ++ ']' :: rest)
    have hends := ends_joined s.after (slots.map Slot.text) last (Or.inl rfl) rest
    have hrest := ih hslots false s.after
    rw [elements_eq, List.map_cons, hnext, List.mapM_cons]
    cases hx : r.value? s.value with
    | none =>
      obtain ⟨e, he⟩ := hr.read_of_none hs hx hends
      simp only [he]
      rfl
    | some x =>
      simp only [hr.read_of_some hs hx hends, toOption_map, hrest]
      cases slots.mapM fun s => r.value? s.value with
      | none => rfl
      | some xs => rfl

/-- A list is what its elements are. -/
theorem list_slots (hr : r.Settles) {slots : List Slot} (hslots : ∀ s ∈ slots, IsValue s.value)
    (last : Gap) (rest : List Char) :
    (r.list.read (listText slots last ++ rest)).toOption =
      (slots.mapM fun s => r.value? s.value).map (·, rest) := by
  have hskip := skipBlanks_of_not_blank (c := '[') rfl
  simp only [list, listText, List.cons_append, List.append_assoc, List.nil_append, hskip]
  exact elements_slots hr hslots true Gap.none last rest

theorem value?_list (hr : r.Settles) {slots : List Slot} (hslots : ∀ s ∈ slots, IsValue s.value)
    (last : Gap) :
    r.list.value? (listText slots last) = slots.mapM fun s => r.value? s.value := by
  have hread := list_slots hr hslots last []
  rw [List.append_nil] at hread
  rw [value?, hread, Option.map_map]
  exact Option.map_id'

theorem Settles.list (hr : r.Settles) : r.list.Settles := by
  apply Settles.of_outcome
  · intro g cs
    simp only [Reader.list, skipBlanks_gap]
  · intro v hv
    obtain ⟨c, tail, rfl, hblank, -⟩ := hv.begins
    by_cases hc : c = '['
    · subst hc
      obtain ⟨slots, last, hslots, heq⟩ := hv.list_of_head
      rw [heq]
      exact ⟨_, fun rest _ => list_slots hr hslots last rest⟩
    · apply outcome_of_refused
      intro rest
      simp only [Reader.list, List.cons_append, skipBlanks_of_not_blank hblank]
      split
      · rename_i heq
        exact absurd (List.cons.inj heq).1 hc
      · exact ⟨_, rfl⟩

end Reader

/-! ### Records -/

namespace Member

open Reader

variable {δ : Type} {ms : List (Member δ)}

/-- What a member of an object makes of a draft: nothing if its name is unknown, and no draft if it
was given before, or if its name spells no text, or if its value is refused. -/
def note (ms : List (Member δ)) (draft : Option δ) (e : Entry) : Option δ := do
  let d ← draft
  let name ← spelled? e.spelling
  match ms.find? (·.name = name) with
  | none => some d
  | some m => if m.given d then none else (m.value.value? e.value).map (· d)

section Note

variable {d : δ} {e : Entry} {name : String}

theorem note_of_not_spelled (hname : spelled? e.spelling = none) : note ms (some d) e = none := by
  simp [note, hname]

theorem note_of_spelled (hname : spelled? e.spelling = some name) :
    note ms (some d) e =
      match ms.find? (·.name = name) with
      | none => some d
      | some m => if m.given d then none else (m.value.value? e.value).map (· d) := by
  simp [note, hname]

end Note

theorem nextMember_gap (first : Bool) (g : Gap) (cs : List Char) :
    nextMember first (g.text ++ cs) = nextMember first cs := by
  simp only [nextMember, skipBlanks_gap]

theorem nextMember_end (first : Bool) (g last : Gap) (rest : List Char) :
    nextMember first (g.text ++ (joined first [] ++ (last.text ++ '\x7d' :: rest))) =
      .ok (none, rest) := by
  rw [joined_nil, List.nil_append, nextMember_gap, nextMember_gap]
  rfl

theorem nextMember_comma {cs key : List Char} (hkey : skipBlanks cs = '"' :: key) :
    nextMember false (',' :: cs) = .ok (some key, key) := by
  have hcomma : skipBlanks (',' :: cs) = ',' :: cs := rfl
  simp [nextMember, hcomma, hkey]

theorem nextMember_entry (first : Bool) (g : Gap) (e : Entry) (parts : List (List Char))
    (cs : List Char) :
    nextMember first (g.text ++ (joined first (e.text :: parts) ++ cs)) =
      .ok (some (e.rest ++ (joined false parts ++ cs)), e.rest ++ (joined false parts ++ cs)) := by
  rw [nextMember_gap]
  cases first with
  | true =>
    rw [joined, if_pos rfl, intercalate_cons, Entry.text]
    simp only [List.append_assoc, List.cons_append, nextMember_gap]
    rfl
  | false =>
    have hskip := skipBlanks_gap_cons e.before (c := '"') rfl
    rw [joined, if_neg (by decide), List.flatMap_cons, Entry.text]
    simp only [List.cons_append, List.append_assoc]
    exact nextMember_comma (hskip _)

theorem takeMember_entry (hms : ∀ m ∈ ms, m.value.Settles) (d : δ) {e : Entry}
    (he : IsValue e.value) {cs : List Char} (hcs : Ends (e.after.text ++ cs)) :
    (takeMember ms d (e.rest ++ cs)).toOption =
      (note ms (some d) e).map (·, e.after.text ++ cs) := by
  have hspelled := takeString_append e.spelled (e.beforeColon.text ++ ':' :: (e.beforeValue.text ++
    (e.value ++ (e.after.text ++ cs))))
  have hcolon := skipBlanks_gap_cons e.beforeColon (c := ':') rfl
    (e.beforeValue.text ++ (e.value ++ (e.after.text ++ cs)))
  simp only [takeMember, Entry.rest, List.append_assoc, List.cons_append]
  cases hname : spelled? e.spelling with
  | none =>
    rw [hname, Option.map_none, toOption_eq_none_iff] at hspelled
    obtain ⟨fault, hfault⟩ := hspelled
    simp only [hfault, note_of_not_spelled hname]
    rfl
  | some name =>
    rw [hname, Option.map_some, toOption_eq_some_iff] at hspelled
    rw [note_of_spelled hname]
    simp only [hspelled, takeColon, hcolon, Except.bind]
    cases hfind : ms.find? (·.name = name) with
    | none =>
      simp only [passValue_append e.beforeValue he hcs]
      rfl
    | some m =>
      have hm := hms m (List.mem_of_find?_eq_some hfind)
      by_cases hgiven : m.given d = true
      · simp only [hgiven, if_true]
        rfl
      · simp only [hgiven, if_false, Bool.false_eq_true, hm.skips]
        cases hchange : m.value.value? e.value with
        | none =>
          obtain ⟨fault, hfault⟩ := hm.read_of_none he hchange hcs
          simp only [hfault]
          rfl
        | some change =>
          simp only [hm.read_of_some he hchange hcs]
          rfl

theorem takeMembers_eq (ms : List (Member δ)) (first : Bool) (d : δ) (cs : List Char) :
    takeMembers ms first d cs =
      match nextMember first cs with
      | .error e => .error e
      | .ok (none, rest) => .ok (d, rest)
      | .ok (some key, _) =>
        match takeMember ms d key with
        | .error e => .error e
        | .ok (d, rest) => takeMembers ms false d rest := by
  rw [takeMembers.eq_def]
  cases nextMember first cs with
  | error e => rfl
  | ok next =>
    obtain ⟨key, after⟩ := next
    cases key with
    | none => rfl
    | some key =>
      dsimp only
      cases takeMember ms d key with
      | error e => rfl
      | ok taken => rfl

theorem foldl_note_none (entries : List Entry) : entries.foldl (note ms) none = none := by
  induction entries with
  | nil => rfl
  | cons e entries ih => exact ih

/-- The members of an object are noted one after the other. -/
theorem takeMembers_entries (hms : ∀ m ∈ ms, m.value.Settles) {entries : List Entry}
    (hentries : ∀ e ∈ entries, IsValue e.value) (first : Bool) (d : δ) (g last : Gap)
    (rest : List Char) :
    (takeMembers ms first d
        (g.text ++ (joined first (entries.map Entry.text) ++
          (last.text ++ '\x7d' :: rest)))).toOption =
      (entries.foldl (note ms) (some d)).map (·, rest) := by
  induction entries generalizing first d g with
  | nil =>
    rw [takeMembers_eq, List.map_nil, nextMember_end]
    rfl
  | cons e entries ih =>
    obtain ⟨he, hentries⟩ := List.forall_mem_cons.mp hentries
    have hends := ends_joined e.after (entries.map Entry.text) last (Or.inr rfl) rest
    have hmember := takeMember_entry hms d he hends
    rw [takeMembers_eq, List.map_cons, nextMember_entry, List.foldl_cons]
    cases hnote : note ms (some d) e with
    | none =>
      rw [hnote, Option.map_none, toOption_eq_none_iff] at hmember
      obtain ⟨fault, hfault⟩ := hmember
      simp only [hfault, foldl_note_none]
      rfl
    | some next =>
      rw [hnote, Option.map_some, toOption_eq_some_iff] at hmember
      simp only [hmember]
      exact ih hentries false next e.after

/-- Elements behind the last member are refused. -/
theorem takeListed_nil_of_element {first : Bool} {d : δ} {cs element after : List Char}
    (hnext : nextElement first cs = .ok (some element, after)) :
    takeListed first d ([] : List (Member δ)) cs = .error .malformed := by
  unfold nextElement at hnext
  unfold takeListed
  split at hnext
  · cases hnext
  · cases hnext
  · rename_i c rest hend hcs
    rw [hcs]
    split
    · rename_i heq
      cases heq
    · rename_i heq
      cases heq
      exact absurd rfl hend
    · rfl

/-- What a list of elements makes of a draft, each of the member that stands in its place. Too many
elements make nothing of it. -/
def listed : List (Member δ) → δ → List Slot → Option δ
  | _, d, [] => some d
  | [], _, _ :: _ => none
  | m :: ms, d, s :: slots => (m.value.value? s.value).bind fun change => listed ms (change d) slots

theorem takeListed_end (ms : List (Member δ)) (first : Bool) (d : δ) (g last : Gap)
    (rest : List Char) :
    takeListed first d ms (g.text ++ (joined first [] ++ (last.text ++ ']' :: rest))) =
      .ok (d, rest) := by
  cases ms with
  | cons m ms => rw [takeListed, nextElement_end]
  | nil =>
    simp only [takeListed, joined_nil, List.nil_append, skipBlanks_gap,
      skipBlanks_gap_cons last (c := ']') rfl]

/-- A record that is written as a list is taken element by element. -/
theorem takeListed_slots (hms : ∀ m ∈ ms, m.value.Settles) {slots : List Slot}
    (hslots : ∀ s ∈ slots, IsValue s.value) (first : Bool) (d : δ) (g last : Gap)
    (rest : List Char) :
    (takeListed first d ms
        (g.text ++ (joined first (slots.map Slot.text) ++ (last.text ++ ']' :: rest)))).toOption =
      (listed ms d slots).map (·, rest) := by
  induction slots generalizing ms first d g with
  | nil =>
    rw [List.map_nil, takeListed_end, listed]
    rfl
  | cons s slots ih =>
    obtain ⟨hs, hslots⟩ := List.forall_mem_cons.mp hslots
    have hends := ends_joined s.after (slots.map Slot.text) last (Or.inl rfl) rest
    obtain ⟨after, hnext⟩ := nextElement_slot first g hs.begins (slots.map Slot.text)
      (last.text ++ ']' :: rest)
    cases ms with
    | nil =>
      rw [List.map_cons, takeListed_nil_of_element hnext]
      rfl
    | cons m ms =>
      obtain ⟨hm, hms⟩ := List.forall_mem_cons.mp hms
      rw [List.map_cons, takeListed, hnext, listed]
      cases hchange : m.value.value? s.value with
      | none =>
        obtain ⟨fault, hfault⟩ := hm.read_of_none hs hchange hends
        simp only [hfault]
        rfl
      | some change =>
        simp only [hm.read_of_some hs hchange hends]
        exact ih hms hslots false (change d) s.after

end Member

namespace Reader

variable {δ α : Type} {ms : List (Member δ)} {d : δ} {finish : δ → Option α}

def finished (finish : δ → Option α) : Taken δ → Taken α
  | .error e => .error e
  | .ok (result, rest) =>
    match finish result with
    | none => .error .mismatch
    | some x => .ok (x, rest)

theorem toOption_finished {taken : Taken δ} {outcome : Option δ} {rest : List Char}
    (htaken : taken.toOption = outcome.map (·, rest)) :
    (finished finish taken).toOption = (outcome.bind finish).map (·, rest) := by
  cases outcome with
  | none =>
    obtain ⟨e, rfl⟩ := toOption_eq_none_iff.mp htaken
    rfl
  | some result =>
    obtain rfl := toOption_eq_some_iff.mp htaken
    simp only [finished, Option.bind_some]
    cases finish result with
    | none => rfl
    | some x => rfl

theorem record_read_object (cs : List Char) :
    (record ms d finish).read ('\x7b' :: cs) = finished finish (Member.takeMembers ms true d cs) :=
  rfl

theorem record_read_list (cs : List Char) :
    (record ms d finish).read ('[' :: cs) = finished finish (Member.takeListed true d ms cs) :=
  rfl

/-- A record is finished from the draft that its members make. -/
theorem record_entries (hms : ∀ m ∈ ms, m.value.Settles) {entries : List Entry}
    (hentries : ∀ e ∈ entries, IsValue e.value) (last : Gap) (rest : List Char) :
    ((record ms d finish).read (objectText entries last ++ rest)).toOption =
      ((entries.foldl (Member.note ms) (some d)).bind finish).map (·, rest) := by
  simp only [objectText, List.cons_append, List.append_assoc, List.nil_append, record_read_object]
  exact toOption_finished (Member.takeMembers_entries hms hentries true d Gap.none last rest)

theorem value?_record (hms : ∀ m ∈ ms, m.value.Settles) {entries : List Entry}
    (hentries : ∀ e ∈ entries, IsValue e.value) (last : Gap) :
    (record ms d finish).value? (objectText entries last) =
      (entries.foldl (Member.note ms) (some d)).bind finish := by
  have hread := @record_entries _ _ ms d finish hms entries hentries last []
  rw [List.append_nil] at hread
  rw [value?, hread, Option.map_map]
  exact Option.map_id'

theorem settles_record (hms : ∀ m ∈ ms, m.value.Settles) : (record ms d finish).Settles := by
  apply Settles.of_outcome
  · intro g cs
    simp only [record, filterMap, skipBlanks_gap]
  · intro v hv
    obtain ⟨c, tail, rfl, hblank, -⟩ := hv.begins
    by_cases hcurly : c = '\x7b'
    · subst hcurly
      obtain ⟨entries, last, hentries, heq⟩ := hv.object_of_head
      rw [heq]
      exact ⟨_, fun rest _ => record_entries hms hentries last rest⟩
    · by_cases hsquare : c = '['
      · subst hsquare
        obtain ⟨slots, last, hslots, heq⟩ := hv.list_of_head
        rw [heq]
        refine ⟨(Member.listed ms d slots).bind finish, fun rest _ => ?_⟩
        simp only [listText, List.cons_append, List.append_assoc, List.nil_append,
          record_read_list]
        exact toOption_finished (Member.takeListed_slots hms hslots true d Gap.none last rest)
      · apply outcome_of_refused
        intro rest
        simp only [record, filterMap, List.cons_append, skipBlanks_of_not_blank hblank]
        split
        · exact ⟨_, rfl⟩
        · rename_i htaken
          split at htaken
          · rename_i heq
            exact absurd (List.cons.inj heq).1 hsquare
          · rename_i heq
            exact absurd (List.cons.inj heq).1 hcurly
          · cases htaken

end Reader

end RollCall.Json
