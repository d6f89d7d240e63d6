import RollCall.Proofs.Scalars

/-!
# What is accepted is well-formed

The grammar leaves nothing out. Whatever a reader takes off the front of a text is a value, with
blanks before it, and so is whatever is passed over as one. The reading keeps no more than the open
brackets of what it passes over, so what it has passed over is told from its end: what is pending is
well-formed if what is left of it after a step is.
-/

namespace RollCall.Json

/-! ## Parts of a text -/

variable {cs mid rest : List Char}

theorem exists_gap (cs : List Char) : ∃ g : Gap, cs = g.text ++ skipBlanks cs :=
  ⟨⟨cs.takeWhile isBlank, fun _ hc => List.mem_takeWhile_imp hc⟩,
    List.takeWhile_append_dropWhile.symm⟩

def Gap.append (g g' : Gap) : Gap :=
  ⟨g.text ++ g'.text, fun c hc => (List.mem_append.mp hc).elim (g.blank c) (g'.blank c)⟩

/-- A value stands at the front of a text, before the rest. -/
def Front (cs rest : List Char) : Prop :=
  ∃ (g : Gap) (v : List Char), IsValue v ∧ cs = g.text ++ (v ++ rest)

theorem Front.gap (g : Gap) (h : Front cs rest) : Front (g.text ++ cs) rest := by
  obtain ⟨g', v, hv, rfl⟩ := h
  exact ⟨g.append g', v, hv, (List.append_assoc _ _ _).symm⟩

theorem Front.of_skipBlanks (h : Front (skipBlanks cs) rest) : Front cs rest := by
  obtain ⟨g, hg⟩ := exists_gap cs
  rw [hg]
  exact h.gap g

theorem exists_map_eq {α β : Type} {f : α → β} {p : α → Prop} {ys : List β}
    (h : ∀ y ∈ ys, ∃ x, p x ∧ f x = y) :
    ∃ xs : List α, (∀ x ∈ xs, p x) ∧ xs.map f = ys := by
  induction ys with
  | nil => exact ⟨[], List.forall_mem_nil _, rfl⟩
  | cons y ys ih =>
    obtain ⟨⟨x, hx, rfl⟩, hys⟩ := List.forall_mem_cons.mp h
    obtain ⟨xs, hxs, rfl⟩ := ih hys
    exact ⟨x :: xs, List.forall_mem_cons.mpr ⟨hx, hxs⟩, rfl⟩

/-- A member stands at the front of a text, from behind the opening quote of its name. -/
def Keyed (cs rest : List Char) : Prop :=
  ∃ (spelling : List Char) (g : Gap) (value : List Char), IsChars spelling ∧
    cs = spelling ++ '"' :: (g.text ++ ':' :: value) ∧ Front value rest

namespace Bracket

variable {b : Bracket} {first : Bool}

def closing : Bracket → Char
  | square => ']'
  | curly => '\x7d'

/-- An element of a list or a member of an object stands at the front of a text. -/
def Part : Bracket → List Char → List Char → Prop
  | square, cs, rest => Front cs rest
  | curly, cs, rest => ∃ (g : Gap) (key : List Char), cs = g.text ++ '"' :: key ∧ Keyed key rest

/-- What a bracket still holds stands at the front of a text: from its beginning, or from behind
one of its parts. -/
inductive Holds (b : Bracket) : Bool → List Char → List Char → Prop
  | close (first : Bool) (g : Gap) (rest : List Char) :
      Holds b first (g.text ++ b.closing :: rest) rest
  | first {cs mid rest : List Char} : b.Part cs mid → Holds b false mid rest → Holds b true cs rest
  | comma (g : Gap) {cs mid rest : List Char} :
      b.Part cs mid → Holds b false mid rest → Holds b false (g.text ++ ',' :: cs) rest

/-- The text of an element of a list or of a member of an object, with blanks around it. -/
def IsPart : Bracket → List Char → Prop
  | square, part => ∃ s : Slot, IsValue s.value ∧ s.text = part
  | curly, part => ∃ e : Entry, IsValue e.value ∧ e.text = part

theorem Part.gap (g : Gap) (h : b.Part cs rest) : b.Part (g.text ++ cs) rest := by
  cases b with
  | square => exact Front.gap g h
  | curly =>
    obtain ⟨g', key, rfl, hkey⟩ := h
    exact ⟨g.append g', key, (List.append_assoc _ _ _).symm, hkey⟩

theorem Holds.gap (g : Gap) (h : b.Holds first cs rest) : b.Holds first (g.text ++ cs) rest := by
  cases h with
  | close first g' rest =>
    rw [← List.append_assoc]
    exact .close first (g.append g') rest
  | first hpart hfurther => exact .first (hpart.gap g) hfurther
  | comma g' hpart hfurther =>
    rw [← List.append_assoc]
    exact .comma (g.append g') hpart hfurther

theorem Holds.of_skipBlanks (h : b.Holds first (skipBlanks cs) rest) : b.Holds first cs rest := by
  obtain ⟨g, hg⟩ := exists_gap cs
  rw [hg]
  exact h.gap g

theorem Part.exists_isPart {after : Gap} (h : b.Part cs (after.text ++ rest)) :
    ∃ part, b.IsPart part ∧ cs = part ++ rest := by
  cases b with
  | square =>
    obtain ⟨g, v, hv, rfl⟩ := h
    exact ⟨_, ⟨⟨g, v, after⟩, hv, rfl⟩, by simp [Slot.text]⟩
  | curly =>
    obtain ⟨g, key, rfl, spelling, g', value, hspelling, rfl, g'', v, hv, rfl⟩ := h
    exact ⟨_, ⟨⟨g, spelling, hspelling, g', g'', v, after⟩, hv, rfl⟩,
      by simp [Entry.text, Entry.rest]⟩

/-- Behind one of its parts, a bracket holds further parts, each behind a comma. -/
theorem Holds.exists_further (h : b.Holds first cs rest) (hfirst : first = false) :
    ∃ (g : Gap) (parts : List (List Char)) (last : Gap), (∀ part ∈ parts, b.IsPart part) ∧
      cs = g.text ++ (parts.flatMap (',' :: ·) ++ (last.text ++ b.closing :: rest)) := by
  induction h with
  | close first g rest => exact ⟨g, [], Gap.none, List.forall_mem_nil _, rfl⟩
  | first => cases hfirst
  | comma g hpart _ ih =>
    obtain ⟨g', parts, last, hparts, rfl⟩ := ih rfl
    obtain ⟨part, hfirst, rfl⟩ := hpart.exists_isPart
    exact ⟨g, part :: parts, last, List.forall_mem_cons.mpr ⟨hfirst, hparts⟩, by simp⟩

theorem Holds.exists_parts (h : b.Holds true cs rest) :
    ∃ (parts : List (List Char)) (last : Gap), (∀ part ∈ parts, b.IsPart part) ∧
      cs = [','].intercalate parts ++ (last.text ++ b.closing :: rest) := by
  cases h with
  | close _ g => exact ⟨[], g, List.forall_mem_nil _, by simp⟩
  | first hpart hfurther =>
    obtain ⟨g, parts, last, hparts, rfl⟩ := hfurther.exists_further rfl
    obtain ⟨part, hfirst, rfl⟩ := hpart.exists_isPart
    refine ⟨part :: parts, last, List.forall_mem_cons.mpr ⟨hfirst, hparts⟩, ?_⟩
    rw [intercalate_cons, List.append_assoc]

theorem front_square (h : square.Holds true cs rest) : Front ('[' :: cs) rest := by
  obtain ⟨parts, last, hparts, rfl⟩ := h.exists_parts
  obtain ⟨slots, hslots, rfl⟩ := exists_map_eq hparts
  exact ⟨Gap.none, _, .list last hslots, by simp [listText, Gap.none, closing]⟩

theorem front_curly (h : curly.Holds true cs rest) : Front ('\x7b' :: cs) rest := by
  obtain ⟨parts, last, hparts, rfl⟩ := h.exists_parts
  obtain ⟨entries, hentries, rfl⟩ := exists_map_eq hparts
  exact ⟨Gap.none, _, .object last hentries, by simp [objectText, Gap.none, closing]⟩

end Bracket

/-! ## Values that are passed over -/

theorem takeWord_eq {word : List Char} (h : takeWord word cs = .ok rest) : cs = word ++ rest := by
  induction word generalizing cs with
  | nil =>
    cases h
    rfl
  | cons c word ih =>
    cases cs with
    | nil => cases h
    | cons d cs =>
      rw [takeWord] at h
      split at h
      · rename_i heq
        rw [heq, ih h, List.cons_append]
      · cases h

theorem IsValue.front {v : List Char} (hv : IsValue v) : Front (v ++ rest) rest :=
  ⟨Gap.none, v, hv, rfl⟩

theorem front_of_passScalar? (h : passScalar? cs = some (.ok rest)) : Front cs rest := by
  unfold passScalar? at h
  split at h
  · rw [takeWord_eq (Option.some.inj h)]
    exact IsValue.null.front
  · rw [takeWord_eq (Option.some.inj h)]
    exact IsValue.true.front
  · rw [takeWord_eq (Option.some.inj h)]
    exact IsValue.false.front
  · obtain ⟨spelling, hspelling, rfl⟩ := exists_isChars (Option.some.inj h)
    exact ⟨Gap.none, _, .string hspelling, by simp [Gap.none]⟩
  · split at h
    · obtain ⟨text, htext, heq⟩ := exists_isNumber (Option.some.inj h)
      rw [heq]
      exact (IsValue.number htext).front
    · cases h
  · cases h

theorem exists_colon {value : List Char} (h : takeColon cs = .ok value) :
    ∃ g : Gap, cs = g.text ++ ':' :: value := by
  obtain ⟨g, hg⟩ := exists_gap cs
  unfold takeColon at h
  split at h
  · cases h
  · rename_i hskip
    cases h
    exact ⟨g, by rw [← hskip, ← hg]⟩
  · cases h

theorem exists_key {value : List Char} (h : passKey cs = .ok value) (hvalue : Front value rest) :
    Bracket.curly.Part cs rest := by
  obtain ⟨g, hg⟩ := exists_gap cs
  unfold passKey at h
  split at h
  · cases h
  · rename_i key hskip
    obtain ⟨after, hstring, hcolon⟩ := exists_of_bind_eq_ok h
    obtain ⟨spelling, hspelling, rfl⟩ := exists_isChars hstring
    obtain ⟨g', rfl⟩ := exists_colon hcolon
    exact ⟨g, _, by rw [← hskip, ← hg], spelling, g', value, hspelling, rfl, hvalue⟩
  · cases h

namespace Pending

variable {p q : Pending} {b : Bracket} {outer : List Bracket}

/-- What open brackets still hold, the innermost first, stands at the front of a text. -/
def Closes : List Bracket → List Char → List Char → Prop
  | [], cs, rest => cs = rest
  | b :: outer, cs, rest => ∃ mid, b.Holds false cs mid ∧ Closes outer mid rest

/-- What is pending is well-formed up to the rest. -/
def WellFormed : Pending → List Char → Prop
  | ⟨.value, brackets, cs⟩, rest => ∃ mid, Front cs mid ∧ Closes brackets mid rest
  | ⟨.opened, b :: outer, cs⟩, rest => ∃ mid, b.Holds true cs mid ∧ Closes outer mid rest
  | ⟨.opened, [], cs⟩, rest => cs = rest
  | ⟨.closed, brackets, cs⟩, rest => Closes brackets cs rest

theorem front_of_enterValue (h : enterValue outer cs = .ok q) (hq : q.WellFormed rest) :
    ∃ mid, Front cs mid ∧ Closes outer mid rest := by
  unfold enterValue at h
  split at h
  · cases h
  · cases h
    obtain ⟨mid, hholds, hcloses⟩ := hq
    exact ⟨mid, Bracket.front_square hholds, hcloses⟩
  · cases h
    obtain ⟨mid, hholds, hcloses⟩ := hq
    exact ⟨mid, Bracket.front_curly hholds, hcloses⟩
  · split at h
    · cases h
    · rename_i hscalar
      obtain ⟨mid, rfl, rfl⟩ := exists_of_map_eq_ok h
      exact ⟨mid, front_of_passScalar? hscalar, hq⟩

theorem holds_of_enterBracket (h : enterBracket b outer cs = .ok q) (hq : q.WellFormed rest) :
    ∃ mid, b.Holds true cs mid ∧ Closes outer mid rest := by
  unfold enterBracket at h
  split at h
  · cases h
  · cases h
    exact ⟨_, .close true Gap.none _, hq⟩
  · cases h
    exact ⟨_, .close true Gap.none _, hq⟩
  · cases h
    obtain ⟨mid, hfront, mid', hholds, hcloses⟩ := hq
    exact ⟨mid', .first hfront hholds, hcloses⟩
  · obtain ⟨value, hkey, rfl⟩ := exists_of_map_eq_ok h
    obtain ⟨mid, hfront, mid', hholds, hcloses⟩ := hq
    exact ⟨mid', .first (exists_key hkey hfront) hholds, hcloses⟩

theorem holds_of_leaveValue (h : leaveValue b outer cs = .ok q) (hq : q.WellFormed rest) :
    ∃ mid, b.Holds false cs mid ∧ Closes outer mid rest := by
  unfold leaveValue at h
  split at h
  · cases h
  · cases h
    exact ⟨_, .close false Gap.none _, hq⟩
  · cases h
    exact ⟨_, .close false Gap.none _, hq⟩
  · cases h
    obtain ⟨mid, hfront, mid', hholds, hcloses⟩ := hq
    exact ⟨mid', .comma Gap.none hfront hholds, hcloses⟩
  · obtain ⟨value, hkey, rfl⟩ := exists_of_map_eq_ok h
    obtain ⟨mid, hfront, mid', hholds, hcloses⟩ := hq
    exact ⟨mid', .comma Gap.none (exists_key hkey hfront) hholds, hcloses⟩
  · cases h

/-- What is pending is well-formed if what is left of it after a step is. -/
theorem wellFormed_of_step (h : p.step = .ok (.inl q)) (hq : q.WellFormed rest) :
    p.WellFormed rest := by
  obtain ⟨place, brackets, cs⟩ := p
  cases place with
  | value =>
    obtain ⟨q', hstep, heq⟩ := exists_of_map_eq_ok h
    cases heq
    obtain ⟨mid, hfront, hcloses⟩ := front_of_enterValue hstep hq
    exact ⟨mid, hfront.of_skipBlanks, hcloses⟩
  | opened =>
    cases brackets with
    | nil => cases h
    | cons b outer =>
      obtain ⟨q', hstep, heq⟩ := exists_of_map_eq_ok h
      cases heq
      obtain ⟨mid, hholds, hcloses⟩ := holds_of_enterBracket hstep hq
      exact ⟨mid, hholds.of_skipBlanks, hcloses⟩
  | closed =>
    cases brackets with
    | nil => cases h
    | cons b outer =>
      obtain ⟨q', hstep, heq⟩ := exists_of_map_eq_ok h
      cases heq
      obtain ⟨mid, hholds, hcloses⟩ := holds_of_leaveValue hstep hq
      exact ⟨mid, hholds.of_skipBlanks, hcloses⟩

theorem wellFormed_of_end (h : p.step = .ok (.inr rest)) : p.WellFormed rest := by
  obtain ⟨htext, hbrackets, hplace⟩ := step_text h
  obtain ⟨place, brackets, cs⟩ := p
  subst htext hbrackets
  cases place with
  | value => exact absurd rfl hplace
  | opened => rfl
  | closed => rfl

theorem wellFormed_of_pass (h : p.pass = .ok rest) : p.WellFormed rest := by
  fun_induction pass p with
  | case1 => cases h
  | case2 p rest' hend =>
    cases h
    exact wellFormed_of_end hend
  | case3 p q hstep ih => exact wellFormed_of_step hstep (ih h)

end Pending

/-- Only a value is passed over. -/
theorem front_of_passValue (h : passValue cs = .ok rest) : Front cs rest := by
  obtain ⟨mid, hfront, rfl⟩ := Pending.wellFormed_of_pass h
  exact hfront

/-! ## Values that are read -/

def Reader.TakesValues {α : Type} (r : Reader α) : Prop :=
  ∀ (cs rest : List Char) (x : α), r.read cs = .ok (x, rest) → Front cs rest

namespace Reader

variable {α β : Type} {r : Reader α} {first : Bool}

theorem TakesValues.map (hr : r.TakesValues) (f : α → β) : (r.map f).TakesValues := by
  intro cs rest y h
  obtain ⟨⟨x, rest'⟩, hread, heq⟩ := exists_of_map_eq_ok h
  cases heq
  exact hr _ _ _ hread

theorem TakesValues.filterMap (hr : r.TakesValues) (f : α → Option β) :
    (r.filterMap f).TakesValues := by
  intro cs rest y h
  simp only [Reader.filterMap] at h
  split at h
  · cases h
  · rename_i hread
    split at h
    · cases h
    · cases h
      exact hr _ _ _ hread

theorem string_takesValues : string.TakesValues := by
  intro cs rest text h
  simp only [string] at h
  split at h
  · rename_i tail hskip
    apply Front.of_skipBlanks
    rw [hskip]
    apply front_of_passScalar?
    simp [passScalar?, passString_of_takeString h]
  · cases h

theorem number_takesValues : number.TakesValues := by
  intro cs rest n h
  simp only [number] at h
  split at h
  · cases h
  · rename_i c tail hskip
    split at h
    · rename_i hc
      apply Front.of_skipBlanks
      rw [hskip]
      apply front_of_passScalar?
      rw [passScalar?_number hc, passNumber_of_take h]
    · cases h

theorem real_takesValues : real.TakesValues := number_takesValues.map _

theorem natural_takesValues : natural.TakesValues := number_takesValues.filterMap _

theorem nextElement_end_holds (h : nextElement first cs = .ok (none, rest)) :
    Bracket.square.Holds first cs rest := by
  apply Bracket.Holds.of_skipBlanks
  unfold nextElement at h
  split at h
  · cases h
  · rename_i hskip
    cases h
    rw [hskip]
    exact .close first Gap.none rest
  · split at h
    · cases h
    · split at h
      · split at h
        · cases h
        · cases h
        · cases h
      · cases h

theorem nextElement_holds {element after : List Char}
    (h : nextElement first cs = .ok (some element, after)) (helement : Front element mid)
    (hfurther : Bracket.square.Holds false mid rest) : Bracket.square.Holds first cs rest := by
  apply Bracket.Holds.of_skipBlanks
  unfold nextElement at h
  split at h
  · cases h
  · cases h
  · rename_i c tail _ hskip
    rw [hskip]
    split at h
    · rename_i hfirst
      cases h
      subst hfirst
      exact .first helement hfurther
    · rename_i hfirst
      split at h
      · rename_i hcomma
        subst hcomma
        split at h
        · cases h
        · cases h
        · cases h
          rw [eq_false_of_ne_true hfirst]
          exact .comma Gap.none (Front.of_skipBlanks helement) hfurther
      · cases h

theorem elements_holds (hr : r.TakesValues) {xs : List α}
    (h : elements r first cs = .ok (xs, rest)) : Bracket.square.Holds first cs rest := by
  fun_induction elements r first cs generalizing xs with
  | case1 => cases h
  | case2 first cs after hend =>
    cases h
    exact nextElement_end_holds hend
  | case3 => cases h
  | case4 => cases h
  | case5 first cs element after hnext x mid hread xs' after' hrest ih =>
    cases h
    exact nextElement_holds hnext (hr _ _ _ hread) (ih hrest)

theorem TakesValues.list (hr : r.TakesValues) : r.list.TakesValues := by
  intro cs rest xs h
  simp only [Reader.list] at h
  split at h
  · rename_i hskip
    apply Front.of_skipBlanks
    rw [hskip]
    exact Bracket.front_square (elements_holds hr h)
  · cases h

end Reader

namespace Member

variable {δ : Type} {ms : List (Member δ)} {d result : δ} {first : Bool}

theorem takeListed_holds (hms : ∀ m ∈ ms, m.value.TakesValues)
    (h : takeListed first d ms cs = .ok (result, rest)) : Bracket.square.Holds first cs rest := by
  induction ms generalizing first d cs with
  | nil =>
    apply Bracket.Holds.of_skipBlanks
    unfold takeListed at h
    split at h
    · cases h
    · rename_i hskip
      cases h
      rw [hskip]
      exact .close first Gap.none rest
    · cases h
  | cons m ms ih =>
    obtain ⟨hm, hms⟩ := List.forall_mem_cons.mp hms
    unfold takeListed at h
    split at h
    · cases h
    · rename_i hend
      cases h
      exact Reader.nextElement_end_holds hend
    · rename_i hnext
      split at h
      · cases h
      · rename_i hread
        exact Reader.nextElement_holds hnext (hm _ _ _ hread) (ih hms h)

theorem nextMember_end_holds (h : nextMember first cs = .ok (none, rest)) :
    Bracket.curly.Holds first cs rest := by
  apply Bracket.Holds.of_skipBlanks
  simp only [nextMember] at h
  split at h
  · cases h
  · rename_i hskip
    cases h
    rw [hskip]
    exact .close first Gap.none rest
  · repeat' split at h
    all_goals cases h

theorem nextMember_holds {key after : List Char}
    (h : nextMember first cs = .ok (some key, after)) (hkey : Keyed key mid)
    (hfurther : Bracket.curly.Holds false mid rest) : Bracket.curly.Holds first cs rest := by
  apply Bracket.Holds.of_skipBlanks
  simp only [nextMember] at h
  split at h
  · cases h
  · cases h
  · rename_i c tail _ hskip
    rw [hskip]
    split at h
    · rename_i hfirst
      split at h
      · rename_i heq
        cases h
        rw [heq, hfirst]
        exact .first ⟨Gap.none, key, rfl, hkey⟩ hfurther
      · cases h
    · rename_i hfirst
      split at h
      · rename_i hcomma
        subst hcomma
        split at h
        · cases h
        · split at h
          · rename_i heq
            cases h
            obtain ⟨g, hg⟩ := exists_gap tail
            rw [heq] at hg
            rw [eq_false_of_ne_true hfirst]
            exact .comma Gap.none ⟨g, key, hg, hkey⟩ hfurther
          · cases h
      · cases h

theorem takeMember_keyed (hms : ∀ m ∈ ms, m.value.TakesValues)
    (h : takeMember ms d cs = .ok (result, rest)) : Keyed cs rest := by
  obtain ⟨key, after, value, hkey, hcolon, hvalue⟩ := takeMember_cases h
  obtain ⟨spelling, hspelling, rfl⟩ := exists_isChars (passString_of_takeString hkey)
  obtain ⟨g, rfl⟩ := exists_colon hcolon
  refine ⟨spelling, g, value, hspelling, rfl, ?_⟩
  rcases hvalue with ⟨hpass, -⟩ | ⟨m, hm, change, hread, -⟩
  · exact front_of_passValue hpass
  · exact hms m hm _ _ _ hread

theorem takeMembers_holds (hms : ∀ m ∈ ms, m.value.TakesValues)
    (h : takeMembers ms first d cs = .ok (result, rest)) : Bracket.curly.Holds first cs rest := by
  fun_induction takeMembers ms first d cs with
  | case1 => cases h
  | case2 first d cs after hend =>
    cases h
    exact nextMember_end_holds hend
  | case3 => cases h
  | case4 first d cs key after hnext d' mid hmember ih =>
    exact nextMember_holds hnext (takeMember_keyed hms hmember) (ih h)

end Member

theorem Reader.record_takesValues {δ α : Type} {ms : List (Member δ)} {d : δ}
    {finish : δ → Option α} (hms : ∀ m ∈ ms, m.value.TakesValues) :
    (record ms d finish).TakesValues := by
  unfold record
  apply Reader.TakesValues.filterMap
  intro cs rest x h
  simp only at h
  apply Front.of_skipBlanks
  split at h
  · rename_i hskip
    rw [hskip]
    exact Bracket.front_square (Member.takeListed_holds hms h)
  · rename_i hskip
    rw [hskip]
    exact Bracket.front_curly (Member.takeMembers_holds hms h)
  · cases h

/-- An accepted document is a value with blanks around it. -/
theorem Reader.TakesValues.exists_text {α : Type} {r : Reader α} (hr : r.TakesValues)
    {text : String} {x : α} (h : r.document text = .ok x) :
    ∃ (before : Gap) (v : List Char) (after : Gap), IsValue v ∧
      text = String.ofList (before.text ++ (v ++ after.text)) := by
  unfold Reader.document at h
  split at h
  · cases h
  · rename_i rest hread
    split at h
    · rename_i hblank
      obtain ⟨before, v, hv, htext⟩ := hr _ _ _ hread
      obtain ⟨after, hafter⟩ := exists_gap rest
      rw [List.isEmpty_iff.mp hblank, List.append_nil] at hafter
      exact ⟨before, v, after, hv, by rw [← hafter, ← htext, String.ofList_toList]⟩
    · cases h

end RollCall.Json
