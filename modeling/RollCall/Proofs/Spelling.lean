import RollCall.Proofs.Passing

/-!
# Strings that spell texts

A string that is read has to spell a text. It is taken as exactly the text that it spells, and a
string that spells none is refused, whatever follows it.
-/

namespace RollCall.Json

theorem takeChars_plain {c : Char} (hquote : c ≠ '"') (hback : c ≠ '\\') (hlow : 0x20 ≤ c.toNat)
    (cs : List Char) :
    takeChars (c :: cs) = (takeChars cs).map fun (text, rest) => (c :: text, rest) := by
  rw [takeChars.eq_4 c cs hquote hback, if_neg (Nat.not_lt.mpr hlow)]
  cases takeChars cs with
  | error e => rfl
  | ok taken => rfl

theorem takeChars_escape {c : Char} {cs rest : List Char} (h : takeEscape cs = .ok (c, rest)) :
    takeChars ('\\' :: cs) = (takeChars rest).map fun (text, after) => (c :: text, after) := by
  rw [takeChars.eq_3]
  split
  · rename_i hfault
    rw [h] at hfault
    cases hfault
  · rename_i htaken
    rw [h] at htaken
    cases htaken
    cases takeChars rest with
    | error e => rfl
    | ok taken => rfl

theorem exists_escape {cs text rest : List Char} (h : takeChars ('\\' :: cs) = .ok (text, rest)) :
    ∃ c after, takeEscape cs = .ok (c, after) := by
  rw [takeChars.eq_3] at h
  split at h
  · cases h
  · exact ⟨_, _, ‹_›⟩

theorem takeEscape_short {c e : Char} (hc : shortEscape? c = some e) (cs : List Char) :
    takeEscape (c :: cs) = .ok (e, cs) := by
  rw [takeEscape, hc]
  exact fun h => ne_u_of_shortEscape? (by rw [hc]; rfl) h

theorem takeEscape_hex {digits : List Char} {n : ℕ} (hdigits : IsHex digits n) (cs : List Char) :
    takeEscape ('u' :: (digits ++ cs)) =
      if IsLow n then .error .malformed
      else if IsHigh n then takeLowSurrogate n cs else .ok (Char.ofNat n, cs) := by
  simp only [takeEscape, takeHex_append hdigits]
  rfl

theorem takeLowSurrogate_hex {digits : List Char} {low : ℕ} (hdigits : IsHex digits low)
    (high : ℕ) (cs : List Char) :
    takeLowSurrogate high ('\\' :: 'u' :: (digits ++ cs)) =
      if IsLow low then
        .ok (Char.ofNat (0x10000 + (high - 0xd800) * 0x400 + (low - 0xdc00)), cs)
      else .error .malformed := by
  simp only [takeLowSurrogate, takeHex_append hdigits]
  rfl

/-- What spells a text is taken as that text. -/
theorem Spells.takeChars {cs text : List Char} (hspells : Spells cs text) (rest : List Char) :
    takeChars (cs ++ '"' :: rest) = .ok (text, rest) := by
  induction hspells with
  | nil => rw [List.nil_append, takeChars.eq_2]
  | plain hquote hback hlow _ ih =>
    rw [List.cons_append, takeChars_plain hquote hback hlow, ih]
    rfl
  | short hc _ ih =>
    rw [List.cons_append, List.cons_append, takeChars_escape (takeEscape_short hc _), ih]
    rfl
  | unit hdigits hhigh hlow _ ih =>
    have hescape := takeEscape_hex hdigits
    simp only [if_neg hlow, if_neg hhigh] at hescape
    rw [List.cons_append, List.cons_append, List.append_assoc, takeChars_escape (hescape _), ih]
    rfl
  | pair hdigits hhigh hdigits' hlow _ ih =>
    have hescape := takeEscape_hex hdigits
    simp only [if_neg hhigh.not_low, if_pos hhigh] at hescape
    have hsecond := takeLowSurrogate_hex hdigits'
    simp only [if_pos hlow] at hsecond
    simp only [List.cons_append, List.append_assoc]
    rw [takeChars_escape ((hescape _).trans (hsecond _ _)), ih]
    rfl

/-- A surrogate is followed by the second half of its pair, or the string is refused. -/
theorem exists_pair {cs rest after : List Char} {high : ℕ} {c : Char} (hcs : IsChars cs)
    (h : takeLowSurrogate high (cs ++ '"' :: rest) = .ok (c, after)) :
    ∃ digits low cs', IsHex digits low ∧ IsLow low ∧ IsChars cs' ∧
      cs = '\\' :: 'u' :: (digits ++ cs') := by
  cases hcs with
  | nil => cases h
  | @plain d tail hquote hback _ _ =>
    rw [List.cons_append, takeLowSurrogate] at h
    · cases h
    · exact List.cons_ne_nil d _
    · intro heq
      exact hback (List.cons.inj heq).1
    · intro tail' heq
      exact hback (List.cons.inj heq).1
  | @short d tail hd _ =>
    rw [List.cons_append, List.cons_append, takeLowSurrogate] at h
    · cases h
    · exact List.cons_ne_nil _ _
    · intro heq
      exact List.cons_ne_nil d _ (List.cons.inj heq).2
    · intro tail' heq
      exact ne_u_of_shortEscape? hd (List.cons.inj (List.cons.inj heq).2).1
  | @unit digits cs' low hdigits hcs' =>
    simp only [List.cons_append, List.append_assoc, takeLowSurrogate_hex hdigits] at h
    split at h
    · rename_i hlow
      exact ⟨digits, low, cs', hdigits, hlow, hcs', rfl⟩
    · cases h

/-- An escape of four digits is taken alone, or as a pair together with the one behind it. -/
theorem takeChars_unit_cases {digits cs rest text after : List Char} {n : ℕ}
    (hdigits : IsHex digits n) (hcs : IsChars cs)
    (h : takeChars ('\\' :: 'u' :: (digits ++ (cs ++ '"' :: rest))) = .ok (text, after)) :
    (∃ text', ¬ IsHigh n ∧ ¬ IsLow n ∧ takeChars (cs ++ '"' :: rest) = .ok (text', after) ∧
      text = Char.ofNat n :: text') ∨
    ∃ digits' low cs' text', IsHigh n ∧ IsHex digits' low ∧ IsLow low ∧ IsChars cs' ∧
      cs = '\\' :: 'u' :: (digits' ++ cs') ∧
      takeChars (cs' ++ '"' :: rest) = .ok (text', after) ∧
      text = Char.ofNat (0x10000 + (n - 0xd800) * 0x400 + (low - 0xdc00)) :: text' := by
  obtain ⟨c, after', hescape⟩ := exists_escape h
  rw [takeChars_escape hescape] at h
  obtain ⟨⟨text', _⟩, htaken, heq⟩ := exists_of_map_eq_ok h
  cases heq
  rw [takeEscape_hex hdigits] at hescape
  split at hescape
  · cases hescape
  · rename_i hlow
    split at hescape
    · rename_i hhigh
      obtain ⟨digits', low, cs', hdigits', hlow', hcs', rfl⟩ := exists_pair hcs hescape
      simp only [List.cons_append, List.append_assoc, takeLowSurrogate_hex hdigits', if_pos hlow',
        Except.ok.injEq, Prod.mk.injEq] at hescape
      obtain ⟨rfl, rfl⟩ := hescape
      exact Or.inr ⟨digits', low, cs', text', hhigh, hdigits', hlow', hcs', rfl, htaken, rfl⟩
    · rename_i hhigh
      cases hescape
      exact Or.inl ⟨text', hhigh, hlow, htaken, rfl⟩

/-- What is taken as a text spells it. The induction is on the length, because the two halves of a
pair are taken at once. -/
theorem spells_of_takeChars {cs text rest after : List Char} (hcs : IsChars cs)
    (h : takeChars (cs ++ '"' :: rest) = .ok (text, after)) : Spells cs text := by
  induction hn : cs.length using Nat.strongRecOn generalizing cs text after with
  | ind n ih =>
    subst hn
    cases hcs with
    | nil =>
      rw [List.nil_append, takeChars.eq_2] at h
      cases h
      exact .nil
    | @plain c cs hquote hback hlow hcs =>
      rw [List.cons_append, takeChars_plain hquote hback hlow] at h
      obtain ⟨⟨text', after'⟩, htaken, heq⟩ := exists_of_map_eq_ok h
      cases heq
      exact .plain hquote hback hlow (ih _ (Nat.lt_succ_self _) hcs htaken rfl)
    | @short c cs hc hcs =>
      obtain ⟨e, he⟩ := Option.isSome_iff_exists.mp hc
      rw [List.cons_append, List.cons_append, takeChars_escape (takeEscape_short he _)] at h
      obtain ⟨⟨text', after'⟩, htaken, heq⟩ := exists_of_map_eq_ok h
      cases heq
      refine .short he (ih _ ?_ hcs htaken rfl)
      simp only [List.length_cons]
      omega
    | @unit digits cs n hdigits hcs =>
      simp only [List.cons_append, List.append_assoc] at h
      obtain ⟨text', hhigh, hlow, htaken, rfl⟩ |
        ⟨digits', low, cs', text', hhigh, hdigits', hlow, hcs', rfl, htaken, rfl⟩ :=
          takeChars_unit_cases hdigits hcs h
      · refine .unit hdigits hhigh hlow (ih _ ?_ hcs htaken rfl)
        simp only [List.length_cons, List.length_append]
        omega
      · refine .pair hdigits hhigh hdigits' hlow (ih _ ?_ hcs' htaken rfl)
        simp only [List.length_cons, List.length_append]
        omega

/-- The text that a string spells, if it spells one. -/
def spelled? (cs : List Char) : Option String := (takeString (cs ++ ['"'])).toOption.map Prod.fst

theorem spelled?_eq_some_iff {cs : List Char} (hcs : IsChars cs) {text : String} :
    spelled? cs = some text ↔ Spells cs text.toList := by
  constructor
  · intro hspelled
    obtain ⟨⟨s, after⟩, htaken, rfl⟩ := Option.map_eq_some_iff.mp hspelled
    unfold takeString at htaken
    split at htaken
    · cases htaken
    · rename_i text' after' hchars
      cases htaken
      rw [String.toList_ofList]
      exact spells_of_takeChars hcs hchars
  · intro hspells
    simp [spelled?, takeString, hspells.takeChars, Except.toOption]

theorem takeString_append {cs : List Char} (hcs : IsChars cs) (rest : List Char) :
    (takeString (cs ++ '"' :: rest)).toOption = (spelled? cs).map (·, rest) := by
  cases hspelled : spelled? cs with
  | some text =>
    have hspells := (spelled?_eq_some_iff hcs).mp hspelled
    simp [takeString, hspells.takeChars, Except.toOption]
  | none =>
    cases htaken : takeString (cs ++ '"' :: rest) with
    | error e => rfl
    | ok taken =>
      obtain ⟨text, after⟩ := taken
      unfold takeString at htaken
      split at htaken
      · cases htaken
      · rename_i text' after' hchars
        have hspells := spells_of_takeChars hcs hchars
        rw [← String.toList_ofList (l := text'), ← spelled?_eq_some_iff hcs, hspelled] at hspells
        cases hspells

end RollCall.Json
