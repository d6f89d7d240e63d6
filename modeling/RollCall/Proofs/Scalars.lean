import Mathlib.Data.List.TakeWhile
import RollCall.Proofs.Passing

/-!
# Strings and numbers that are taken or passed over

Nothing is passed over as a string or as a number but what the grammar has for one. What is taken as
a string or as a number is also passed over, up to the same place, so this holds for it as well.
-/

namespace RollCall.Json

/-! ## Strings -/

theorem exists_isHex {cs rest : List Char} {n : ℕ} (h : takeHex cs = .ok (n, rest)) :
    ∃ digits, IsHex digits n ∧ cs = digits ++ rest := by
  unfold takeHex at h
  split at h
  · split at h
    · rename_i hi hj hk hl
      cases h
      exact ⟨_, .digits hi hj hk hl, rfl⟩
    · cases h
  · split at h
    · cases h
    · cases h

/-- An escape is passed over together with the characters behind it. -/
theorem exists_isChars_escape {cs after : List Char} (h : passEscape cs = .ok after) :
    ∃ escape, cs = escape ++ after ∧
      ∀ spelling, IsChars spelling → IsChars ('\\' :: (escape ++ spelling)) := by
  unfold passEscape at h
  split at h
  · cases h
  · obtain ⟨⟨n, after'⟩, hhex, rfl⟩ := exists_of_map_eq_ok h
    obtain ⟨digits, hdigits, rfl⟩ := exists_isHex hhex
    exact ⟨'u' :: digits, rfl, fun _ => .unit hdigits⟩
  · rename_i c _ _
    split at h
    · rename_i hc
      cases h
      exact ⟨[c], rfl, fun _ => .short hc⟩
    · cases h

theorem exists_isChars {cs rest : List Char} (h : passString cs = .ok rest) :
    ∃ spelling, IsChars spelling ∧ cs = spelling ++ '"' :: rest := by
  fun_induction passString cs with
  | case1 => cases h
  | case2 cs =>
    cases h
    exact ⟨[], .nil, rfl⟩
  | case3 => cases h
  | case4 cs after hescape ih =>
    obtain ⟨spelling, hspelling, rfl⟩ := ih h
    obtain ⟨escape, rfl, hchars⟩ := exists_isChars_escape hescape
    exact ⟨_, hchars spelling hspelling, by simp⟩
  | case5 => cases h
  | case6 c cs hquote hback hlow ih =>
    obtain ⟨spelling, hspelling, rfl⟩ := ih h
    exact ⟨c :: spelling, .plain hquote hback (Nat.le_of_not_lt hlow) hspelling, rfl⟩

theorem passString_unit_of_take {cs after : List Char} {n : ℕ} (h : takeHex cs = .ok (n, after)) :
    passString ('\\' :: 'u' :: cs) = passString after := by
  apply passString_escape
  rw [passEscape, h]
  rfl

theorem passString_escape_of_take {cs after : List Char} {c : Char}
    (h : takeEscape cs = .ok (c, after)) : passString ('\\' :: cs) = passString after := by
  unfold takeEscape at h
  split at h
  · cases h
  · rename_i cs
    split at h
    · cases h
    · rename_i n rest hhex
      rw [passString_unit_of_take hhex]
      split at h
      · cases h
      · split at h
        -- The two halves of a pair are passed over as two escapes.
        · unfold takeLowSurrogate at h
          split at h
          · cases h
          · cases h
          · split at h
            · cases h
            · rename_i low rest' hlow
              split at h
              · obtain rfl : rest' = after := congrArg Prod.snd (Except.ok.inj h)
                exact passString_unit_of_take hlow
              · cases h
          · cases h
        · cases h
          rfl
  · split at h
    · rename_i hd
      cases h
      exact passString_escape (passEscape_short (by rw [hd]; rfl) _)
    · cases h

theorem passString_of_takeChars {cs text rest : List Char} (h : takeChars cs = .ok (text, rest)) :
    passString cs = .ok rest := by
  fun_induction takeChars cs generalizing text rest with
  | case1 => cases h
  | case2 cs =>
    cases h
    rw [passString.eq_2]
  | case3 => cases h
  | case4 => cases h
  | case5 cs c after hescape text' rest' hrest ih =>
    cases h
    rw [passString_escape_of_take hescape, ih hrest]
  | case6 => cases h
  | case7 => cases h
  | case8 c cs hquote hback hlow text' rest' hrest ih =>
    cases h
    rw [passString_plain hquote hback (Nat.le_of_not_lt hlow), ih hrest]

theorem passString_of_takeString {cs rest : List Char} {text : String}
    (h : takeString cs = .ok (text, rest)) : passString cs = .ok rest := by
  unfold takeString at h
  split at h
  · cases h
  · rename_i hchars
    cases h
    exact passString_of_takeChars hchars

/-! ## Numbers -/

theorem exists_isExponent {c : Char} {cs rest : List Char} (hc : c = 'e' ∨ c = 'E')
    (h : passExponent cs = .ok rest) : ∃ power, IsExponent power ∧ c :: cs = power ++ rest := by
  obtain ⟨sign, hsign, hcs⟩ := Text.exists_sign cs
  have hspan := Text.spanDigits_join (Text.takeSign cs).2
  simp only [passExponent] at h
  split at h
  · cases h
  · rename_i hne
    cases h
    refine ⟨_, .given hc hsign (mt List.isEmpty_iff.mpr hne)
      (fun _ => Text.isDigit_of_mem_spanDigits), ?_⟩
    rw [List.cons_append, List.append_assoc, hspan, ← hcs]

/-- A power of ten that is passed over wherever it may stand. -/
theorem exists_isExponent_of_tail {cs rest : List Char}
    (h : (match cs with
      | 'e' :: after => passExponent after
      | 'E' :: after => passExponent after
      | after => .ok after) = .ok rest) : ∃ power, IsExponent power ∧ cs = power ++ rest := by
  split at h
  · exact exists_isExponent (Or.inl rfl) h
  · exact exists_isExponent (Or.inr rfl) h
  · cases h
    exact ⟨[], .absent, rfl⟩

theorem exists_isFraction {cs rest : List Char} (h : passAfterWhole cs = .ok rest) :
    ∃ fraction power, IsFraction fraction ∧ IsExponent power ∧ cs = fraction ++ (power ++ rest) := by
  unfold passAfterWhole at h
  split at h
  · rename_i cs
    have hspan := Text.spanDigits_join cs
    split at h
    · cases h
    · rename_i hne
      obtain ⟨power, hpower, htail⟩ := exists_isExponent_of_tail h
      refine ⟨_, power, .given (mt List.isEmpty_iff.mpr hne)
        (fun _ => Text.isDigit_of_mem_spanDigits), hpower, ?_⟩
      rw [List.cons_append, ← htail, hspan]
  · obtain ⟨power, hpower, htail⟩ := exists_isExponent (Or.inl rfl) h
    exact ⟨[], power, .absent, hpower, htail⟩
  · obtain ⟨power, hpower, htail⟩ := exists_isExponent (Or.inr rfl) h
    exact ⟨[], power, .absent, hpower, htail⟩
  · cases h
    exact ⟨[], [], .absent, .absent, rfl⟩

theorem exists_whole {cs rest : List Char} (h : passDigits cs = .ok rest) :
    ∃ whole fraction power, Whole whole ∧ IsFraction fraction ∧ IsExponent power ∧
      cs = whole ++ (fraction ++ (power ++ rest)) := by
  unfold passDigits at h
  split at h
  · cases h
  · rename_i c tail
    split at h
    · rename_i hzero
      split at h
      · cases h
      · obtain ⟨fraction, power, hfraction, hpower, rfl⟩ := exists_isFraction h
        exact ⟨['0'], fraction, power, .zero, hfraction, hpower, by rw [hzero]; rfl⟩
    · rename_i hzero
      split at h
      · rename_i hc
        have hspan := Text.spanDigits_join tail
        obtain ⟨fraction, power, hfraction, hpower, hafter⟩ := exists_isFraction h
        refine ⟨c :: (Text.spanDigits tail).1, fraction, power, .digits hzero ?_, hfraction, hpower,
          ?_⟩
        · exact List.forall_mem_cons.mpr ⟨hc, fun _ => Text.isDigit_of_mem_spanDigits⟩
        · rw [List.cons_append, ← hafter, hspan]
      · cases h

theorem exists_isNumber {cs rest : List Char} (h : passNumber cs = .ok rest) :
    ∃ text, IsNumber text ∧ cs = text ++ rest := by
  unfold passNumber at h
  split at h
  · obtain ⟨whole, fraction, power, hwhole, hfraction, hpower, rfl⟩ := exists_whole h
    exact ⟨_, .parts (Or.inr rfl) hwhole hfraction hpower, by simp⟩
  · obtain ⟨whole, fraction, power, hwhole, hfraction, hpower, rfl⟩ := exists_whole h
    exact ⟨_, .parts (Or.inl rfl) hwhole hfraction hpower, by simp⟩

section Number

variable {negative : Bool} {significand : ℕ} {exponent : ℤ} {whole cs rest : List Char} {n : Number}

theorem passExponent_of_take (h : takeExponent negative significand exponent cs = .ok (n, rest)) :
    passExponent cs = .ok rest := by
  simp only [takeExponent] at h
  split at h
  · cases h
  · rename_i c tail hcs
    split at h
    · rename_i hc
      obtain ⟨_, -, heq⟩ := exists_of_map_eq_ok h
      cases heq
      simp only [passExponent, hcs]
      rw [if_neg]
      simp [Text.spanDigits, hc]
    · cases h

theorem passAfterWhole_of_take (h : takeAfterWhole negative whole cs = .ok (n, rest)) :
    passAfterWhole cs = .ok rest := by
  simp only [takeAfterWhole] at h
  split at h
  · rename_i tail
    simp only [takeFraction] at h
    split at h
    · split at h
      · cases h
      · cases h
    · rename_i hne
      rw [passAfterWhole, if_neg hne]
      unfold takeScale at h
      split at h
      · exact passExponent_of_take h
      · exact passExponent_of_take h
      · obtain ⟨_, -, heq⟩ := exists_of_map_eq_ok h
        cases heq
        rfl
  · exact passExponent_of_take h
  · exact passExponent_of_take h
  · have hrest : cs = rest := by
      split at h
      · obtain ⟨_, -, heq⟩ := exists_of_map_eq_ok h
        cases heq
        rfl
      · split at h
        · cases h
          rfl
        · cases h
          rfl
    rw [passAfterWhole, hrest]
    · assumption
    · assumption
    · assumption

theorem passDigits_of_take (h : takeDigits negative cs = .ok (n, rest)) :
    passDigits cs = .ok rest := by
  unfold takeDigits at h
  split at h
  · cases h
  · rename_i c tail
    rw [passDigits]
    split at h
    · rename_i hzero
      rw [if_pos hzero]
      split at h
      · cases h
      · rename_i hone
        rw [if_neg hone]
        exact passAfterWhole_of_take h
    · rename_i hzero
      rw [if_neg hzero]
      split at h
      · rename_i hc
        rw [if_pos hc]
        exact passAfterWhole_of_take h
      · cases h

theorem passNumber_of_take (h : takeNumber cs = .ok (n, rest)) : passNumber cs = .ok rest := by
  unfold takeNumber at h
  split at h
  · exact passDigits_of_take h
  · rw [passNumber]
    · exact passDigits_of_take h
    · assumption

end Number

end RollCall.Json
