import TraceTables.Json.Token

/-! Strings as they are written between quotes. A character stands for itself, behind a backslash, or by the four hex
digits of its number; one beyond these is two such numbers, a high surrogate and a low one. A surrogate alone is no
character, so the texts with one are written like strings and denote none. -/

namespace TraceTables.Json

open Token

/-! ## The form of a string -/

/-- How the number of a character or of a surrogate is written: as the character itself, behind a backslash or by hex
digits. -/
inductive UnitText : Nat → List Char → Prop
  | bare {c : Char} : 0x20 ≤ c.toNat → c ≠ '"' → c ≠ '\\' → UnitText c.toNat [c]
  | escape {c e : Char} : simpleEscape? e = some c → UnitText c.toNat ['\\', e]
  | hex {u : Nat} {a b c d : Char} : unit? a b c d = some u → UnitText u ['\\', 'u', a, b, c, d]

inductive CharText : Char → List Char → Prop
  | single {c : Char} {cs : List Char} : UnitText c.toNat cs → CharText c cs
  | pair {c : Char} {high low : Nat} {cs ds : List Char} : UnitText high cs → isHighSurrogate high = true →
    UnitText low ds → isLowSurrogate low = true → c.toNat = 0x10000 + (high - 0xD800) * 0x400 + (low - 0xDC00) →
    CharText c (cs ++ ds)

/-- The text between the quotes. -/
inductive CharsText : List Char → List Char → Prop
  | nil : CharsText [] []
  | cons {c : Char} {chars cs ds : List Char} : CharText c cs → CharsText chars ds → CharsText (c :: chars) (cs ++ ds)

inductive StringText (s : String) : List Char → Prop
  | mk {cs : List Char} : CharsText s.toList cs → StringText s ('"' :: (cs ++ ['"']))

/-! ## Units -/

namespace Token

inductive UnitsText : List Nat → List Char → Prop
  | nil : UnitsText [] []
  | cons {u : Nat} {us : List Nat} {cs ds : List Char} : UnitText u cs → UnitsText us ds →
    UnitsText (u :: us) (cs ++ ds)

theorem readString_sound {cs rest : List Char} {us : List Nat} (h : readString cs = some (us, rest)) :
    ∃ body, UnitsText us body ∧ cs = body ++ '"' :: rest := by
  fun_induction readString cs generalizing us rest with
  | case1 | case3 | case5 | case7 => cases h
  | case2 =>
    cases h
    exact ⟨[], .nil, rfl⟩
  | case4 a b c d more u hu ih =>
    obtain ⟨⟨us, _⟩, hr, he⟩ := Option.map_eq_some_iff.1 h
    cases he
    obtain ⟨body, hbody, rfl⟩ := ih hr
    exact ⟨_, .cons (.hex hu) hbody, rfl⟩
  | case6 e more _ c hc ih =>
    obtain ⟨⟨us, _⟩, hr, he⟩ := Option.map_eq_some_iff.1 h
    cases he
    obtain ⟨body, hbody, rfl⟩ := ih hr
    exact ⟨_, .cons (.escape hc) hbody, rfl⟩
  | case8 c more hquote hunit hescape hc ih =>
    obtain ⟨⟨us, _⟩, hr, he⟩ := Option.map_eq_some_iff.1 h
    cases he
    -- a backslash would have to be the last character, and then no quote follows
    have hslash : c ≠ '\\' := by
      rintro rfl
      cases more with
      | nil => cases hr
      | cons e more => exact hescape e more rfl rfl
    obtain ⟨body, hbody, rfl⟩ := ih hr
    exact ⟨_, .cons (.bare (Nat.le_of_not_lt hc) hquote hslash) hbody, rfl⟩

/-- A unit is read off the front. -/
theorem readString_unit {u : Nat} {cs : List Char} (h : UnitText u cs) (more : List Char) :
    readString (cs ++ more) = (readString more).map fun r => (u :: r.1, r.2) := by
  cases h with
  | bare hc hquote hslash => simp [readString, hslash, Nat.not_lt.2 hc]
  | @escape c e he =>
    have hu : e ≠ 'u' := by
      rintro rfl
      cases he
    simp [readString, hu, he]
  | hex hu => simp [readString, hu]

theorem readString_append {us : List Nat} {body : List Char} (h : UnitsText us body) (rest : List Char) :
    readString (body ++ '"' :: rest) = some (us, rest) := by
  induction h with
  | nil => rfl
  | cons hu _ ih => rw [List.append_assoc, readString_unit hu, ih, Option.map_some]

/-! ## Characters -/

theorem hexDigit?_lt {c : Char} {n : Nat} (h : hexDigit? c = some n) : n < 16 := by
  have h9 : ('9' : Char).toNat = 57 := rfl
  have hf : ('f' : Char).toNat = 102 := rfl
  have hF : ('F' : Char).toNat = 70 := rfl
  have h0 : ('0' : Char).toNat = 48 := rfl
  have ha : ('a' : Char).toNat = 97 := rfl
  have hA : ('A' : Char).toNat = 65 := rfl
  unfold hexDigit? at h
  simp only [Bool.and_eq_true, decide_eq_true_eq, Char.le_def, UInt32.le_iff_toNat_le, Char.toNat_val] at h
  split at h
  · cases h
    omega
  split at h
  · cases h
    omega
  split at h
  · cases h
    omega
  · cases h

theorem unit?_lt {a b c d : Char} {u : Nat} (h : unit? a b c d = some u) : u < 0x10000 := by
  simp only [unit?, bind, pure, Option.bind_eq_some_iff, Option.some.injEq] at h
  obtain ⟨w, hw, x, hx, y, hy, z, hz, rfl⟩ := h
  have := hexDigit?_lt hw
  have := hexDigit?_lt hx
  have := hexDigit?_lt hy
  have := hexDigit?_lt hz
  omega

/-- A number that is written and no surrogate is that of a character. -/
theorem isValidChar_of_unitText {u : Nat} {cs : List Char} (h : UnitText u cs)
    (hs : (isHighSurrogate u || isLowSurrogate u) = false) : u.isValidChar := by
  cases h with
  | @bare c => exact c.valid
  | @escape c => exact c.valid
  | hex hu =>
    have hlt := unit?_lt hu
    simp only [isHighSurrogate, isLowSurrogate, Bool.or_eq_false_iff, Bool.and_eq_false_iff,
      decide_eq_false_iff_not] at hs
    unfold Nat.isValidChar
    omega

theorem toNat_ofNat {n : Nat} (h : n.isValidChar) : (Char.ofNat n).toNat = n := by
  rw [Char.ofNat, dif_pos h]
  rfl

theorem charsText_of_unitsText {us : List Nat} {chars body : List Char} (h : UnitsText us body)
    (hc : ofUnits? us = some chars) : CharsText chars body := by
  have hsingle {u : Nat} {cs : List Char} (hu : UnitText u cs) (hs : (isHighSurrogate u || isLowSurrogate u) = false) :
      CharText (Char.ofNat u) cs := .single (by rwa [toNat_ofNat (isValidChar_of_unitText hu hs)])
  fun_induction ofUnits? us generalizing chars body with
  | case1 =>
    cases hc
    cases h
    exact .nil
  | case2 | case5 | case6 => cases hc
  | case3 u hs =>
    cases hc
    obtain _ | ⟨hu, ⟨⟩⟩ := h
    exact .cons (hsingle hu (Bool.eq_false_iff.2 hs)) .nil
  | case4 u v rest hhigh hlow ih =>
    obtain ⟨chars, hr, rfl⟩ := Option.map_eq_some_iff.1 hc
    obtain _ | ⟨hu, _ | ⟨hv, hrest⟩⟩ := h
    have hvalid : (0x10000 + (u - 0xD800) * 0x400 + (v - 0xDC00)).isValidChar := by
      simp only [isHighSurrogate, isLowSurrogate, Bool.and_eq_true, decide_eq_true_eq] at hhigh hlow
      unfold Nat.isValidChar
      omega
    rw [← List.append_assoc]
    exact .cons (.pair hu hhigh hv hlow (toNat_ofNat hvalid)) (ih hrest hr)
  | case7 u v rest hhigh hlow ih =>
    obtain ⟨chars, hr, rfl⟩ := Option.map_eq_some_iff.1 hc
    obtain _ | ⟨hu, hrest⟩ := h
    exact .cons (hsingle hu (by simp [hhigh, hlow])) (ih hrest hr)

/-- A character is no surrogate. -/
theorem not_surrogate (c : Char) : isHighSurrogate c.toNat = false ∧ isLowSurrogate c.toNat = false := by
  have hv : c.toNat.isValidChar := c.valid
  unfold Nat.isValidChar at hv
  simp only [isHighSurrogate, isLowSurrogate, Bool.and_eq_false_iff, decide_eq_false_iff_not]
  omega

theorem ofUnits?_char (c : Char) (us : List Nat) : ofUnits? (c.toNat :: us) = (ofUnits? us).map (c :: ·) := by
  obtain ⟨hhigh, hlow⟩ := not_surrogate c
  cases us with
  | nil => simp [ofUnits?, hhigh, hlow]
  | cons v us => simp [ofUnits?, hhigh, hlow]

theorem exists_unitsText {chars body : List Char} (h : CharsText chars body) :
    ∃ us, UnitsText us body ∧ ofUnits? us = some chars := by
  induction h with
  | nil => exact ⟨[], .nil, rfl⟩
  | @cons c chars cs ds hc _ ih =>
    obtain ⟨us, hus, hchars⟩ := ih
    cases hc with
    | single hu => exact ⟨c.toNat :: us, .cons hu hus, by rw [ofUnits?_char, hchars, Option.map_some]⟩
    | @pair high low _ _ hu hhigh hv hlow hc =>
      refine ⟨high :: low :: us, ?_, ?_⟩
      · rw [List.append_assoc]
        exact .cons hu (.cons hv hus)
      · simp [ofUnits?, hhigh, hlow, hchars, ← hc]

end Token

/-! ## Reading -/

theorem Token.readString_of_stringText {s : String} {text : List Char} (h : StringText s text) (rest : List Char) :
    ∃ more us, text ++ rest = '"' :: more ∧ readString more = some (us, rest) ∧
      (ofUnits? us).map String.ofList = some s := by
  obtain ⟨hchars⟩ := h
  obtain ⟨us, hus, hof⟩ := exists_unitsText hchars
  exact ⟨_, us, by simp, readString_append hus rest, by simp [hof]⟩

/-- A text that is written like a string, and the string that it denotes, if there is one. -/
inductive QuotedText (v : Option String) : List Char → Prop
  | mk {us : List Nat} {body : List Char} : UnitsText us body →
    (∀ s, v = some s ↔ StringText s ('"' :: (body ++ ['"']))) → QuotedText v ('"' :: (body ++ ['"']))

theorem Token.stringText_iff_of_unitsText {us : List Nat} {body : List Char} (h : UnitsText us body) (s : String) :
    (ofUnits? us).map String.ofList = some s ↔ StringText s ('"' :: (body ++ ['"'])) := by
  constructor
  · intro hs
    obtain ⟨chars, hchars, rfl⟩ := Option.map_eq_some_iff.1 hs
    refine .mk ?_
    rw [String.toList_ofList]
    exact charsText_of_unitsText h hchars
  · intro hs
    obtain ⟨more, us', hmore, hread, hof⟩ := readString_of_stringText hs []
    have hbody : more = body ++ '"' :: [] := by simpa using (List.cons.inj hmore).2.symm
    rw [hbody, readString_append h] at hread
    cases hread
    exact hof

theorem Token.quotedText_of_readString {cs rest : List Char} {us : List Nat} (h : readString cs = some (us, rest)) :
    ∃ text, QuotedText ((ofUnits? us).map String.ofList) text ∧ '"' :: cs = text ++ rest := by
  obtain ⟨body, hbody, rfl⟩ := readString_sound h
  exact ⟨_, .mk hbody (stringText_iff_of_unitsText hbody), by simp⟩

theorem Token.readString_of_quotedText {v : Option String} {text : List Char} (h : QuotedText v text)
    (rest : List Char) :
    ∃ more us, text ++ rest = '"' :: more ∧ readString more = some (us, rest) ∧
      (ofUnits? us).map String.ofList = v := by
  obtain ⟨hus, hv⟩ := h
  exact ⟨_, _, by simp, readString_append hus rest,
    Option.ext fun s => (stringText_iff_of_unitsText hus s).trans (hv s).symm⟩

theorem quotedText_some_iff {s : String} {text : List Char} : QuotedText (some s) text ↔ StringText s text := by
  constructor
  · rintro ⟨-, hs⟩
    exact (hs s).1 rfl
  · rintro ⟨hchars⟩
    obtain ⟨us, hus, hof⟩ := Token.exists_unitsText hchars
    have hs : some s = (Token.ofUnits? us).map String.ofList := by simp [hof]
    rw [hs]
    exact .mk hus (Token.stringText_iff_of_unitsText hus)

end TraceTables.Json
