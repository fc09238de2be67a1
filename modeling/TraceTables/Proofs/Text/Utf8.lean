import TraceTables.Text.Utf8

/-! A text is read back from its UTF-8 bytes as it was, and from no other bytes. The reader follows the bytes of each
character from its first one; what the first byte opens is met by the bytes that stand behind it. -/

namespace TraceTables.Text.Utf8

/-- What a byte does where a character may start, by its number. -/
theorem lead_ofNat {n : Nat} (hn : n < 256) :
    lead (UInt8.ofNat n) =
      if n < 0x80 then .whole (Char.ofNat n)
      else if n < 0xC2 then .wrong
      else if n < 0xE0 then .opens ⟨n - 0xC0, 1, UInt8.ofNat 0x80, UInt8.ofNat 0xBF⟩
      else if n < 0xF0 then
        .opens ⟨n - 0xE0, 2, UInt8.ofNat (if n = 0xE0 then 0xA0 else 0x80),
          UInt8.ofNat (if n = 0xED then 0x9F else 0xBF)⟩
      else if n < 0xF5 then
        .opens ⟨n - 0xF0, 3, UInt8.ofNat (if n = 0xF0 then 0x90 else 0x80),
          UInt8.ofNat (if n = 0xF4 then 0x8F else 0xBF)⟩
      else .wrong := by
  have hlt (m : Nat) (hm : m < 256) : UInt8.ofNat n < UInt8.ofNat m ↔ n < m := UInt8.ofNat_lt_iff_lt hn hm
  have heq (m : Nat) (hm : m < 256) : UInt8.ofNat n = UInt8.ofNat m ↔ n = m := by
    rw [← UInt8.toNat_inj, UInt8.toNat_ofNat_of_lt' hn, UInt8.toNat_ofNat_of_lt' hm]
  have h80 : UInt8.ofNat n < 0x80 ↔ n < 0x80 := hlt 0x80 (by omega)
  have hC2 : UInt8.ofNat n < 0xC2 ↔ n < 0xC2 := hlt 0xC2 (by omega)
  have hE0 : UInt8.ofNat n < 0xE0 ↔ n < 0xE0 := hlt 0xE0 (by omega)
  have hF0 : UInt8.ofNat n < 0xF0 ↔ n < 0xF0 := hlt 0xF0 (by omega)
  have hF5 : UInt8.ofNat n < 0xF5 ↔ n < 0xF5 := hlt 0xF5 (by omega)
  have eE0 : UInt8.ofNat n = 0xE0 ↔ n = 0xE0 := heq 0xE0 (by omega)
  have eED : UInt8.ofNat n = 0xED ↔ n = 0xED := heq 0xED (by omega)
  have eF0 : UInt8.ofNat n = 0xF0 ↔ n = 0xF0 := heq 0xF0 (by omega)
  have eF4 : UInt8.ofNat n = 0xF4 ↔ n = 0xF4 := heq 0xF4 (by omega)
  simp only [lead, h80, hC2, hE0, hF0, hF5, eE0, eED, eF0, eF4, UInt8.toNat_ofNat_of_lt' hn, apply_ite UInt8.ofNat]
  rfl

/-- A byte in the range that is asked for adds six bits. -/
theorem scan_owed (code owed : Nat) {low high n : Nat} (rest : List UInt8) (hh : high < 0xC0)
    (hn : low ≤ n ∧ n ≤ high) :
    scan (some ⟨code, owed, UInt8.ofNat low, UInt8.ofNat high⟩) (UInt8.ofNat n :: rest) =
      if owed ≤ 1 then some (Char.ofNat (code * 0x40 + (n - 0x80))) :: scan none rest
      else scan (some ⟨code * 0x40 + (n - 0x80), owed - 1, UInt8.ofNat 0x80, UInt8.ofNat 0xBF⟩) rest := by
  have hbyte (m : Nat) (hm : m ≤ high) : m < UInt8.size := by
    unfold UInt8.size
    omega
  have hlow := hbyte low (by omega)
  have hmid := hbyte n hn.2
  have hhigh := hbyte high (by omega)
  rw [scan, UInt8.toNat_ofNat_of_lt' hmid]
  simp only [UInt8.ofNat_le_iff_le hlow hmid, UInt8.ofNat_le_iff_le hmid hhigh, hn.1, hn.2, decide_true, Bool.and_self,
    if_true]
  rfl

theorem scan_encodeChar (c : Char) (rest : List UInt8) :
    scan none (String.utf8EncodeChar c ++ rest) = some c :: scan none rest := by
  have hc : Char.ofNat c.val.toNat = c := Char.ofNat_toNat c
  have hv : c.val.toNat.isValidChar := c.valid
  unfold String.utf8EncodeChar
  generalize c.val.toNat = v at hc hv
  subst hc
  unfold Nat.isValidChar at hv
  simp only
  split
  · rw [List.cons_append, List.nil_append, scan, lead_ofNat (by omega), if_pos (by omega)]
  split
  · simp only [List.cons_append, List.nil_append]
    rw [scan, lead_ofNat (by omega), if_neg (by omega), if_neg (by omega), if_pos (by omega)]
    simp only
    rw [scan_owed _ _ _ (by omega) (by omega), if_pos (by omega)]
    rw [show (v / 64 % 0x20 + 0xC0 - 0xC0) * 0x40 + (v % 0x40 + 0x80 - 0x80) = v by omega]
  split
  · simp only [List.cons_append, List.nil_append]
    rw [scan, lead_ofNat (by omega), if_neg (by omega), if_neg (by omega), if_neg (by omega), if_pos (by omega)]
    simp only
    rw [scan_owed _ _ _ (by split <;> omega) (by split <;> split <;> omega), if_neg (by omega),
      scan_owed _ _ _ (by omega) (by omega), if_pos (by omega)]
    rw [show ((v / 4096 % 0x10 + 0xE0 - 0xE0) * 0x40 + (v / 64 % 0x40 + 0x80 - 0x80)) * 0x40 +
      (v % 0x40 + 0x80 - 0x80) = v by omega]
  · simp only [List.cons_append, List.nil_append]
    rw [scan, lead_ofNat (by omega), if_neg (by omega), if_neg (by omega), if_neg (by omega), if_neg (by omega),
      if_pos (by omega)]
    simp only
    rw [scan_owed _ _ _ (by split <;> omega) (by split <;> split <;> omega), if_neg (by omega),
      scan_owed _ _ _ (by omega) (by omega), if_neg (by omega), scan_owed _ _ _ (by omega) (by omega),
      if_pos (by omega)]
    rw [show (((v / 262144 % 0x08 + 0xF0 - 0xF0) * 0x40 + (v / 4096 % 0x40 + 0x80 - 0x80)) * 0x40 +
      (v / 64 % 0x40 + 0x80 - 0x80)) * 0x40 + (v % 0x40 + 0x80 - 0x80) = v by omega]

theorem chars_flatMap_encodeChar (cs : List Char) : chars (cs.flatMap String.utf8EncodeChar) = cs.map some := by
  unfold chars
  induction cs with
  | nil => rfl
  | cons c cs ih => rw [List.flatMap_cons, scan_encodeChar, ih, List.map_cons]

/-- A text has nothing to repair. -/
theorem repair_encode (s : String) : repair (encode s) = s := by
  unfold repair encode
  rw [chars_flatMap_encodeChar, List.map_map]
  simp [Function.comp_def]

theorem mapM_id_eq_some_iff {as : List (Option Char)} {cs : List Char} : as.mapM id = some cs ↔ as = cs.map some := by
  induction as generalizing cs with
  | nil => cases cs <;> simp
  | cons a as ih =>
    cases a with
    | none => cases cs <;> simp
    | some a => cases cs <;> simp [Option.bind_eq_some_iff, ih, and_assoc, and_comm]

/-- A text is what its bytes are decoded to. -/
theorem decode?_encode (s : String) : decode? (encode s) = some s := by
  have hall : (chars (encode s)).mapM id = some s.toList := mapM_id_eq_some_iff.2 (chars_flatMap_encodeChar s.toList)
  rw [decode?, hall, Option.map_some, String.ofList_toList]

/-! ## What is decoded is encoded -/

theorem encodeChar_ofNat {v : Nat} (hv : v.isValidChar) :
    String.utf8EncodeChar (Char.ofNat v) =
      if v ≤ 0x7F then [UInt8.ofNat v]
      else if v ≤ 0x7FF then [UInt8.ofNat (v / 64 % 0x20 + 0xC0), UInt8.ofNat (v % 0x40 + 0x80)]
      else if v ≤ 0xFFFF then
        [UInt8.ofNat (v / 4096 % 0x10 + 0xE0), UInt8.ofNat (v / 64 % 0x40 + 0x80), UInt8.ofNat (v % 0x40 + 0x80)]
      else
        [UInt8.ofNat (v / 262144 % 0x08 + 0xF0), UInt8.ofNat (v / 4096 % 0x40 + 0x80),
          UInt8.ofNat (v / 64 % 0x40 + 0x80), UInt8.ofNat (v % 0x40 + 0x80)] := by
  have hval : (Char.ofNat v).val.toNat = v := by
    rw [Char.ofNat, dif_pos hv]
    rfl
  simp only [String.utf8EncodeChar, hval]

theorem encodeChar_two {a b : Nat} (ha : 0xC2 ≤ a ∧ a < 0xE0) (hb : 0x80 ≤ b ∧ b ≤ 0xBF) :
    String.utf8EncodeChar (Char.ofNat ((a - 0xC0) * 0x40 + (b - 0x80))) = [UInt8.ofNat a, UInt8.ofNat b] := by
  obtain ⟨v, hv⟩ : ∃ v, v = (a - 0xC0) * 0x40 + (b - 0x80) := ⟨_, rfl⟩
  rw [← hv, encodeChar_ofNat (by unfold Nat.isValidChar; omega), if_neg (by omega), if_pos (by omega),
    show v / 64 % 0x20 + 0xC0 = a by omega, show v % 0x40 + 0x80 = b by omega]

/-- Behind the first byte of a character of three bytes stand none that would make it an over-long form or a
surrogate. -/
theorem encodeChar_three {a b c : Nat} (ha : 0xE0 ≤ a ∧ a < 0xF0) (hb : 0x80 ≤ b ∧ b ≤ 0xBF)
    (hlong : a = 0xE0 → 0xA0 ≤ b) (hsurrogate : a = 0xED → b ≤ 0x9F) (hc : 0x80 ≤ c ∧ c ≤ 0xBF) :
    String.utf8EncodeChar (Char.ofNat (((a - 0xE0) * 0x40 + (b - 0x80)) * 0x40 + (c - 0x80))) =
      [UInt8.ofNat a, UInt8.ofNat b, UInt8.ofNat c] := by
  obtain ⟨v, hv⟩ : ∃ v, v = ((a - 0xE0) * 0x40 + (b - 0x80)) * 0x40 + (c - 0x80) := ⟨_, rfl⟩
  rw [← hv, encodeChar_ofNat (by unfold Nat.isValidChar; omega), if_neg (by omega), if_neg (by omega),
    if_pos (by omega), show v / 4096 % 0x10 + 0xE0 = a by omega, show v / 64 % 0x40 + 0x80 = b by omega,
    show v % 0x40 + 0x80 = c by omega]

theorem encodeChar_four {a b c d : Nat} (ha : 0xF0 ≤ a ∧ a < 0xF5) (hb : 0x80 ≤ b ∧ b ≤ 0xBF)
    (hlong : a = 0xF0 → 0x90 ≤ b) (hlast : a = 0xF4 → b ≤ 0x8F) (hc : 0x80 ≤ c ∧ c ≤ 0xBF)
    (hd : 0x80 ≤ d ∧ d ≤ 0xBF) :
    String.utf8EncodeChar
        (Char.ofNat ((((a - 0xF0) * 0x40 + (b - 0x80)) * 0x40 + (c - 0x80)) * 0x40 + (d - 0x80))) =
      [UInt8.ofNat a, UInt8.ofNat b, UInt8.ofNat c, UInt8.ofNat d] := by
  obtain ⟨v, hv⟩ : ∃ v, v = (((a - 0xF0) * 0x40 + (b - 0x80)) * 0x40 + (c - 0x80)) * 0x40 + (d - 0x80) := ⟨_, rfl⟩
  rw [← hv, encodeChar_ofNat (by unfold Nat.isValidChar; omega), if_neg (by omega), if_neg (by omega),
    if_neg (by omega), show v / 262144 % 0x08 + 0xF0 = a by omega, show v / 4096 % 0x40 + 0x80 = b by omega,
    show v / 64 % 0x40 + 0x80 = c by omega, show v % 0x40 + 0x80 = d by omega]

/-- A character that is owed a byte comes only if the byte is there, and in its range. -/
theorem scan_owed_eq_cons {code owed low high : Nat} {bytes : List UInt8} {c : Char} {cs : List (Option Char)}
    (hh : high < 0xC0) (hl : low ≤ high)
    (h : scan (some ⟨code, owed, UInt8.ofNat low, UInt8.ofNat high⟩) bytes = some c :: cs) :
    ∃ n rest, bytes = UInt8.ofNat n :: rest ∧ (low ≤ n ∧ n ≤ high) ∧
      (if owed ≤ 1 then some (Char.ofNat (code * 0x40 + (n - 0x80))) :: scan none rest
        else scan (some ⟨code * 0x40 + (n - 0x80), owed - 1, UInt8.ofNat 0x80, UInt8.ofNat 0xBF⟩) rest) =
        some c :: cs := by
  cases bytes with
  | nil => cases h
  | cons b rest =>
    have hb : UInt8.ofNat b.toNat = b := UInt8.ofNat_toNat
    have hbyte : b.toNat < 256 := UInt8.toNat_lt b
    have hin : low ≤ b.toNat ∧ b.toNat ≤ high := by
      refine Decidable.byContradiction fun hout => ?_
      have hrange : (UInt8.ofNat low ≤ b && b ≤ UInt8.ofNat high) = false := by
        have hlow : low < UInt8.size := by unfold UInt8.size; omega
        have hhigh : high < UInt8.size := by unfold UInt8.size; omega
        rw [← hb, Bool.and_eq_false_iff, decide_eq_false_iff_not, decide_eq_false_iff_not,
          UInt8.ofNat_le_iff_le hlow hbyte, UInt8.ofNat_le_iff_le hbyte hhigh]
        omega
      rw [scan, hrange] at h
      cases h
    refine ⟨b.toNat, rest, by rw [hb], hin, ?_⟩
    rw [← scan_owed code owed rest hh hin, hb, h]

/-- The bytes of the first character are those that it is written with. -/
theorem scan_eq_cons {bytes : List UInt8} {c : Char} {cs : List (Option Char)} (h : scan none bytes = some c :: cs) :
    ∃ rest, bytes = String.utf8EncodeChar c ++ rest ∧ scan none rest = cs := by
  cases bytes with
  | nil => cases h
  | cons b rest =>
    obtain ⟨a, ha, rfl⟩ : ∃ a, a < 256 ∧ b = UInt8.ofNat a := ⟨b.toNat, UInt8.toNat_lt b, UInt8.ofNat_toNat.symm⟩
    rw [scan, lead_ofNat ha] at h
    by_cases h80 : a < 0x80
    · rw [if_pos h80] at h
      cases h
      exact ⟨rest, by rw [encodeChar_ofNat (by unfold Nat.isValidChar; omega), if_pos (by omega)]; simp, rfl⟩
    rw [if_neg h80] at h
    by_cases hC2 : a < 0xC2
    · rw [if_pos hC2] at h
      cases h
    rw [if_neg hC2] at h
    by_cases hE0 : a < 0xE0
    · rw [if_pos hE0] at h
      obtain ⟨b, rest, rfl, hb, h⟩ := scan_owed_eq_cons (by omega) (by omega) h
      rw [if_pos (by omega), List.cons.injEq, Option.some.injEq] at h
      obtain ⟨rfl, rfl⟩ := h
      exact ⟨rest, by rw [encodeChar_two ⟨by omega, hE0⟩ hb]; simp, rfl⟩
    rw [if_neg hE0] at h
    by_cases hF0 : a < 0xF0
    · rw [if_pos hF0] at h
      obtain ⟨b, rest, rfl, hb, h⟩ := scan_owed_eq_cons (by split <;> omega) (by split <;> split <;> omega) h
      rw [if_neg (by omega)] at h
      obtain ⟨c, rest, rfl, hc, h⟩ := scan_owed_eq_cons (by omega) (by omega) h
      rw [if_pos (by omega), List.cons.injEq, Option.some.injEq] at h
      obtain ⟨rfl, rfl⟩ := h
      obtain ⟨hlow, hhigh⟩ := hb
      have hchar := encodeChar_three ⟨by omega, hF0⟩ (b := b)
        ⟨by split at hlow <;> omega, by split at hhigh <;> omega⟩
        (fun he => by rwa [if_pos he] at hlow) (fun he => by rwa [if_pos he] at hhigh) hc
      exact ⟨rest, by rw [hchar]; simp, rfl⟩
    rw [if_neg hF0] at h
    by_cases hF5 : a < 0xF5
    · rw [if_pos hF5] at h
      obtain ⟨b, rest, rfl, hb, h⟩ := scan_owed_eq_cons (by split <;> omega) (by split <;> split <;> omega) h
      rw [if_neg (by omega)] at h
      obtain ⟨c, rest, rfl, hc, h⟩ := scan_owed_eq_cons (by omega) (by omega) h
      rw [if_neg (by omega)] at h
      obtain ⟨d, rest, rfl, hd, h⟩ := scan_owed_eq_cons (by omega) (by omega) h
      rw [if_pos (by omega), List.cons.injEq, Option.some.injEq] at h
      obtain ⟨rfl, rfl⟩ := h
      obtain ⟨hlow, hhigh⟩ := hb
      have hchar := encodeChar_four ⟨by omega, hF5⟩ (b := b)
        ⟨by split at hlow <;> omega, by split at hhigh <;> omega⟩
        (fun he => by rwa [if_pos he] at hlow) (fun he => by rwa [if_pos he] at hhigh) hc hd
      exact ⟨rest, by rw [hchar]; simp, rfl⟩
    · rw [if_neg hF5] at h
      cases h

/-- What is owed comes out, if not as a character. -/
theorem scan_some_ne_nil (o : Open) (bytes : List UInt8) : scan (some o) bytes ≠ [] := by
  induction bytes generalizing o with
  | nil => simp [scan]
  | cons b rest ih =>
    rw [scan]
    split
    · simp only
      split
      · simp
      · exact ih _
    · simp

theorem eq_nil_of_chars {bytes : List UInt8} (h : chars bytes = []) : bytes = [] := by
  cases bytes with
  | nil => rfl
  | cons b rest =>
    unfold chars at h
    rw [scan] at h
    split at h
    · cases h
    · exact absurd h (scan_some_ne_nil _ _)
    · cases h

theorem eq_flatMap_encodeChar {bytes : List UInt8} {cs : List Char} (h : chars bytes = cs.map some) :
    bytes = cs.flatMap String.utf8EncodeChar := by
  induction cs generalizing bytes with
  | nil => exact eq_nil_of_chars h
  | cons c cs ih =>
    obtain ⟨rest, rfl, hrest⟩ := scan_eq_cons h
    rw [List.flatMap_cons, ← ih hrest]

/-- A text is decoded from the bytes that it is encoded in, and from no others. -/
theorem decode?_eq_some_iff {bytes : List UInt8} {s : String} : decode? bytes = some s ↔ bytes = encode s := by
  constructor
  · intro h
    obtain ⟨cs, hcs, rfl⟩ := Option.map_eq_some_iff.1 h
    rw [encode, String.toList_ofList]
    exact eq_flatMap_encodeChar (mapM_id_eq_some_iff.1 hcs)
  · rintro rfl
    exact decode?_encode s

end TraceTables.Text.Utf8
