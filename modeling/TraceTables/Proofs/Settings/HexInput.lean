import Mathlib.Data.List.Forall2
import TraceTables.Proofs.Text.Utf8
import TraceTables.Settings.Input

/-! Hex dumps as input. A dump of bytes has two digits for each, of either case, with blanks anywhere between them;
reading takes exactly the dumps, and from each the bytes it is a dump of. -/

namespace TraceTables.Text

/-- A text in which blanks stand between given characters, before and behind them. -/
inductive Scattered : List Char → List Char → Prop where
  | nil : Scattered [] []
  | char {c : Char} {cs text : List Char} : Scattered cs text → Scattered (c :: cs) (c :: text)
  | blank {b : Char} {cs text : List Char} : isBlank b = true → Scattered cs text → Scattered cs (b :: text)

theorem scattered_squeeze (text : List Char) : Scattered (squeeze text) text := by
  induction text with
  | nil => exact .nil
  | cons c text ih =>
    by_cases hc : isBlank c = true
    · simpa [squeeze, hc] using ih.blank hc
    · simpa [squeeze, hc] using ih.char

/-- Only blanks are lost. -/
theorem Scattered.squeeze_eq {cs text : List Char} (h : Scattered cs text) (hcs : ∀ c ∈ cs, isBlank c = false) :
    squeeze text = cs := by
  induction h with
  | nil => rfl
  | @char c cs text _ ih =>
    rw [List.forall_mem_cons] at hcs
    have ht := ih hcs.2
    unfold squeeze at ht ⊢
    rw [List.filter_cons_of_pos (by simp [hcs.1]), ht]
  | @blank b cs text hb _ ih =>
    have ht := ih hcs
    unfold squeeze at ht ⊢
    rw [List.filter_cons_of_neg (by simp [hb]), ht]

namespace Hex

/-- A digit of a dump in either case. -/
def EitherCase (lower c : Char) : Prop := c = lower ∨ c = lower.toUpper

instance (lower c : Char) : Decidable (EitherCase lower c) := inferInstanceAs (Decidable (_ ∨ _))

/-- A text that is a dump of bytes. -/
def IsDump (bytes : List UInt8) (text : String) : Prop :=
  ∃ digits, List.Forall₂ EitherCase (encode bytes).toList digits ∧ Scattered digits text.toList

def digits : List Char := "0123456789abcdefABCDEF".toList

def IsDigit (c : Char) : Prop := c ∈ digits

instance (c : Char) : Decidable (IsDigit c) := inferInstanceAs (Decidable (_ ∈ _))

theorem isDigit_iff (c : Char) : IsDigit c ↔ ∃ n < 16, EitherCase (lowerDigit n) c := by
  constructor
  · intro h
    have hall : (digits.all fun c => (List.range 16).any fun n => EitherCase (lowerDigit n) c) = true := by
      decide +kernel
    obtain ⟨n, hn, hc⟩ := List.any_eq_true.1 (List.all_eq_true.1 hall c h)
    exact ⟨n, List.mem_range.1 hn, of_decide_eq_true hc⟩
  · rintro ⟨n, hn, hc⟩
    have hall : ∀ n < 16, IsDigit (lowerDigit n) ∧ IsDigit (lowerDigit n).toUpper := by decide +kernel
    rcases hc with rfl | rfl
    · exact (hall n hn).1
    · exact (hall n hn).2

theorem isBlank_of_isDigit {c : Char} (h : IsDigit c) : isBlank c = false := by
  have hall : (digits.all fun c => !isBlank c) = true := by decide +kernel
  simpa using List.all_eq_true.1 hall c h

/-! ## Characters as digits -/

theorem digit?_eq_none {n : Nat} (hlow : 0x80 ≤ n) (hn : n < 256) : digit? (UInt8.ofNat n) = none := by
  have hall : ∀ n < 256, 0x80 ≤ n → digit? (UInt8.ofNat n) = none := by decide +kernel
  exact hall n hn hlow

/-- A character is one byte and the digit that this byte is, or its first byte is no digit. -/
theorem encodeChar_cases (c : Char) :
    (∃ b, String.utf8EncodeChar c = [b] ∧ ∀ n < 16, digit? b = some n ↔ EitherCase (lowerDigit n) c) ∨
    (∃ b rest, String.utf8EncodeChar c = b :: rest ∧ digit? b = none ∧
      ∀ n < 16, ¬ EitherCase (lowerDigit n) c) := by
  have hc : Char.ofNat c.val.toNat = c := Char.ofNat_toNat c
  by_cases hlow : c.val.toNat < 0x80
  · left
    have hall : ∀ v < 0x80, ∀ n < 16,
        digit? (UInt8.ofNat v) = some n ↔ EitherCase (lowerDigit n) (Char.ofNat v) := by decide +kernel
    refine ⟨UInt8.ofNat c.val.toNat, ?_, fun n hn => ?_⟩
    · unfold String.utf8EncodeChar
      rw [if_pos (by omega)]
    · rw [hall _ hlow n hn, hc]
  · right
    have hno : ∀ n < 16, ¬ EitherCase (lowerDigit n) c := by
      intro n hn h
      have hall : ∀ n < 16, (lowerDigit n).toNat < 0x80 ∧ (lowerDigit n).toUpper.toNat < 0x80 := by decide +kernel
      rcases h with rfl | rfl
      · exact hlow (hall n hn).1
      · exact hlow (hall n hn).2
    -- the first of several bytes is above all digits
    unfold String.utf8EncodeChar
    simp only
    rw [if_neg (by omega)]
    split
    · exact ⟨_, _, rfl, digit?_eq_none (by omega) (by omega), hno⟩
    split
    · exact ⟨_, _, rfl, digit?_eq_none (by omega) (by omega), hno⟩
    · exact ⟨_, _, rfl, digit?_eq_none (by omega) (by omega), hno⟩

/-- The bytes of a text are the digits of some numbers if and only if its characters are. -/
theorem map_digit?_encode {ns : List Nat} (hns : ∀ n ∈ ns, n < 16) (cs : List Char) :
    (cs.flatMap String.utf8EncodeChar).map digit? = ns.map some ↔
      List.Forall₂ EitherCase (ns.map lowerDigit) cs := by
  induction cs generalizing ns with
  | nil => cases ns <;> simp
  | cons c cs ih =>
    rw [List.flatMap_cons]
    cases ns with
    | nil => rcases encodeChar_cases c with ⟨b, hb, -⟩ | ⟨b, rest, hb, -⟩ <;> simp [hb]
    | cons n ns =>
      rw [List.forall_mem_cons] at hns
      rw [List.map_cons, List.map_cons, List.forall₂_cons, ← ih hns.2]
      rcases encodeChar_cases c with ⟨b, hb, hdigit⟩ | ⟨b, rest, hb, hnone, hno⟩
      · simp [hb, hdigit n hns.1]
      · simp [hb, hnone, hno n hns.1]

/-! ## Bytes as pairs of digits -/

/-- The numbers that the digits of bytes stand for. -/
def halves (bytes : List UInt8) : List Nat := bytes.flatMap fun b => [b.toNat / 16, b.toNat % 16]

theorem toList_encode (bytes : List UInt8) : (encode bytes).toList = (halves bytes).map lowerDigit := by
  simp [encode, halves, List.map_flatMap]

theorem length_halves (bytes : List UInt8) : (halves bytes).length = 2 * bytes.length := by
  simp [halves, Nat.mul_comm]

theorem lt_of_mem_halves {bytes : List UInt8} {n : Nat} (h : n ∈ halves bytes) : n < 16 := by
  obtain ⟨b, -, hn⟩ := List.mem_flatMap.1 h
  have hb := b.toNat_lt
  simp only [List.mem_cons, List.not_mem_nil, or_false] at hn
  omega

theorem halves_cons (b : UInt8) (bytes : List UInt8) :
    halves (b :: bytes) = b.toNat / 16 :: b.toNat % 16 :: halves bytes := rfl

theorem digit?_lt {b : UInt8} {n : Nat} (h : digit? b = some n) : n < 16 := by
  simp only [digit?, Bool.and_eq_true, decide_eq_true_eq, UInt8.le_iff_toNat_le] at h
  split at h
  · rename_i hb
    cases h
    have h9 : b.toNat ≤ 0x39 := hb.2
    omega
  split at h
  · rename_i hb
    cases h
    have hF : b.toNat ≤ 0x46 := hb.2
    omega
  split at h
  · rename_i hb
    cases h
    have hf : b.toNat ≤ 0x66 := hb.2
    omega
  · cases h

/-- Two digits make one byte and no other. -/
theorem ofNat_eq_iff {x y : Nat} (hx : x < 16) (hy : y < 16) (b : UInt8) :
    UInt8.ofNat (16 * x + y) = b ↔ x = b.toNat / 16 ∧ y = b.toNat % 16 := by
  have hb := b.toNat_lt
  rw [← UInt8.toNat_inj, UInt8.toNat_ofNat_of_lt' (by unfold UInt8.size; omega)]
  omega

theorem pairs_eq_ok_iff {position : Nat} {digits bytes : List UInt8} :
    pairs position digits = .ok bytes ↔ digits.map digit? = (halves bytes).map some := by
  fun_induction pairs position digits generalizing bytes with
  | case1 position => cases bytes <;> simp [halves]
  | case2 position a => cases bytes <;> simp [halves]
  | case3 position a b rest x y hy hx ih =>
    cases bytes with
    | nil => cases pairs (position + 2) rest <;> simp [halves, Except.map]
    | cons c bytes =>
      have hmap : (pairs (position + 2) rest).map (UInt8.ofNat (16 * x + y) :: ·) = .ok (c :: bytes) ↔
          UInt8.ofNat (16 * x + y) = c ∧ pairs (position + 2) rest = .ok bytes := by
        cases pairs (position + 2) rest <;> simp [Except.map]
      rw [hmap, ofNat_eq_iff (digit?_lt hx) (digit?_lt hy), ih]
      simp [halves_cons, hx, hy, and_assoc]
  | case4 position a b rest hx => cases bytes <;> simp [halves, hx]
  | case5 position a b rest x hy hx => cases bytes <;> simp [halves, hy]

/-- An odd count is found first, but pairs do not have one either. -/
theorem decode_eq_ok_iff {digits bytes : List UInt8} :
    decode digits = .ok bytes ↔ digits.map digit? = (halves bytes).map some := by
  unfold decode
  split
  · rename_i hodd
    refine iff_of_false (by simp) fun h => ?_
    have hlen := congrArg List.length h
    rw [List.length_map, List.length_map, length_halves] at hlen
    omega
  · exact pairs_eq_ok_iff

/-! ## Dumps -/

theorem decodeText_eq_ok_iff {text : String} {bytes : List UInt8} :
    decodeText text = .ok bytes ↔ List.Forall₂ EitherCase (encode bytes).toList (squeeze text.toList) := by
  unfold decodeText
  rw [decode_eq_ok_iff, map_digit?_encode fun n => lt_of_mem_halves, toList_encode]

theorem isDigit_of_forall₂ {ns : List Nat} (hns : ∀ n ∈ ns, n < 16) {cs : List Char}
    (h : List.Forall₂ EitherCase (ns.map lowerDigit) cs) : ∀ c ∈ cs, IsDigit c := by
  rw [List.forall₂_map_left_iff] at h
  induction h with
  | nil => exact fun _ hc => nomatch hc
  | cons hc _ ih =>
    rw [List.forall_mem_cons] at hns ⊢
    exact ⟨(isDigit_iff _).2 ⟨_, hns.1, hc⟩, ih hns.2⟩

theorem isDigit_of_encode {bytes : List UInt8} {cs : List Char}
    (h : List.Forall₂ EitherCase (encode bytes).toList cs) : ∀ c ∈ cs, IsDigit c := by
  rw [toList_encode] at h
  exact isDigit_of_forall₂ (fun n => lt_of_mem_halves) h

/-- A dump without its blanks has the digits of the bytes, each in one case or the other. -/
theorem isDump_iff {text : String} {bytes : List UInt8} :
    IsDump bytes text ↔ List.Forall₂ EitherCase (encode bytes).toList (squeeze text.toList) := by
  constructor
  · rintro ⟨digits, hdigits, hscattered⟩
    rw [hscattered.squeeze_eq fun c hc => isBlank_of_isDigit (isDigit_of_encode hdigits c hc)]
    exact hdigits
  · intro h
    exact ⟨_, h, scattered_squeeze _⟩

/-- Digits in pairs are a dump. -/
theorem exists_of_even : ∀ cs : List Char, cs.length % 2 = 0 → (∀ c ∈ cs, IsDigit c) →
    ∃ bytes, List.Forall₂ EitherCase (encode bytes).toList cs
  | [], _, _ => ⟨[], .nil⟩
  | [_], heven, _ => by simp at heven
  | a :: b :: cs, heven, hdigits => by
    simp only [List.forall_mem_cons] at hdigits
    obtain ⟨x, hx, ha⟩ := (isDigit_iff a).1 hdigits.1
    obtain ⟨y, hy, hb⟩ := (isDigit_iff b).1 hdigits.2.1
    rw [List.length_cons, List.length_cons] at heven
    obtain ⟨bytes, hbytes⟩ := exists_of_even cs (by omega) hdigits.2.2
    obtain ⟨hhigh, hlow⟩ := (ofNat_eq_iff hx hy _).1 rfl
    refine ⟨UInt8.ofNat (16 * x + y) :: bytes, ?_⟩
    rw [toList_encode] at hbytes ⊢
    rw [halves_cons, ← hhigh, ← hlow]
    exact .cons ha (.cons hb hbytes)

theorem exists_dump_iff (text : String) :
    (∃ bytes, IsDump bytes text) ↔
      (squeeze text.toList).length % 2 = 0 ∧ ∀ c ∈ squeeze text.toList, IsDigit c := by
  simp only [isDump_iff]
  constructor
  · rintro ⟨bytes, h⟩
    refine ⟨?_, isDigit_of_encode h⟩
    rw [← h.length_eq, toList_encode, List.length_map, length_halves]
    omega
  · rintro ⟨heven, hdigits⟩
    exact exists_of_even _ heven hdigits

end Hex

end TraceTables.Text

namespace TraceTables.Settings

open Text

/-- From a file with a text, reading takes the bytes that the text is a dump of. The text is a dump if and only if it
has an even number of digits and nothing else but blanks. -/
theorem readInput_hex (disk : Disk Id) (path : String) (text : String)
    (hread : (disk.read? path).run = some (Utf8.encode text)) :
    (∀ bytes, (readInput disk path true).run.run = .ok bytes ↔ Hex.IsDump bytes text) ∧
    ((∃ bytes, (readInput disk path true).run.run = .ok bytes) ↔
      (squeeze text.toList).length % 2 = 0 ∧ ∀ c ∈ squeeze text.toList, Hex.IsDigit c) := by
  have hinput (bytes : List UInt8) : (readInput disk path true).run.run = .ok bytes ↔ Hex.IsDump bytes text := by
    have hrun : (readInput disk path true).run.run = decodeInput path true (Utf8.encode text) := by
      have hcontent : disk.read? path = some (Utf8.encode text) := hread
      unfold readInput
      rw [hcontent]
      rfl
    rw [hrun, Hex.isDump_iff, ← Hex.decodeText_eq_ok_iff]
    simp only [decodeInput, if_true, Utf8.decode?_encode]
    cases Hex.decodeText text <;> simp
  refine ⟨hinput, ?_⟩
  simp only [hinput]
  exact Hex.exists_dump_iff text

/-- Both cases, and blanks of several kinds, some between the digits of a byte. -/
def spreadDump : String := "\u3000 0a\u2028F\t\n1 "

theorem readInput_hex_spread :
    (readInput ((FileTree.mk [] [(["run", "message.hex"], Utf8.encode spreadDump)]).disk "/run") "message.hex"
      true).run.run = .ok [0x0A, 0xF1] := by
  refine ((readInput_hex _ _ spreadDump (by decide +kernel)).1 _).2 ⟨"0aF1".toList, by decide, ?_⟩
  have hdigits : squeeze spreadDump.toList = "0aF1".toList := by decide +kernel
  rw [← hdigits]
  exact scattered_squeeze _

end TraceTables.Settings
