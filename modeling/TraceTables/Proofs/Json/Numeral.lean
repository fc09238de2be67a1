import Mathlib.Data.List.TakeWhile
import TraceTables.Json.Token

/-! Numbers as they are written: digits, then perhaps a fraction and an exponent. A number that is read is the longest
that the text begins with, so what is written as a number is read back if nothing stands behind it that could go on
with it. -/

namespace TraceTables.Json

/-! ## The form of a number -/

def Digits (cs : List Char) : Prop := cs ≠ [] ∧ ∀ c ∈ cs, c.isDigit = true

/-- The digits before the point: a zero, or some that do not begin with one. -/
inductive WholeText : List Char → Prop
  | zero : WholeText ['0']
  | digits {cs : List Char} : Digits cs → cs.head? ≠ some '0' → WholeText cs

inductive FractionText : Option (List Char) → List Char → Prop
  | absent : FractionText none []
  | present {ds : List Char} : Digits ds → FractionText (some ds) ('.' :: ds)

/-- The sign of an exponent, by what it multiplies with. -/
inductive SignText : Int → List Char → Prop
  | bare : SignText 1 []
  | plus : SignText 1 ['+']
  | minus : SignText (-1) ['-']

inductive ExponentText : Option Int → List Char → Prop
  | absent : ExponentText none []
  | present {e : Char} {sign : Int} {ss ds : List Char} :
    e ∈ ['e', 'E'] → SignText sign ss → Digits ds → ExponentText (some (sign * Token.ofDigits ds)) (e :: (ss ++ ds))

namespace Token.Literal

/-- The text without the sign. -/
inductive UnsignedText (l : Literal) : List Char → Prop
  | mk {fs es : List Char} : WholeText l.whole → FractionText l.fraction fs → ExponentText l.exponent es →
    UnsignedText l (l.whole ++ (fs ++ es))

/-- The parts of a number stand one behind the other. -/
inductive Text : Literal → List Char → Prop
  | positive {l : Literal} {cs : List Char} : l.negative = false → l.UnsignedText cs → Text l cs
  | negative {l : Literal} {cs : List Char} : l.negative = true → l.UnsignedText cs → Text l ('-' :: cs)

/-- What is written without fraction and exponent is an integer, unless it is a zero with a sign or 64 bits cannot
hold it. -/
structure IsInteger (l : Literal) (z : Int) : Prop where
  noFraction : l.fraction = none
  noExponent : l.exponent = none
  unsignedZero : ofDigits l.whole = 0 → l.negative = false
  value : z = if l.negative then -(ofDigits l.whole : Int) else ofDigits l.whole
  low : -2 ^ 63 ≤ z
  high : z < 2 ^ 64

/-- The number that is written; any that is no integer is the double that it is read as, if it is not refused. -/
inductive Denotes [Reals] (l : Literal) : Number → Prop
  | integer {z : Int} : l.IsInteger z → Denotes l (.integer z)
  | real {x : Binary64} : (∀ z, ¬ l.IsInteger z) → Reals.double? l = some x → Denotes l (.real x)

end Token.Literal

/-- A text that denotes a number. -/
def NumberText [Reals] (x : Number) (cs : List Char) : Prop := ∃ l : Token.Literal, l.Text cs ∧ l.Denotes x

theorem WholeText.begins {cs : List Char} (h : WholeText cs) : ∃ d more, cs = d :: more ∧ d.isDigit = true := by
  cases h with
  | zero => exact ⟨'0', [], rfl, rfl⟩
  | digits hd =>
    obtain ⟨d, more, rfl⟩ := List.exists_cons_of_ne_nil hd.1
    exact ⟨d, more, rfl, hd.2 d List.mem_cons_self⟩

namespace Token

theorem Literal.UnsignedText.begins {l : Literal} {cs : List Char} (h : l.UnsignedText cs) :
    ∃ d more, cs = d :: more ∧ d.isDigit = true := by
  obtain ⟨hw, -, -⟩ := h
  obtain ⟨d, more, hw, hd⟩ := hw.begins
  exact ⟨d, _, by rw [hw, List.cons_append], hd⟩

/-! ## What a number denotes -/

section Value

variable [Reals] {l : Literal}

theorem Literal.number?_of_isInteger {z : Int} (h : l.IsInteger z) : l.number? = some (.integer z) := by
  obtain ⟨hf, he, hz, rfl, hl, hh⟩ := h
  cases hn : l.negative with
  | false =>
    simp only [hn, Bool.false_eq_true, if_false] at hh
    have hlt : ofDigits l.whole < 2 ^ 64 := by omega
    simp only [number?, hf, he, hn, Option.isSome_none, Bool.or_self, Bool.false_eq_true, if_false, if_pos hlt]
  | true =>
    simp only [hn, if_true] at hl
    have hpos : 0 < ofDigits l.whole := Nat.pos_of_ne_zero fun h0 => by simp [hz h0] at hn
    have hle : ofDigits l.whole ≤ 2 ^ 63 := by omega
    have hr : (0 < ofDigits l.whole && ofDigits l.whole ≤ 2 ^ 63) = true := by
      simp only [hpos, hle, decide_true, Bool.and_self]
    simp only [number?, hf, he, hn, Option.isSome_none, Bool.or_self, Bool.false_eq_true, if_false, if_true, hr]

theorem Literal.isInteger_or_real? (l : Literal) : (∃ z, l.IsInteger z) ∨ l.number? = l.real? := by
  by_cases hp : l.fraction.isSome || l.exponent.isSome
  · exact .inr (by simp [number?, hp])
  have hnone : l.fraction = none ∧ l.exponent = none := by simpa using hp
  cases hn : l.negative with
  | false =>
    by_cases hlt : ofDigits l.whole < 2 ^ 64
    · refine .inl ⟨ofDigits l.whole, hnone.1, hnone.2, fun _ => hn, by simp [hn], by omega, by omega⟩
    · right
      simp only [number?, hnone.1, hnone.2, hn, Option.isSome_none, Bool.or_self, Bool.false_eq_true, if_false, hlt]
  | true =>
    by_cases hr : 0 < ofDigits l.whole ∧ ofDigits l.whole ≤ 2 ^ 63
    · refine .inl ⟨-ofDigits l.whole, hnone.1, hnone.2, fun h0 => by omega, by simp [hn], by omega, by omega⟩
    · right
      simp only [number?, hnone.1, hnone.2, hn, Option.isSome_none, Bool.or_self, Bool.false_eq_true, if_false, if_true,
        ← Bool.decide_and, hr, decide_false]

theorem Literal.number?_eq_some_iff {x : Number} : l.number? = some x ↔ l.Denotes x := by
  constructor
  · intro h
    by_cases hi : ∃ z, l.IsInteger z
    · obtain ⟨z, hz⟩ := hi
      obtain rfl : .integer z = x := Option.some.inj ((number?_of_isInteger hz).symm.trans h)
      exact .integer hz
    · obtain ⟨y, hy, rfl⟩ := Option.map_eq_some_iff.1 ((l.isInteger_or_real?.resolve_left hi).symm.trans h)
      exact .real (fun z hz => hi ⟨z, hz⟩) hy
  · rintro (hz | ⟨hn, hy⟩)
    · exact number?_of_isInteger hz
    · exact (l.isInteger_or_real?.resolve_left fun ⟨z, hz⟩ => hn z hz).trans (congrArg (Option.map Number.real) hy)

end Value

/-! ## Reading -/

/-- No digit comes next. -/
def NoDigit (rest : List Char) : Prop := ∀ c ∈ rest.head?, c.isDigit = false

/-- Nothing comes next that could go on with a number. -/
def Ends (rest : List Char) : Prop := ∀ c ∈ rest.head?, c.isDigit = false ∧ c ∉ ['.', 'e', 'E']

theorem Ends.noDigit {rest : List Char} (h : Ends rest) : NoDigit rest := fun c hc => (h c hc).1

theorem digits?_eq_some_iff {cs ds rest : List Char} :
    digits? cs = some (ds, rest) ↔ Digits ds ∧ cs = ds ++ rest ∧ NoDigit rest := by
  constructor
  · intro h
    have hsplit : digits cs = (ds, rest) ∧ ds ≠ [] := by
      unfold digits? at h
      split at h
      · cases h
      · rename_i hr
        refine ⟨Option.some.inj h, fun hd => hr rest ?_⟩
        rw [Option.some.inj h, hd]
    obtain ⟨rfl, rfl⟩ := Prod.mk.inj hsplit.1
    refine ⟨⟨hsplit.2, fun c hc => List.mem_takeWhile_imp hc⟩, List.takeWhile_append_dropWhile.symm, ?_⟩
    intro c hc
    simpa [Option.mem_def.1 hc] using List.head?_dropWhile_not Char.isDigit cs
  · rintro ⟨⟨hne, hd⟩, rfl, hrest⟩
    have hsplit : digits (ds ++ rest) = (ds, rest) := by
      rw [digits, List.takeWhile_append_of_pos hd, List.dropWhile_append_of_pos hd]
      cases rest with
      | nil => simp
      | cons c rest => simp [hrest c rfl]
    unfold digits?
    rw [hsplit]
    split
    · rename_i h
      exact absurd (congrArg Prod.fst h) hne
    · rfl

theorem readWhole_sound {cs ds rest : List Char} (h : readWhole cs = some (ds, rest)) :
    WholeText ds ∧ cs = ds ++ rest := by
  unfold readWhole at h
  split at h
  · cases h
    exact ⟨.zero, rfl⟩
  · rename_i hz
    obtain ⟨hd, rfl, -⟩ := digits?_eq_some_iff.1 h
    refine ⟨.digits hd fun h0 => ?_, rfl⟩
    obtain ⟨ds', rfl⟩ := List.head?_eq_some_iff.1 h0
    exact hz _ rfl

theorem readWhole_append {ds rest : List Char} (h : WholeText ds) (hrest : NoDigit rest) :
    readWhole (ds ++ rest) = some (ds, rest) := by
  cases h with
  | zero => rfl
  | digits hd hz =>
    unfold readWhole
    split
    · rename_i more he
      obtain ⟨d, ds, rfl⟩ := List.exists_cons_of_ne_nil hd.1
      obtain rfl : d = '0' := (List.cons.inj he).1
      exact absurd rfl hz
    · exact digits?_eq_some_iff.2 ⟨hd, rfl, hrest⟩

theorem readFraction_sound {cs rest : List Char} {f : Option (List Char)} (h : readFraction cs = some (f, rest)) :
    ∃ fs, FractionText f fs ∧ cs = fs ++ rest := by
  unfold readFraction at h
  split at h
  · obtain ⟨⟨ds, _⟩, hr, he⟩ := Option.map_eq_some_iff.1 h
    cases he
    obtain ⟨hd, rfl, -⟩ := digits?_eq_some_iff.1 hr
    exact ⟨_, .present hd, rfl⟩
  · cases h
    exact ⟨[], .absent, rfl⟩

theorem readFraction_append {fs rest : List Char} {f : Option (List Char)} (h : FractionText f fs)
    (hrest : NoDigit rest) (hpoint : rest.head? ≠ some '.') : readFraction (fs ++ rest) = some (f, rest) := by
  cases h with
  | absent =>
    rw [List.nil_append]
    unfold readFraction
    split
    · exact absurd rfl hpoint
    · rfl
  | present hd =>
    have hr := digits?_eq_some_iff.2 ⟨hd, rfl, hrest⟩
    simp [readFraction, hr]

theorem readExponentDigits_eq_some_iff {sign : Int} {cs rest : List Char} {e : Option Int} :
    readExponentDigits sign cs = some (e, rest) ↔
      ∃ ds, Digits ds ∧ e = some (sign * ofDigits ds) ∧ cs = ds ++ rest ∧ NoDigit rest := by
  unfold readExponentDigits
  simp only [Option.map_eq_some_iff, Prod.exists, Prod.mk.injEq]
  constructor
  · rintro ⟨ds, _, hr, rfl, rfl⟩
    obtain ⟨hd, hcs, hrest⟩ := digits?_eq_some_iff.1 hr
    exact ⟨ds, hd, rfl, hcs, hrest⟩
  · rintro ⟨ds, hd, rfl, hcs, hrest⟩
    exact ⟨ds, rest, digits?_eq_some_iff.2 ⟨hd, hcs, hrest⟩, rfl, rfl⟩

theorem readExponent_sound {cs rest : List Char} {e : Option Int} (h : readExponent cs = some (e, rest)) :
    ∃ es, ExponentText e es ∧ cs = es ++ rest := by
  unfold readExponent at h
  split at h
  · split at h
    · rename_i c _ hc
      have hc : c ∈ ['e', 'E'] := by simpa using hc
      split at h <;> obtain ⟨ds, hd, rfl, rfl, -⟩ := readExponentDigits_eq_some_iff.1 h
      · exact ⟨_, .present hc .plus hd, rfl⟩
      · exact ⟨_, .present hc .minus hd, rfl⟩
      · exact ⟨_, .present hc .bare hd, rfl⟩
    · cases h
      exact ⟨[], .absent, rfl⟩
  · cases h
    exact ⟨[], .absent, rfl⟩

theorem readExponent_append {es rest : List Char} {e : Option Int} (h : ExponentText e es) (hrest : Ends rest) :
    readExponent (es ++ rest) = some (e, rest) := by
  have hdigits {sign : Int} {ds : List Char} (hd : Digits ds) :
      readExponentDigits sign (ds ++ rest) = some (some (sign * ofDigits ds), rest) :=
    readExponentDigits_eq_some_iff.2 ⟨ds, hd, rfl, rfl, hrest.noDigit⟩
  cases h with
  | absent =>
    rw [List.nil_append]
    cases rest with
    | nil => rfl
    | cons c rest =>
      have hc : ¬ (c = 'e' ∨ c = 'E') := fun hc => (hrest c rfl).2 (by simp [hc])
      simp [readExponent, hc]
  | @present e sign ss ds he hs hd =>
    have he : e = 'e' ∨ e = 'E' := by simpa using he
    cases hs with
    | plus | minus => simp [readExponent, he, hdigits hd]
    | bare =>
      -- what comes next is a digit and not taken for a sign
      obtain ⟨d, ds, rfl⟩ := List.exists_cons_of_ne_nil hd.1
      have hdigit : d.isDigit = true := hd.2 d List.mem_cons_self
      have hplus : d ≠ '+' := by rintro rfl; cases hdigit
      have hminus : d ≠ '-' := by rintro rfl; cases hdigit
      rw [← hdigits hd]
      simp [readExponent, he, hplus, hminus]

theorem noDigit_of_exponentText {es rest : List Char} {e : Option Int} (h : ExponentText e es) (hrest : Ends rest) :
    NoDigit (es ++ rest) ∧ (es ++ rest).head? ≠ some '.' := by
  cases h with
  | absent => exact ⟨hrest.noDigit, fun h => (hrest '.' h).2 (by simp)⟩
  | present he =>
    have he := by simpa using he
    obtain rfl | rfl := he <;> simp [NoDigit]

theorem noDigit_of_fractionText {fs rest : List Char} {f : Option (List Char)} (h : FractionText f fs)
    (hrest : NoDigit rest) : NoDigit (fs ++ rest) := by
  cases h with
  | absent => exact hrest
  | present => simp [NoDigit]

theorem readLiteral_sound {negative : Bool} {cs rest : List Char} {l : Literal}
    (h : readLiteral negative cs = some (l, rest)) :
    l.negative = negative ∧ ∃ ds, l.UnsignedText ds ∧ cs = ds ++ rest := by
  simp only [readLiteral, bind, Option.bind_eq_some_iff, Prod.exists] at h
  obtain ⟨whole, more, hw, f, more', hf, e, more'', he, hl⟩ := h
  obtain ⟨hwhole, rfl⟩ := readWhole_sound hw
  obtain ⟨fs, hfraction, rfl⟩ := readFraction_sound hf
  obtain ⟨es, hexponent, rfl⟩ := readExponent_sound he
  cases hl
  exact ⟨rfl, whole ++ (fs ++ es), ⟨hwhole, hfraction, hexponent⟩, by simp only [List.append_assoc]⟩

theorem readLiteral_append {l : Literal} {ds rest : List Char} (h : l.UnsignedText ds) (hrest : Ends rest) :
    readLiteral l.negative (ds ++ rest) = some (l, rest) := by
  obtain ⟨hw, hf, he⟩ := h
  obtain ⟨hexponent, hpoint⟩ := noDigit_of_exponentText he hrest
  simp only [readLiteral, List.append_assoc, readWhole_append hw (noDigit_of_fractionText hf hexponent),
    readFraction_append hf hexponent hpoint, readExponent_append he hrest, bind, pure, Option.bind_some]

end Token

end TraceTables.Json
