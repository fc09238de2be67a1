import TraceTables.Json.Value

/-! The tokens of a JSON text. White space is space, tab, line feed and carriage return, and strings hold no bare
control character. Two tokens follow the grammar and yet have no value: a number that is refused and a
string with half of a surrogate pair. -/

namespace TraceTables.Json

inductive Token where
  | leftBrace
  | rightBrace
  | leftBracket
  | rightBracket
  | comma
  | colon
  | scalar (value? : Option Scalar)
  | text (value? : Option String)

namespace Token

def isSpace (c : Char) : Bool := c = ' ' || c = '\t' || c = '\n' || c = '\r'

def digit (c : Char) : Nat := c.toNat - '0'.toNat

/-- The number that a row of digits denotes. -/
def ofDigits (cs : List Char) : Nat := cs.foldl (fun n c => 10 * n + digit c) 0

def hexDigit? (c : Char) : Option Nat :=
  if '0' ≤ c && c ≤ '9' then some (c.toNat - '0'.toNat)
  else if 'a' ≤ c && c ≤ 'f' then some (c.toNat - 'a'.toNat + 10)
  else if 'A' ≤ c && c ≤ 'F' then some (c.toNat - 'A'.toNat + 10)
  else none

/-- The unit that four hex digits denote. -/
def unit? (a b c d : Char) : Option Nat := do
  let w ← hexDigit? a
  let x ← hexDigit? b
  let y ← hexDigit? c
  let z ← hexDigit? d
  return ((w * 16 + x) * 16 + y) * 16 + z

def simpleEscape? : Char → Option Char
  | '"' => some '"'
  | '\\' => some '\\'
  | '/' => some '/'
  | 'b' => some '\x08'
  | 'f' => some '\x0c'
  | 'n' => some '\n'
  | 'r' => some '\r'
  | 't' => some '\t'
  | _ => none

/-- Reads a string behind its opening quote: its units and what follows the closing one. Four hex digits are a
unit whatever they denote; any other character is a unit of its own. -/
def readString : List Char → Option (List Nat × List Char)
  | [] => none
  | '"' :: rest => some ([], rest)
  | '\\' :: 'u' :: a :: b :: c :: d :: rest =>
    match unit? a b c d with
    | none => none
    | some u => (readString rest).map fun r => (u :: r.1, r.2)
  | '\\' :: c :: rest =>
    match simpleEscape? c with
    | none => none
    | some e => (readString rest).map fun r => (e.toNat :: r.1, r.2)
  | c :: rest => if c.toNat < 0x20 then none else (readString rest).map fun r => (c.toNat :: r.1, r.2)

def isHighSurrogate (u : Nat) : Bool := 0xD800 ≤ u && u < 0xDC00

def isLowSurrogate (u : Nat) : Bool := 0xDC00 ≤ u && u < 0xE000

/-- The characters of units. A high surrogate and the low one behind it are one character; neither stands
alone. -/
def ofUnits? : List Nat → Option (List Char)
  | [] => some []
  | [u] => if isHighSurrogate u || isLowSurrogate u then none else some [Char.ofNat u]
  | u :: v :: rest =>
    if isHighSurrogate u then
      if isLowSurrogate v then
        (ofUnits? rest).map (Char.ofNat (0x10000 + (u - 0xD800) * 0x400 + (v - 0xDC00)) :: ·)
      else none
    else if isLowSurrogate u then none
    else (ofUnits? (v :: rest)).map (Char.ofNat u :: ·)

/-- The parts of a number's text. -/
structure Literal where
  negative : Bool
  whole : List Char
  fraction : Option (List Char)
  exponent : Option Int

/-- Splits digits off. -/
def digits (cs : List Char) : List Char × List Char :=
  (cs.takeWhile Char.isDigit, cs.dropWhile Char.isDigit)

/-- One digit at least. -/
def digits? (cs : List Char) : Option (List Char × List Char) :=
  match digits cs with
  | ([], _) => none
  | r => some r

/-- The digits before the point: no zero stands in front of others. -/
def readWhole : List Char → Option (List Char × List Char)
  | '0' :: rest => some (['0'], rest)
  | cs => digits? cs

def readFraction : List Char → Option (Option (List Char) × List Char)
  | '.' :: rest => (digits? rest).map fun r => (some r.1, r.2)
  | cs => some (none, cs)

def readExponentDigits (sign : Int) (cs : List Char) : Option (Option Int × List Char) :=
  (digits? cs).map fun r => (some (sign * ofDigits r.1), r.2)

def readExponent : List Char → Option (Option Int × List Char)
  | c :: rest =>
    if c = 'e' || c = 'E' then
      match rest with
      | '+' :: more => readExponentDigits 1 more
      | '-' :: more => readExponentDigits (-1) more
      | more => readExponentDigits 1 more
    else some (none, c :: rest)
  | [] => some (none, [])

def readLiteral (negative : Bool) (cs : List Char) : Option (Literal × List Char) := do
  let (whole, cs) ← readWhole cs
  let (fraction, cs) ← readFraction cs
  let (exponent, cs) ← readExponent cs
  return (⟨negative, whole, fraction, exponent⟩, cs)

theorem length_readString {cs rest : List Char} {us : List Nat} (h : readString cs = some (us, rest)) :
    rest.length < cs.length := by
  fun_induction readString cs generalizing us rest with
  | case1 | case3 | case5 | case7 => simp at h
  | case2 => simp_all
  | case4 _ _ _ _ _ _ _ ih | case6 _ _ _ _ _ ih | case8 _ _ _ _ _ _ ih =>
    obtain ⟨⟨_, _⟩, hr, he⟩ := Option.map_eq_some_iff.1 h
    cases he
    have := ih hr
    simp only [List.length_cons]
    omega

theorem length_digits? {cs ds rest : List Char} (h : digits? cs = some (ds, rest)) :
    rest.length < cs.length := by
  unfold digits? digits at h
  cases cs with
  | nil => simp at h
  | cons c cs =>
    by_cases hc : c.isDigit = true
    · simp only [List.takeWhile_cons, List.dropWhile_cons, hc, if_true] at h
      have := (List.dropWhile_sublist Char.isDigit : (cs.dropWhile Char.isDigit).Sublist cs).length_le
      simp only [Option.some.injEq, Prod.mk.injEq] at h
      obtain ⟨-, rfl⟩ := h
      simp only [List.length_cons]
      omega
    · simp [hc] at h

theorem length_readWhole {cs ds rest : List Char} (h : readWhole cs = some (ds, rest)) :
    rest.length < cs.length := by
  unfold readWhole at h
  split at h
  · simp_all
  · exact length_digits? h

theorem length_readFraction {cs rest : List Char} {ds : Option (List Char)}
    (h : readFraction cs = some (ds, rest)) : rest.length ≤ cs.length := by
  unfold readFraction at h
  split at h
  · obtain ⟨⟨_, _⟩, hr, he⟩ := Option.map_eq_some_iff.1 h
    cases he
    have := length_digits? hr
    simp only [List.length_cons]
    omega
  · simp_all

theorem length_readExponentDigits {sign : Int} {cs rest : List Char} {e : Option Int}
    (h : readExponentDigits sign cs = some (e, rest)) : rest.length < cs.length := by
  obtain ⟨⟨_, _⟩, hr, he⟩ := Option.map_eq_some_iff.1 h
  cases he
  exact length_digits? hr

theorem length_readExponent {cs rest : List Char} {e : Option Int}
    (h : readExponent cs = some (e, rest)) : rest.length ≤ cs.length := by
  unfold readExponent at h
  split at h
  · split at h
    · split at h <;>
        · have := length_readExponentDigits h
          simp only [List.length_cons] at *
          omega
    · simp_all
  · simp_all

end Token

/-- How a number that is no integer is read: the double that it gives, or none if it is refused. -/
class Reals where
  double? : Token.Literal → Option Binary64

namespace Token

variable [Reals]

def Literal.real? (l : Literal) : Option Number := (Reals.double? l).map .real

/-- What a literal denotes. -/
def Literal.number? (l : Literal) : Option Number :=
  let n := ofDigits l.whole
  if l.fraction.isSome || l.exponent.isSome then l.real?
  else if l.negative then
    if 0 < n && n ≤ 2 ^ 63 then some (.integer (-n)) else l.real?
  else if n < 2 ^ 64 then some (.integer n)
  else l.real?

def readNumber (negative : Bool) (cs : List Char) : Option (Token × List Char) := do
  let (l, rest) ← readLiteral negative cs
  return (.scalar (l.number?.map .number), rest)

/-- The token that begins with `c`, and what follows it. -/
def read (c : Char) (rest : List Char) : Option (Token × List Char) :=
  match c, rest with
  | '\x7b', _ => some (.leftBrace, rest)
  | '\x7d', _ => some (.rightBrace, rest)
  | '[', _ => some (.leftBracket, rest)
  | ']', _ => some (.rightBracket, rest)
  | ',', _ => some (.comma, rest)
  | ':', _ => some (.colon, rest)
  | '"', _ => (readString rest).map fun r => (.text ((ofUnits? r.1).map String.ofList), r.2)
  | '-', _ => readNumber true rest
  | 'n', 'u' :: 'l' :: 'l' :: more => some (.scalar (some .null), more)
  | 't', 'r' :: 'u' :: 'e' :: more => some (.scalar (some (.bool true)), more)
  | 'f', 'a' :: 'l' :: 's' :: 'e' :: more => some (.scalar (some (.bool false)), more)
  | _, _ => if c.isDigit then readNumber false (c :: rest) else none

theorem length_readNumber {negative : Bool} {cs rest : List Char} {t : Token}
    (h : readNumber negative cs = some (t, rest)) : rest.length < cs.length := by
  simp only [readNumber, readLiteral, bind, Option.bind_eq_some_iff, Prod.exists] at h
  obtain ⟨_, _, ⟨_, _, hw, _, _, hf, _, _, he, hl⟩, ht⟩ := h
  have h1 := length_readWhole hw
  have h2 := length_readFraction hf
  have h3 := length_readExponent he
  simp only [pure, Option.some.injEq, Prod.mk.injEq] at hl ht
  obtain ⟨-, rfl⟩ := hl
  obtain ⟨-, rfl⟩ := ht
  omega

/-- A token takes one character at least. -/
theorem length_read {c : Char} {cs rest : List Char} {t : Token} (h : read c cs = some (t, rest)) :
    rest.length ≤ cs.length := by
  unfold read at h
  split at h
  case h_7 =>
    obtain ⟨⟨_, _⟩, hr, he⟩ := Option.map_eq_some_iff.1 h
    cases he
    exact Nat.le_of_lt (length_readString hr)
  case h_8 => exact Nat.le_of_lt (length_readNumber h)
  case h_12 =>
    split at h
    · have := length_readNumber h
      simp only [List.length_cons] at this
      omega
    · simp at h
  all_goals
    simp only [Option.some.injEq, Prod.mk.injEq] at h
    simp only [← h.2, List.length_cons]
    omega

/-- All tokens of a text. -/
def all? : List Char → Option (List Token)
  | [] => some []
  | c :: cs =>
    if isSpace c then all? cs
    else
      match _h : read c cs with
      | none => none
      | some (t, rest) => (all? rest).map (t :: ·)
termination_by cs => cs.length
decreasing_by
  · simp
  · have := length_read ‹read c cs = some (t, rest)›
    simp only [List.length_cons]
    omega

end Token

end TraceTables.Json
