/-! UTF-8 read byte by byte. A text that is not well formed is either refused or repaired; a repair
puts U+FFFD for each maximal ill-formed part: the longest run of bytes that some well-formed
character starts with, or one byte where no character starts. -/

namespace TraceTables.Text.Utf8

/-- The bytes still owed to a character: its code so far, how many bytes are to come, and the range of
the next one. -/
structure Open where
  code : Nat
  owed : Nat
  low : UInt8
  high : UInt8

/-- What a byte does where a character may start. -/
inductive Lead where
  | whole (c : Char)
  | opens (o : Open)
  | wrong

/-- The first bytes of the well-formed characters. The ranges of the second byte leave out over-long
forms, surrogates and codes above U+10FFFF. -/
def lead (b : UInt8) : Lead :=
  if b < 0x80 then .whole (Char.ofNat b.toNat)
  else if b < 0xC2 then .wrong
  else if b < 0xE0 then .opens ⟨b.toNat - 0xC0, 1, 0x80, 0xBF⟩
  else if b < 0xF0 then
    .opens ⟨b.toNat - 0xE0, 2, if b = 0xE0 then 0xA0 else 0x80, if b = 0xED then 0x9F else 0xBF⟩
  else if b < 0xF5 then
    .opens ⟨b.toNat - 0xF0, 3, if b = 0xF0 then 0x90 else 0x80, if b = 0xF4 then 0x8F else 0xBF⟩
  else .wrong

/-- The characters of a byte string, `none` for each maximal ill-formed part. -/
def scan : Option Open → List UInt8 → List (Option Char)
  | none, [] => []
  | some _, [] => [none]
  | none, b :: rest =>
    match lead b with
    | .whole c => some c :: scan none rest
    | .opens o => scan (some o) rest
    | .wrong => none :: scan none rest
  | some o, b :: rest =>
    if o.low ≤ b && b ≤ o.high then
      let code := o.code * 0x40 + (b.toNat - 0x80)
      if o.owed ≤ 1 then some (Char.ofNat code) :: scan none rest
      else scan (some ⟨code, o.owed - 1, 0x80, 0xBF⟩) rest
    else
      none :: match lead b with
        | .whole c => some c :: scan none rest
        | .opens o' => scan (some o') rest
        | .wrong => none :: scan none rest

def chars (bytes : List UInt8) : List (Option Char) := scan none bytes

/-- The text, if every byte belongs to a well-formed character. -/
def decode? (bytes : List UInt8) : Option String := ((chars bytes).mapM id).map String.ofList

/-- The text with U+FFFD for every ill-formed part. -/
def repair (bytes : List UInt8) : String :=
  String.ofList ((chars bytes).map fun c => c.getD '\uFFFD')

def encode (s : String) : List UInt8 := s.toList.flatMap String.utf8EncodeChar

example : (repair [0x61, 0xE2, 0x82, 0xF0, 0x90, 0x80, 0xC0, 0x80, 0xED, 0xA0, 0x62]).toList =
    ['a', '\uFFFD', '\uFFFD', '\uFFFD', '\uFFFD', '\uFFFD', '\uFFFD', 'b'] := by decide

end TraceTables.Text.Utf8
