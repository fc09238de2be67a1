import TraceTables.Text.Blank
import TraceTables.Text.Utf8

/-! Hex dumps. Reading takes two digits of either case for a byte; a dump in a text may have blanks
anywhere between its digits. -/

namespace TraceTables.Text.Hex

/-- Why a text is no hex dump. The count of bytes is looked at first. -/
inductive Fault where
  | oddCount
  | badDigit (byte : UInt8) (position : Nat)
deriving DecidableEq

def digit? (b : UInt8) : Option Nat :=
  if 0x30 ≤ b && b ≤ 0x39 then some (b.toNat - 0x30)
  else if 0x41 ≤ b && b ≤ 0x46 then some (b.toNat - 0x41 + 10)
  else if 0x61 ≤ b && b ≤ 0x66 then some (b.toNat - 0x61 + 10)
  else none

/-- Reads pairs of digits; `position` is that of the first byte. -/
def pairs (position : Nat) : List UInt8 → Except Fault (List UInt8)
  | [] => .ok []
  | [_] => .error .oddCount
  | a :: b :: rest =>
    match digit? a, digit? b with
    | some x, some y => (pairs (position + 2) rest).map (UInt8.ofNat (16 * x + y) :: ·)
    | none, _ => .error (.badDigit a position)
    | some _, none => .error (.badDigit b (position + 1))

def decode (digits : List UInt8) : Except Fault (List UInt8) :=
  if digits.length % 2 = 1 then .error .oddCount else pairs 0 digits

/-- Reads a dump out of a text, whose blanks do not count. -/
def decodeText (text : String) : Except Fault (List UInt8) :=
  decode ((squeeze text.toList).flatMap String.utf8EncodeChar)

def lowerDigit (n : Nat) : Char := Char.ofNat (if n < 10 then 0x30 + n else 0x57 + n)

/-- The dump in lower case and without blanks. -/
def encode (bytes : List UInt8) : String :=
  String.ofList (bytes.flatMap fun b => [lowerDigit (b.toNat / 16), lowerDigit (b.toNat % 16)])

/-- The lower-case digits of a number, without leading zeros. -/
def ofNat (n : Nat) : String := String.ofList (Nat.toDigits 16 n)

/-- A byte as the character of the same code, between single quotes. NUL, the quote, the backslash and
the other control characters are escaped. -/
def quoted (b : UInt8) : String :=
  let n := b.toNat
  if n = 0 then "'\\0'"
  else if n = 0x27 then "'\\''"
  else if n = 0x5C then "'\\\\'"
  else if n < 0x20 || n = 0x7F then "'\\u\x7b" ++ ofNat n ++ "\x7d'"
  else "'" ++ String.singleton (Char.ofNat n) ++ "'"

def Fault.message : Fault → String
  | .oddCount => "Odd number of digits"
  | .badDigit b position => "Invalid character " ++ quoted b ++ " at position " ++ toString position

end TraceTables.Text.Hex
