import TraceTables.Json.Value
import TraceTables.Number.Shortest

/-! JSON text of a value, compact or with an indent of two blanks a level. Characters stand for themselves
but for the quote, the backslash and those below U+0020. -/

namespace TraceTables.Json

/-- Doubles are positional from 0.00001 to below 10^16, always with a point, and the exponent has a sign. -/
def layout : Shortest.Layout := ⟨-5, 16, true, "e", "+"⟩

/-- `null` for what is no finite number. -/
def renderReal (x : Binary64) : String := if x.isFinite then layout.text x else "null"

def Number.render : Number → String
  | .integer z => toString z
  | .real x => renderReal x

def hexDigit (n : Nat) : Char := Char.ofNat (if n < 10 then 0x30 + n else 0x57 + n)

def escape (c : Char) : List Char :=
  match c with
  | '"' => ['\\', '"']
  | '\\' => ['\\', '\\']
  | '\x08' => ['\\', 'b']
  | '\t' => ['\\', 't']
  | '\n' => ['\\', 'n']
  | '\x0c' => ['\\', 'f']
  | '\r' => ['\\', 'r']
  | c =>
    if c.toNat < 0x20 then ['\\', 'u', '0', '0', hexDigit (c.toNat / 16), hexDigit (c.toNat % 16)]
    else [c]

def quote (s : String) : String := "\"" ++ String.ofList (s.toList.flatMap escape) ++ "\""

/-- What stands around and between the parts of arrays and objects. -/
structure Style where
  indent : Option String
  colon : String

def compact : Style := ⟨none, ":"⟩

def pretty : Style := ⟨some "  ", ": "⟩

/-- The line break before a part that is `depth` levels deep. -/
def Style.newline (s : Style) (depth : Nat) : String :=
  match s.indent with
  | none => ""
  | some i => "\n" ++ String.join (List.replicate depth i)

/-- Parts in brackets, separated by commas. -/
def Style.enclose (s : Style) (depth : Nat) (left right : String) (parts : List String) : String :=
  if parts.isEmpty then left ++ right
  else left ++ s.newline (depth + 1) ++ String.intercalate ("," ++ s.newline (depth + 1)) parts ++
    s.newline depth ++ right

mutual

def render (s : Style) (depth : Nat) : Json → String
  | .null => "null"
  | .bool b => if b then "true" else "false"
  | .number n => n.render
  | .string t => quote t
  | .array items => s.enclose depth "[" "]" (renderItems s (depth + 1) items)
  | .object members => s.enclose depth "\x7b" "\x7d" (renderMembers s (depth + 1) members)

def renderItems (s : Style) (depth : Nat) : List Json → List String
  | [] => []
  | j :: js => render s depth j :: renderItems s depth js

def renderMembers (s : Style) (depth : Nat) : List (String × Json) → List String
  | [] => []
  | (name, j) :: ms => (quote name ++ s.colon ++ render s depth j) :: renderMembers s depth ms

end

def text (s : Style) (j : Json) : String := render s 0 j

end TraceTables.Json
