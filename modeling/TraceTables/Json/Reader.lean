import TraceTables.Json.Token
import TraceTables.Json.Written

/-! Reading of JSON texts. The tokens go one by one into a stack of the arrays and objects that are open; the text
follows the grammar if the stack is empty at the end and one value is there. -/

namespace TraceTables.Json

/-- An array or object that is not closed yet; what it holds so far, the last first. -/
inductive Frame where
  | array (items : List Written)
  | object (members : List (Option String × Written))
  | member (members : List (Option String × Written)) (name : Option String)

/-- What may come next. -/
inductive Place where
  /-- a value -/
  | value
  /-- the first value of an array, or its end -/
  | firstItem
  /-- a name with its colon, or the end of an object if `mayEnd` -/
  | name (mayEnd : Bool)
  /-- the colon behind a name -/
  | colon
  /-- a comma or the end of what is open -/
  | next
  /-- nothing: the whole text is this value -/
  | finished (w : Written)

structure Nesting where
  frames : List Frame
  place : Place

/-- Puts a complete value where it belongs. -/
def complete (w : Written) : List Frame → Option Nesting
  | [] => some ⟨[], .finished w⟩
  | .array items :: outer => some ⟨.array (w :: items) :: outer, .next⟩
  | .member members name :: outer => some ⟨.object ((name, w) :: members) :: outer, .next⟩
  | .object _ :: _ => none

/-- A token where a value may stand. -/
def readValue (t : Token) (frames : List Frame) : Option Nesting :=
  match t with
  | .scalar v => complete (.scalar v) frames
  | .text s => complete (.scalar (s.map .string)) frames
  | .leftBracket => some ⟨.array [] :: frames, .firstItem⟩
  | .leftBrace => some ⟨.object [] :: frames, .name true⟩
  | _ => none

/-- Closes the innermost array or object. -/
def close (t : Token) (frames : List Frame) : Option Nesting :=
  match t, frames with
  | .rightBracket, .array items :: outer => complete (.array items.reverse) outer
  | .rightBrace, .object members :: outer => complete (.object members.reverse) outer
  | _, _ => none

def Nesting.feed (p : Nesting) (t : Token) : Option Nesting :=
  match p.place, t, p.frames with
  | .value, t, frames => readValue t frames
  | .firstItem, .rightBracket, frames => close .rightBracket frames
  | .firstItem, t, frames => readValue t frames
  | .name _, .text s, .object members :: outer => some ⟨.member members s :: outer, .colon⟩
  | .name true, .rightBrace, frames => close .rightBrace frames
  | .colon, .colon, frames => some ⟨frames, .value⟩
  | .next, .comma, .array items :: outer => some ⟨.array items :: outer, .value⟩
  | .next, .comma, .object members :: outer => some ⟨.object members :: outer, .name false⟩
  | .next, t, frames => close t frames
  | _, _, _ => none

def Written.ofTokens? (ts : List Token) : Option Written := do
  let p ← ts.foldlM Nesting.feed ⟨[], .value⟩
  match p.place with
  | .finished w => some w
  | _ => none

/-- The text, if it follows the grammar. -/
def Written.read? [Reals] (text : String) : Option Written := do
  let ts ← Token.all? text.toList
  ofTokens? ts

/-- The value that a text denotes. -/
def read? [Reals] (text : String) : Option Json := (Written.read? text).bind (Written.value? maxOpen)

end TraceTables.Json
