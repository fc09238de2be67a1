import TraceTables.Text.Alphanumeric
import TraceTables.Text.Blank

/-! Assignments to variables, as they are written in a line `NAME=value`. A value may be quoted. Other variables in it
are references until the assignment is carried out. -/

namespace TraceTables.Settings

/-- A part of a value: a character, or the value of a variable. -/
inductive Piece where
  | char (c : Char)
  | reference (name : String)
deriving DecidableEq

structure Assignment where
  name : String
  value : List Piece
deriving DecidableEq

namespace Assignment

/-- Where a character of a value stands. The flag tells whether that is inside double quotes. -/
inductive Place where
  | plain (quoted : Bool)
  | singleQuoted
  | escaped (quoted : Bool)
  /-- in the name behind a dollar sign; its characters so far, the last one first -/
  | name (quoted : Bool) (cs : List Char)
  /-- in a name between braces -/
  | bracedName (quoted : Bool) (cs : List Char)
  /-- behind the value, where only a comment may follow -/
  | behind

/-- The character that an escape stands for. -/
def unescape? : Char → Option Char
  | 'n' => some '\n'
  | c => if ['\\', '\'', '"', '$', ' '].contains c then some c else none

/-- Reads a value to its end. A name behind a dollar sign has letters and numbers of any script. The character behind
the name of a reference is taken as it is, unless it begins another reference. -/
def readValue : Place → List Char → Option (List Piece)
  | .plain false, [] | .escaped false, [] | .behind, [] => some []
  | .name false cs, [] => some [.reference (String.ofList cs.reverse)]
  | _, [] => none
  | .plain quoted, c :: rest =>
    if c = '$' then readValue (.name quoted []) rest
    else if c = '"' then readValue (.plain !quoted) rest
    else if c = '\\' then readValue (.escaped quoted) rest
    else if !quoted && c = '\'' then readValue .singleQuoted rest
    else if !quoted && (c = ' ' || c = '\t') then readValue .behind rest
    else (readValue (.plain quoted) rest).map (.char c :: ·)
  | .singleQuoted, c :: rest =>
    if c = '\'' then readValue (.plain false) rest else (readValue .singleQuoted rest).map (.char c :: ·)
  | .escaped quoted, c :: rest =>
    match unescape? c with
    | none => none
    | some e => (readValue (.plain quoted) rest).map (.char e :: ·)
  | .name quoted cs, c :: rest =>
    if Text.isAlphanumeric c then readValue (.name quoted (c :: cs)) rest
    else if c = '\x7b' && cs.isEmpty then readValue (.bracedName quoted []) rest
    else if c = '$' then (readValue (.name quoted []) rest).map (.reference (String.ofList cs.reverse) :: ·)
    else (readValue (.plain quoted) rest).map fun ps => .reference (String.ofList cs.reverse) :: .char c :: ps
  | .bracedName quoted cs, c :: rest =>
    if c = '\x7d' then (readValue (.plain quoted) rest).map (.reference (String.ofList cs.reverse) :: ·)
    else readValue (.bracedName quoted (c :: cs)) rest
  | .behind, c :: rest =>
    if c = '#' then some [] else if c = ' ' || c = '\t' then readValue .behind rest else none

def isNameStart (c : Char) : Bool := c.isAlpha || c = '_'

def isNameChar (c : Char) : Bool := c.isAlphanum || c = '_' || c = '.'

/-- A name, and what follows it but for blanks. -/
def readName (cs : List Char) : Option (String × List Char) :=
  match cs with
  | [] => none
  | c :: _ =>
    if isNameStart c then
      some (String.ofList (cs.takeWhile isNameChar), (cs.dropWhile isNameChar).dropWhile Text.isBlank)
    else none

/-- The name that is assigned to. The word `export` may stand before it. -/
def readTarget (cs : List Char) : Option (String × List Char) := do
  let (name, rest) ← readName cs
  if name = "export" && rest.head? ≠ some '=' then readName rest else return (name, rest)

/-- The assignment of a line, or none if the line is empty or a comment. A line of any other form cannot be read. -/
def read? (line : List Char) : Option (Option Assignment) :=
  match Text.trim line with
  | [] => some none
  | '#' :: _ => some none
  | cs =>
    match readTarget cs with
    | some (name, '=' :: rest) =>
      match rest.dropWhile Text.isBlank with
      | '#' :: _ => some (some ⟨name, []⟩)
      | value => (readValue (.plain false) value).map fun ps => some ⟨name, ps⟩
    | _ => none

/-- The variable that a name belongs to: it ends in front of an equals sign. -/
def variableOf (name : String) : String := String.ofList (name.toList.takeWhile (· ≠ '='))

/-- The names of the variables that the assignment looks at. -/
def names (a : Assignment) : List String :=
  a.name :: a.value.filterMap fun
    | .char _ => none
    | .reference name => some (variableOf name)

end Assignment

/-- The text of a value; a variable that is not set has none. -/
def expandValue (look : String → Option String) (value : List Piece) : String :=
  String.join (value.map fun
    | .char c => String.singleton c
    | .reference name => (look name).getD "")

example : Assignment.read? "export A = \"x\\n\"$B'$C' # d".toList =
    some (some ⟨"A", [.char 'x', .char '\n', .reference "B", .char '\'', .reference "C", .char '\'']⟩) := by decide +kernel

example : (Assignment.read? "=x".toList, Assignment.read? "A=b c".toList) = (none, none) := by decide +kernel

end TraceTables.Settings
