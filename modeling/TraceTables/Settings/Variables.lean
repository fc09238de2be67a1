import TraceTables.Settings.Assignment
import TraceTables.Settings.Disk
import TraceTables.Text.Utf8

/-! Variables from a file. A file `.env` in the working directory, or else in the nearest directory above it, holds
assignments. They are carried out up to the first line that cannot be read. Variables that are set already keep
their values. -/

namespace TraceTables.Settings

/-- What a character of a line is taken for: whether it is quoted, and whether the one before it was a blank or a
backslash. -/
inductive LinePlace where
  | plain
  | blank
  | escaped
  | single
  | singleEscaped
  | double
  | doubleEscaped
deriving DecidableEq

def LinePlace.next (p : LinePlace) (c : Char) : LinePlace :=
  match p with
  | plain =>
    if Text.isBlank c && c ≠ '\n' && c ≠ '\r' then blank
    else if c = '\\' then escaped else if c = '"' then double else if c = '\'' then single else plain
  | blank => if c = '\\' then escaped else if c = '"' then double else if c = '\'' then single else plain
  | escaped => plain
  | single => if c = '\\' then singleEscaped else if c = '\'' then plain else single
  | singleEscaped => single
  | double => if c = '\\' then doubleEscaped else if c = '"' then plain else double
  | doubleEscaped => double

/-- The place behind a line, or the number of characters in front of the comment in it. -/
def endOfLine (count : Nat) : LinePlace → List Char → LinePlace ⊕ Nat
  | p, [] => .inl p
  | p, c :: cs => if p = .blank && c = '#' then .inr count else endOfLine (count + 1) (p.next c) cs

/-- Lines with the line feeds at their ends. -/
def linesOf : List UInt8 → List (List UInt8)
  | [] => []
  | b :: bs =>
    if b = 0x0A then [b] :: linesOf bs
    else
      match linesOf bs with
      | [] => [[b]]
      | l :: ls => (b :: l) :: ls

def dropLineEnd (cs : List Char) : List Char :=
  match cs.reverse with
  | '\n' :: '\r' :: r => r.reverse
  | '\n' :: r => r.reverse
  | _ => cs

/-- Joins lines whose quotes are open, and drops comments. Lines that are no UTF-8, and quotes that are not closed, end
the reading. -/
def joinLines (before : List Char) (p : LinePlace) : List (List UInt8) → List (List Char)
  | [] => []
  | line :: lines =>
    match (Text.Utf8.chars line).mapM id with
    | none => []
    | some cs =>
      let joined := before ++ cs
      if (joined.dropWhile Text.isBlank).head? = some '#' then joinLines [] .plain lines
      else
        match endOfLine 0 p cs with
        | .inr count => (before ++ cs.take count) :: joinLines [] .plain lines
        | .inl .plain => dropLineEnd joined :: joinLines [] .plain lines
        | .inl p => joinLines joined p lines

/-- The assignments up to the first line that cannot be read. -/
def readAssignments : List (List Char) → List Assignment
  | [] => []
  | line :: lines =>
    match Assignment.read? line with
    | none => []
    | some none => readAssignments lines
    | some (some a) => a :: readAssignments lines

def dropByteOrderMark (content : List UInt8) : List UInt8 :=
  if [0xEF, 0xBB, 0xBF].isPrefixOf content then content.drop 3 else content

def assignmentsOf (content : List UInt8) : List Assignment :=
  readAssignments (joinLines [] .plain (linesOf (dropByteOrderMark content)))

/-- Variables that are set, with their values. -/
abbrev Environment := List (String × String)

/-- The value that a name stands for. A variable is a text `NAME=value`, and a name is looked for as the beginning of
such a text that has an equals sign behind it. So a name with an equals sign reaches into the value. -/
def lookUp (e : Environment) (name : String) : Option String :=
  let variableName := Assignment.variableOf name
  (valueAt variableName e).bind fun value =>
    match name.toList.drop variableName.length with
    | [] => some value
    | _ :: cs => ((cs ++ ['=']).isPrefixOf? value.toList).map String.ofList

/-- Sets a variable that is not set. A value with a NUL in it cannot be set. -/
def assign? (e : Environment) (a : Assignment) : Option Environment :=
  match valueAt a.name e with
  | some _ => some e
  | none =>
    let value := expandValue (lookUp e) a.value
    if value.toList.contains '\x00' then none else some (e ++ [(a.name, value)])

/-- The home directory is the value of `HOME`, unless that is empty. -/
def Surroundings.within (s : Surroundings) (e : Environment) : Surroundings :=
  match valueAt "HOME" e with
  | some home => if home.isEmpty then s else { s with home? := some home }
  | none => s

example : let e := [("A", "b=c=d")]
    ["A", "A=b", "A=b=c", "A=c", "A="].map (lookUp e) = [some "b=c=d", some "c=d", some "d", none, none] := by
  decide +kernel

section Files

variable {m : Type → Type} [Monad m]

/-- The content of the first of some files that can be read. -/
def firstContent (disk : Disk m) : List String → m (Option (List UInt8))
  | [] => pure none
  | path :: paths => do
    match ← disk.read? path with
    | some content => return some content
    | none => firstContent disk paths

/-- Those of some variables that are set. -/
def collect (getVariable : String → m (Option String)) : List String → m Environment
  | [] => pure []
  | name :: names => do
    let rest ← collect getVariable names
    match ← getVariable name with
    | none => return rest
    | some value => return (name, value) :: rest

/-- The environment of a run: the variables with the given names, and those that the file sets. There is none if the
file holds a value that cannot be set. -/
def environmentOf (disk : Disk m) (getVariable : String → m (Option String)) (s : Surroundings) (names : List String) :
    m (Option Environment) := do
  let places := (s.directory?.map ancestors).getD []
  let content ← firstContent disk (places.map fun d => join d ".env")
  let assignments := (content.map assignmentsOf).getD []
  let e ← collect getVariable (names ++ assignments.flatMap Assignment.names)
  return assignments.foldlM assign? e

end Files

end TraceTables.Settings
