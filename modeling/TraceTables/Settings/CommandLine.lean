import TraceTables.Power
import TraceTables.Settings.Load

/-! The command line. The options that concern settings may stand before or after the command, and the later level
counts; an environment variable stands in for one that is on neither. The value of an option or argument is
looked at when the next one comes or the line ends, so a fault in a name is found before one in a value. -/

namespace TraceTables.Settings.CommandLine

/-- Why a command line does not lead to a command. -/
inductive Stop where
  | helpAsked
  | versionAsked
  | missingArgument
  | unknownArgument
  | unknownCommand
  /-- not a number that fits -/
  | badNumber
  /-- no value, an empty one, or a wrong word -/
  | badValue
  | givenTwice
  /-- a value behind an option that takes none -/
  | surplusValue
deriving DecidableEq

inductive Command where
  | replay (events : String)
  | args (typeName input : String) (hex : Bool) (fields? : Option (List Nat))
deriving DecidableEq

structure Parsed where
  options : Options
  command? : Option Command
deriving DecidableEq

/-- Options, and the arguments that are known by their place. -/
inductive Parameter where
  | config
  | maxDepth
  | descriptorSet
  | pretty
  | type
  | fields
  | hex
  | help
  | version
  | input
  | events
deriving DecidableEq

def Parameter.takesValue : Parameter → Bool
  | hex | help | version => false
  | _ => true

/-- What is understood on one level of the line, before or after the command. -/
structure Level where
  commands : List String
  long : List (String × Parameter)
  short : List (Char × Parameter)
  places : List Parameter
  needed : List Parameter

def globalLong : List (String × Parameter) :=
  [("config", .config), ("max-depth", .maxDepth), ("descriptor-set", .descriptorSet), ("pretty", .pretty),
   ("help", .help)]

def globalShort : List (Char × Parameter) := [('c', .config), ('d', .descriptorSet), ('h', .help)]

def front : Level :=
  ⟨["replay", "args", "help"], ("version", .version) :: globalLong, ('V', .version) :: globalShort, [], []⟩

def replayLevel : Level := ⟨[], globalLong, globalShort, [.events], [.events]⟩

def argsLevel : Level :=
  ⟨[], [("type", .type), ("hex", .hex), ("fields", .fields)] ++ globalLong, ('t', .type) :: globalShort,
    [.input], [.type, .input]⟩

/-- The values given on one level. -/
structure Given where
  config? : Option String
  maxDepth? : Option Nat
  descriptorSets? : Option (List String)
  pretty? : Option Bool
  type? : Option String
  fields? : Option (List Nat)
  hex : Bool
  path? : Option String

namespace Given

def none : Given := ⟨.none, .none, .none, .none, .none, .none, false, .none⟩

/-- Has the parameter a value? -/
def has (g : Given) : Parameter → Bool
  | .config => g.config?.isSome
  | .maxDepth => g.maxDepth?.isSome
  | .descriptorSet => g.descriptorSets?.isSome
  | .pretty => g.pretty?.isSome
  | .type => g.type?.isSome
  | .fields => g.fields?.isSome
  | .hex => g.hex
  | .input | .events => g.path?.isSome
  | .help | .version => false

end Given

/-- May the parameter come more than once? -/
def Parameter.repeatable : Parameter → Bool
  | descriptorSet | fields => true
  | _ => false

def digits? (cs : List Char) : Option Nat :=
  if !cs.isEmpty && cs.all Char.isDigit then
    some (cs.foldl (fun n c => 10 * n + (c.toNat - '0'.toNat)) 0)
  else none

/-- A number with an optional plus sign. -/
def natural? : List Char → Option Nat
  | '+' :: cs => digits? cs
  | cs => digits? cs

/-- A depth fits into 64 bits. -/
def depth? (text : String) : Option Nat := (natural? text.toList).filter (· < 2 ^ 64)

/-- A field number fits into 32 bits. Zero may have a minus sign. -/
def fieldNumber? (text : String) : Option Nat :=
  match text.toList with
  | '-' :: cs => (digits? cs).filter (· = 0)
  | cs => (natural? cs).filter (· < 2 ^ 32)

def truth? : String → Option Bool
  | "true" => some true
  | "false" => some false
  | _ => none

def nonempty? (text : String) : Option String := if text.isEmpty then none else some text

def parts (text : String) : List String := (text.toList.splitOn ',').map String.ofList

def orStop {α : Type} (stop : Stop) : Option α → Except Stop α
  | none => .error stop
  | some a => .ok a

/-- Keeps the value of a parameter. Of the parameters that may come again the values are added up. -/
def store (p : Parameter) (text : String) (g : Given) : Except Stop Given :=
  if g.has p && !p.repeatable then .error .givenTwice
  else
    match p with
    | .config => (orStop .badValue (nonempty? text)).map fun v => { g with config? := some v }
    | .maxDepth => (orStop .badNumber (depth? text)).map fun v => { g with maxDepth? := some v }
    | .descriptorSet => (orStop .badValue ((parts text).mapM nonempty?)).map fun vs =>
        { g with descriptorSets? := some (g.descriptorSets?.getD [] ++ vs) }
    | .pretty => (orStop .badValue (truth? text)).map fun v => { g with pretty? := some v }
    | .type => .ok { g with type? := some text }
    | .fields => (orStop .badNumber ((parts text).mapM fieldNumber?)).map fun vs =>
        { g with fields? := some (g.fields?.getD [] ++ vs) }
    | .input | .events => (orStop .badValue (nonempty? text)).map fun v => { g with path? := some v }
    | .hex => .ok { g with hex := true }
    | .help => .error .helpAsked
    | .version => .error .versionAsked

/-- How far a level has been read. `pending` is the parameter that came last, with its value if that has come,
too; `filled` counts the arguments. -/
structure Scan where
  given : Given
  pending : Option (Parameter × Option String)
  filled : Nat

namespace Scan

def start : Scan := ⟨.none, none, 0⟩

/-- Is the next word the value of an option? -/
def expecting? (s : Scan) : Option Parameter :=
  match s.pending with
  | some (p, none) => some p
  | _ => none

/-- Keeps the value that is pending. -/
def settle (s : Scan) : Except Stop Scan :=
  match s.pending with
  | none => .ok s
  | some (_, none) => .error .badValue
  | some (p, some text) => (store p text s.given).map fun g => { s with given := g, pending := none }

/-- An option whose value is joined to it, or that takes none. -/
def give (s : Scan) (p : Parameter) (text : String) : Except Stop Scan := do
  let s ← s.settle
  return { s with given := ← store p text s.given }

/-- An option whose value is the next word. -/
def await (s : Scan) (p : Parameter) : Except Stop Scan := do
  let s ← s.settle
  return { s with pending := some (p, none) }

end Scan

/-- A word that starts with two dashes; its value may follow an equals sign. -/
def readLong (l : Level) (s : Scan) (cs : List Char) : Except Stop Scan :=
  let name := String.ofList (cs.takeWhile (· ≠ '='))
  match valueAt name l.long, cs.dropWhile (· ≠ '=') with
  | none, _ => .error .unknownArgument
  | some p, [] => if p.takesValue then s.await p else s.give p ""
  | some p, _ :: text => if p.takesValue then s.give p (String.ofList text) else .error .surplusValue

/-- The letters behind one dash. The first option with a value takes the rest as its value, less an equals sign at
its start. -/
def readShort (l : Level) (s : Scan) : List Char → Except Stop Scan
  | [] => .ok s
  | c :: cs =>
    match valueAt c l.short with
    | none => .error .unknownArgument
    | some p =>
      if p.takesValue then
        match cs with
        | [] => s.await p
        | '=' :: text => s.give p (String.ofList text)
        | text => s.give p (String.ofList text)
      else
        match s.give p "" with
        | .error e => .error e
        | .ok s => readShort l s cs

/-- A word that is no option: the next argument. Where none is left, words are taken for commands if the level
has any. -/
def readPlace (l : Level) (trailing : Bool) (s : Scan) (word : String) : Except Stop Scan :=
  match l.places[s.filled]? with
  | some p => s.settle.map fun s => { s with pending := some (p, some word), filled := s.filled + 1 }
  | none =>
    if l.commands.isEmpty || (trailing && l.commands.contains word) then .error .unknownArgument
    else .error .unknownCommand

/-- Reads a level up to its command, if it has one, and gives the command with the words behind it. Behind two
dashes no word is an option, an option's value or a command. -/
def readLevel (l : Level) (trailing : Bool) (s : Scan) :
    List String → Except Stop (Scan × Option (String × List String))
  | [] => .ok (s, none)
  | word :: words =>
    if trailing then
      match readPlace l true s word with
      | .error e => .error e
      | .ok s => readLevel l true s words
    else if s.expecting?.isNone && l.commands.contains word then .ok (s, some (word, words))
    else
      match word.toList with
      | ['-', '-'] => readLevel l true s words
      | '-' :: '-' :: cs =>
        match readLong l s cs with
        | .error e => .error e
        | .ok s => readLevel l false s words
      | '-' :: c :: cs =>
        match readShort l s (c :: cs) with
        | .error e => .error e
        | .ok s => readLevel l false s words
      | _ =>
        match s.expecting? with
        | some p => readLevel l false { s with pending := some (p, some word) } words
        | none =>
          match readPlace l false s word with
          | .error e => .error e
          | .ok s => readLevel l false s words

/-- The variables that stand in for options, in the order in which they are looked at. -/
def standIns : List (String × Parameter) :=
  [("TRACE_INGEST_CONFIG", .config), ("TRACE_INGEST_ARGS_MAX_DEPTH", .maxDepth),
   ("TRACE_INGEST_DESCRIPTOR_SETS", .descriptorSet), ("TRACE_INGEST_PRETTY", .pretty)]

/-- Takes the values of options that are not given from the environment. -/
def fillIn (environment : List (String × String)) (g : Given) : Except Stop Given :=
  standIns.foldlM (fun g v =>
    match g.has v.2, valueAt v.1 environment with
    | false, some text => store v.2 text g
    | _, _ => .ok g) g

/-- Checks a level at its end: the pending value, the environment for what is not given on this level, and what is
needed. The environment's values are not kept yet. -/
def finish (l : Level) (environment : List (String × String)) (s : Scan) : Except Stop Given := do
  let s ← s.settle
  let _ ← fillIn environment s.given
  if l.needed.all s.given.has then return s.given else .error .missingArgument

/-- The options of two levels, of which the later counts. -/
def Given.above (later earlier : Given) : Given :=
  { later with
    config? := later.config?.or earlier.config?
    maxDepth? := later.maxDepth?.or earlier.maxDepth?
    descriptorSets? := later.descriptorSets?.or earlier.descriptorSets?
    pretty? := later.pretty?.or earlier.pretty? }

def Given.options (g : Given) : Options := ⟨g.config?, g.maxDepth?, g.descriptorSets?.getD [], g.pretty?⟩

/-- What is asked for help about must be a command; commands have none of their own. -/
def helpStop : List String → Stop
  | [] => .helpAsked
  | [word] => if front.commands.contains word then .helpAsked else .unknownCommand
  | _ => .unknownCommand

def replayOf (g : Given) : Command := .replay (g.path?.getD "")

def argsOf (g : Given) : Command := .args (g.type?.getD "") (g.path?.getD "") g.hex g.fields?

/-- A command with its level and what it makes of the values there. -/
def levelOf (name : String) : Level × (Given → Command) :=
  if name = "replay" then (replayLevel, replayOf) else (argsLevel, argsOf)

/-- Reads a command line, without the program's name. The level of the command is finished before the one in front
of it. -/
def parse (environment : List (String × String)) (words : List String) : Except Stop Parsed := do
  let (outer, command) ← readLevel front false .start words
  match command with
  | none =>
    let g ← finish front environment outer
    return ⟨(← fillIn environment g).options, none⟩
  | some (name, words) =>
    if name = "help" then .error (helpStop words)
    else
      let (level, command) := levelOf name
      let (inner, _) ← readLevel level false .start words
      let inner ← finish level environment inner
      let outer ← finish front environment outer
      return ⟨(← fillIn environment (inner.above outer)).options, some (command inner)⟩

end TraceTables.Settings.CommandLine
