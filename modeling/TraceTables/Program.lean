import TraceTables.Arguments.Flattener
import TraceTables.Json.Double
import TraceTables.Json.Writer
import TraceTables.Schema.Load
import TraceTables.Settings.CommandLine
import TraceTables.Settings.Input
import TraceTables.Settings.Variables
import TraceTables.Timeline.Replay

/-! The program. `replay` prints the summary of a list of events, `args` the rows of one encoded message. Fields
that fail do not fail the command, but a message type that is not known does. -/

namespace TraceTables.Program

open Settings

inductive Fault where
  | settings (e : Settings.Fault)
  | input (e : InputFault)
  | unreadableEvents (path : String)
  | unparsableEvents (path : String)
  | noDescriptorSets
  | unreadableSet (path : String)
  | invalidSet (path : String)
  | flattening (e : Arguments.Fault)

def Fault.message : Fault → String
  | settings e => e.message
  | input e => e.message
  | unreadableEvents path => "Failed to read events file: " ++ path
  | unparsableEvents path => "Failed to parse events file: " ++ path
  | noDescriptorSets => "No descriptor sets configured (use --descriptor-set or args.descriptor_sets)"
  | unreadableSet path => "Failed to read descriptor set: " ++ path
  | invalidSet path => "Invalid descriptor set: " ++ path
  | flattening e => e.message

/-- What a run writes. -/
inductive Output where
  | nothing
  | help
  | text (s : String)
deriving DecidableEq

/-- How a run ends: its code, its output, and the line that says what went wrong. -/
structure Exit where
  code : Nat
  output : Output
  error? : Option String
deriving DecidableEq

def versionText : String := "trace-ingest 0.1.0\n"

def style (pretty : Bool) : Json.Style := if pretty then Json.pretty else Json.compact

/-- The result of `args`: the type as it was given, all rows, and the text of the status. A single fault about an
unknown type is not told apart from an unknown type of the whole message, wherever it comes from. -/
def argumentsJson (f : Arguments.Flattener) (bytes : List UInt8) (typeName : String)
    (fields? : Option (List Nat)) : Except Arguments.Fault Json :=
  let r := f.flatten bytes typeName fields? .empty
  let result (error : Json) : Json :=
    .object [("type", .string typeName), ("args", .array (r.2.rows.map Arguments.Row.toJson)), ("error", error)]
  match r.1 with
  | .error (.unknownMessage name) => .error (.unknownMessage name)
  | .error e => .ok (result (.string e.message))
  | .ok () => .ok (result .null)

section Run

variable {m : Type → Type} [Monad m]

def replay (disk : Disk m) (path : String) : ExceptT Fault m Json := do
  match (← disk.read? path).bind Text.Utf8.decode? with
  | none => throw (.unreadableEvents path)
  | some text =>
    match Timeline.Event.readAll? text with
    | none => throw (.unparsableEvents path)
    | some events => return (Timeline.summarize events).toJson

/-- Loads sets one after the other into a schema. -/
def loadSets (disk : Disk m) (s : Schema) : List String → ExceptT Fault m Schema
  | [] => return s
  | path :: paths => do
    match ← disk.read? path with
    | none => throw (.unreadableSet path)
    | some bytes =>
      match s.loadBytes bytes with
      | (_, some _) => throw (.invalidSet path)
      | (s, none) => loadSets disk s paths

/-- The schema is loaded before the message is read. -/
def args (disk : Disk m) (settings : Effective) (typeName input : String) (hex : Bool)
    (fields? : Option (List Nat)) : ExceptT Fault m Json := do
  if settings.descriptorSets.isEmpty then throw .noDescriptorSets
  let schema ← loadSets disk .empty settings.descriptorSets
  let bytes ← (readInput disk input hex).adapt .input
  let f := { Arguments.Flattener.new schema with maxDepth := settings.maxDepth }
  ExceptT.mk (pure ((argumentsJson f bytes typeName fields?).mapError .flattening))

def perform (disk : Disk m) (s : Surroundings) (options : Options) (command : CommandLine.Command) :
    ExceptT Fault m String := do
  let settings ← (load disk s options).adapt .settings
  let result ← match command with
    | .replay path => replay disk path
    | .args typeName input hex fields? => args disk settings typeName input hex fields?
  return result.text (style settings.pretty) ++ "\n"

/-- A whole run. Without a command it writes its help, whatever the options are. -/
def run (disk : Disk m) (getVariable : String → m (Option String)) (s : Surroundings) (words : List String) : m Exit := do
  match ← environmentOf disk getVariable s ("HOME" :: CommandLine.standIns.map Prod.fst) with
  | none => return ⟨101, .nothing, none⟩
  | some environment =>
    match CommandLine.parse environment words with
    | .error .helpAsked => return ⟨0, .help, none⟩
    | .error .versionAsked => return ⟨0, .text versionText, none⟩
    | .error _ => return ⟨2, .nothing, none⟩
    | .ok ⟨_, none⟩ => return ⟨0, .help, none⟩
    | .ok ⟨options, some command⟩ =>
      match ← (perform disk (s.within environment) options command).run with
      | .error e => return ⟨1, .nothing, some e.message⟩
      | .ok text => return ⟨0, .text text, none⟩

end Run

end TraceTables.Program
