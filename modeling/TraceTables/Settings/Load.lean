import TraceTables.Settings.Disk
import TraceTables.Settings.Layer
import TraceTables.Text.Utf8

/-! Where the settings of a run come from: defaults, the profile file in the home directory, an overlay file, and
what the command line gives. A file named on the command line takes the place of the local one. -/

namespace TraceTables.Settings

/-- What a command line gives. A list of descriptor sets counts as given if it is not empty. -/
structure Options where
  config? : Option String
  maxDepth? : Option Nat
  descriptorSets : List String
  pretty? : Option Bool
deriving DecidableEq

/-- The settings of a run. -/
structure Effective where
  maxDepth : Nat
  descriptorSets : List String
  pretty : Bool
deriving DecidableEq

inductive Fault where
  | notFound (path : String)
  | unreadable (path : String)
  | unparsable (path : String)
  | zeroDepth
deriving DecidableEq

def Fault.message : Fault → String
  | notFound path => "Config file not found: " ++ path
  | unreadable path => "Failed to read config file: " ++ path
  | unparsable path => "Failed to parse config file: " ++ path
  | zeroDepth => "Configuration error: args.max_depth must be greater than 0"

def fileName : String := "trace-ingest.json"

def profilePath (home : String) : String := join (join home ".trace-ingest") fileName

def Options.layer (o : Options) : Layer :=
  ⟨o.maxDepth?, if o.descriptorSets.isEmpty then none else some o.descriptorSets, o.pretty?⟩

/-- The settings that layers amount to, the lower ones given first. Paths are expanded at the end, whatever layer
they come from. -/
def settle (s : Surroundings) (o : Options) (profile overlay : Layer) : Except Fault Effective :=
  let l := o.layer.above (overlay.above profile)
  let depth := l.maxDepth?.getD 64
  if depth = 0 then .error .zeroDepth
  else .ok ⟨depth, (l.descriptorSets?.getD []).map (expand s), l.pretty?.getD false⟩

section Files

variable {m : Type → Type} [Monad m] [Json.Reals]

def loadLayer (disk : Disk m) (path : String) : ExceptT Fault m Layer := do
  match (← disk.read? path).bind Text.Utf8.decode? with
  | none => throw (.unreadable path)
  | some text =>
    match Layer.read? text with
    | none => throw (.unparsable path)
    | some l => return l

/-- The layer of a file that need not be there. -/
def loadIfPresent (disk : Disk m) (path : String) : ExceptT Fault m Layer := do
  if ← disk.present path then loadLayer disk path else return .empty

/-- The file named on the command line must be there; without one the local file is taken if it is there. -/
def loadOverlay (disk : Disk m) (s : Surroundings) : Option String → ExceptT Fault m Layer
  | none => loadIfPresent disk fileName
  | some text => do
    if ← disk.present (expand s text) then loadLayer disk (expand s text)
    else throw (.notFound (expand s text))

/-- The profile is read before the overlay. -/
def load (disk : Disk m) (s : Surroundings) (o : Options) : ExceptT Fault m Effective := do
  let profile ← match s.home? with
    | none => pure .empty
    | some home => loadIfPresent disk (profilePath home)
  let overlay ← loadOverlay disk s o.config?
  ExceptT.mk (pure (settle s o profile overlay))

end Files

end TraceTables.Settings
