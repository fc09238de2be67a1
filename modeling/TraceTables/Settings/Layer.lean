import TraceTables.Json.Reader
import TraceTables.Json.Record

/-! Layers of settings. Each source of settings sets some of them; the value of a setting is that of the highest
layer that sets it, for each setting on its own. -/

namespace TraceTables.Settings

structure Layer where
  maxDepth? : Option Nat
  descriptorSets? : Option (List String)
  pretty? : Option Bool
deriving DecidableEq

namespace Layer

def empty : Layer := ⟨none, none, none⟩

/-- What the upper layer leaves open is taken from the lower one. -/
def above (upper lower : Layer) : Layer :=
  ⟨upper.maxDepth?.or lower.maxDepth?, upper.descriptorSets?.or lower.descriptorSets?,
    upper.pretty?.or lower.pretty?⟩

theorem empty_above (l : Layer) : empty.above l = l := rfl

theorem above_empty (l : Layer) : l.above empty = l := by
  cases l; simp [above, empty]

theorem above_assoc (a b c : Layer) : (a.above b).above c = a.above (b.above c) := by
  simp [above, Option.or_assoc]

def strings? : Json → Option (List String)
  | .array items => items.mapM Json.string?
  | _ => none

/-- The values of a section's fields. A section is an object or an array of all its fields. In an object the
members that are no fields do not need to have values. -/
def sectionFields? (names : List String) (w : Json.Written) : Option (List (Option Json)) := do
  let fields ← match w with
    | .array items => if items.length = names.length then Json.byPlace names items else none
    | _ => Json.byName names (← w.members?)
  fields.mapM fun
    | none => some none
    | some field => (field.value? Json.maxOpen).map some

def argumentsSection? (w : Json.Written) : Option Layer :=
  match sectionFields? ["max_depth", "descriptor_sets"] w with
  | some [depth, sets] => do
    return ⟨← Json.optional (Json.natBelow? (2 ^ 64)) depth, ← Json.optional strings? sets, none⟩
  | _ => none

def outputSection? (w : Json.Written) : Option Layer :=
  match sectionFields? ["pretty"] w with
  | some [pretty] => do return ⟨none, none, ← Json.optional Json.bool? pretty⟩
  | _ => none

/-- A section that is missing or `null` sets nothing. -/
def optionalSection? (read : Json.Written → Option Layer) : Option Json.Written → Option Layer
  | none => some empty
  | some w => if w.isNull then some empty else read w

/-- The sections of a settings file. -/
def sectionNames : List String := ["args", "output"]

/-- The layer of a settings file: an object of sections. Its other members must have values. -/
def ofWritten? (w : Json.Written) : Option Layer := do
  let members ← w.members?
  if members.all fun m => sectionNames.contains m.1 || (m.2.value? (Json.maxOpen - 1)).isSome then
    match ← Json.byName sectionNames members with
    | [args, output] =>
      return (← optionalSection? argumentsSection? args).above (← optionalSection? outputSection? output)
    | _ => none
  else none

def read? [Json.Reals] (text : String) : Option Layer := (Json.Written.read? text).bind ofWritten?

end Layer

end TraceTables.Settings
