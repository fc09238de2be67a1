import TraceTables.Json.Value

/-! Records in JSON. The fields of a record stand under their names in an object, or one behind the other in an
array. Either way a record is brought into a list of its fields, `none` where a field is missing. -/

namespace TraceTables.Json

/-- The fields by name. Other members do not matter; a field that is there twice is one too many. -/
def byName {α : Type} (names : List String) (members : List (String × α)) : Option (List (Option α)) :=
  if names.any fun name => repeats name members then none
  else some (names.map fun name => valueAt name members)

/-- The fields by place. Those at the end may be missing. -/
def byPlace {α : Type} (names : List String) (items : List α) : Option (List (Option α)) :=
  if items.length ≤ names.length then
    some (items.map some ++ List.replicate (names.length - items.length) none)
  else none

/-- A field that must be there. -/
def required {α : Type} (read : Json → Option α) : Option Json → Option α
  | none => none
  | some j => read j

/-- A field that has a value also when it is missing. -/
def defaulting {α : Type} (value : α) (read : Json → Option α) : Option Json → Option α
  | none => some value
  | some j => read j

/-- A field that may be missing or `null`. -/
def optional {α : Type} (read : Json → Option α) : Option Json → Option (Option α)
  | none => some none
  | some .null => some none
  | some j => (read j).map some

/-- An integer between two bounds, ends included. -/
def intWithin? (low high : Int) : Json → Option Int
  | .number (.integer z) => if low ≤ z ∧ z ≤ high then some z else none
  | _ => none

/-- An integer below a bound. -/
def natBelow? (bound : Nat) (j : Json) : Option Nat := (j.intWithin? 0 (bound - 1 : Int)).map Int.toNat

def string? : Json → Option String
  | .string s => some s
  | _ => none

def bool? : Json → Option Bool
  | .bool b => some b
  | _ => none

end TraceTables.Json
