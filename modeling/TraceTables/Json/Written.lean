import TraceTables.Json.Value

/-! JSON texts by their grammar alone. A scalar of a text may have no value, and then neither has the text. Nor has
one in which too many arrays and objects are open at once. -/

namespace TraceTables.Json

inductive Written where
  | scalar (value? : Option Scalar)
  | array (items : List Written)
  | object (members : List (Option String × Written))

/-- How many arrays and objects may be open at once in a text that has a value. -/
def maxOpen : Nat := 127

namespace Written

/-- The value of a text in which at most `levels` arrays and objects are open at once. -/
def value? : Nat → Written → Option Json
  | _, scalar v => v.map Scalar.value
  | 0, _ => none
  | levels + 1, array items => (items.mapM (value? levels)).map .array
  | levels + 1, object members =>
    (members.mapM fun (m : Option String × Written) => do return (← m.1, ← value? levels m.2)).map .object

/-- The members of an object whose names have values. -/
def members? : Written → Option (List (String × Written))
  | object members => members.mapM fun m => do return (← m.1, m.2)
  | _ => none

def isNull : Written → Bool
  | scalar (some .null) => true
  | _ => false

end Written

end TraceTables.Json
