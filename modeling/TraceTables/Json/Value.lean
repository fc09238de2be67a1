import TraceTables.Assoc
import TraceTables.Number.Binary64

/-! JSON values. An object keeps its members as they are written, repeated names included; `settle` is the
reading in which a repeated name keeps its first place and its last value. -/

namespace TraceTables

/-- A number is an integer if it is written without fraction and exponent and fits into 64 bits, signed or
not; any other is a double, as is a zero with a sign. -/
inductive Json.Number where
  | integer (z : Int)
  | real (x : Binary64)
deriving DecidableEq

/-- What is no array and no object. -/
inductive Json.Scalar where
  | null
  | bool (b : Bool)
  | number (n : Json.Number)
  | string (s : String)
deriving DecidableEq

inductive Json where
  | null
  | bool (b : Bool)
  | number (n : Json.Number)
  | string (s : String)
  | array (items : List Json)
  | object (members : List (String × Json))

namespace Json

def Scalar.value : Scalar → Json
  | null => .null
  | bool b => .bool b
  | number n => .number n
  | string s => .string s

def int (z : Int) : Json := .number (.integer z)

def nat (n : Nat) : Json := .number (.integer n)

/-- `null` stands for nothing. -/
def orNull (f : α → Json) : Option α → Json
  | none => .null
  | some a => f a

/-- Has one name two values? -/
def repeats {α : Type} (name : String) (members : List (String × α)) : Bool :=
  1 < (members.filter fun m => m.1 = name).length

mutual

/-- Leaves one member of each name, at every level. -/
def settle : Json → Json
  | .array items => .array (settleAll items)
  | .object members => .object (settleMembers members [])
  | .null => .null
  | .bool b => .bool b
  | .number n => .number n
  | .string s => .string s

def settleAll : List Json → List Json
  | [] => []
  | j :: js => settle j :: settleAll js

def settleMembers : List (String × Json) → List (String × Json) → List (String × Json)
  | [], done => done
  | (name, j) :: rest, done => settleMembers rest (upsert name (settle j) done)

end

end Json

end TraceTables
