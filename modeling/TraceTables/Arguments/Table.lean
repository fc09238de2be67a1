import TraceTables.Arguments.Interned
import TraceTables.Arguments.Key
import TraceTables.Json.Reader

/-! The table of argument rows. Rows are only ever added at the end. Besides them it counts entries per array, for
writers that build arrays piece by piece, and may know interned payloads. -/

namespace TraceTables.Arguments

inductive Value where
  | int (v : Int64)
  | uint (v : UInt64)
  | string (s : String)
  | real (x : Binary64)
  | pointer (v : UInt64)
  | bool (b : Bool)
deriving DecidableEq

def Value.kind : Value → String
  | int _ => "int"
  | uint _ => "uint"
  | string _ => "string"
  | real _ => "real"
  | pointer _ => "pointer"
  | bool _ => "bool"

def Value.content : Value → Json
  | int v => .int v.toInt
  | uint v => .nat v.toNat
  | string s => .string s
  | real x => .number (.real x)
  | pointer v => .nat v.toNat
  | bool b => .bool b

structure Row where
  key : Key
  value : Value
deriving DecidableEq

def Row.toJson (r : Row) : Json :=
  .object [("flat_key", .string r.key.flat), ("key", .string r.key.full),
    ("value", .object [("type", .string r.value.kind), ("value", r.value.content)])]

/-- The value of a number: an integer is signed if it can be. -/
def Value.ofNumber : Json.Number → Value
  | .integer z => if z < 2 ^ 63 then .int (Int64.ofInt z) else .uint (UInt64.ofNat z.toNat)
  | .real x => .real x

mutual

/-- One row for each leaf of a JSON value, in order; `null` and empty containers have none. -/
def jsonRows (k : Key) : Json → List Row
  | .null => []
  | .bool b => [⟨k, .bool b⟩]
  | .number n => [⟨k, Value.ofNumber n⟩]
  | .string s => [⟨k, .string s⟩]
  | .array items => jsonItemRows k 0 items
  | .object members => jsonMemberRows k members

def jsonItemRows (k : Key) (index : Nat) : List Json → List Row
  | [] => []
  | j :: js => jsonRows (k.element index) j ++ jsonItemRows k (index + 1) js

def jsonMemberRows (k : Key) : List (String × Json) → List Row
  | [] => []
  | (name, j) :: ms => jsonRows (k.member name) j ++ jsonMemberRows k ms

end

abbrev ArrayIndices := Assoc String Nat

structure Table where
  rows : List Row
  indices : ArrayIndices
  interned? : Option InternedStore

namespace Table

def empty : Table := ⟨[], Assoc.empty, none⟩

def withInterned (store : InternedStore) : Table := ⟨[], Assoc.empty, some store⟩

def add (t : Table) (k : Key) (v : Value) : Table := { t with rows := t.rows ++ [⟨k, v⟩] }

/-- Adds the leaves of a JSON text; was there one? A text that is no JSON adds nothing. -/
def addJson [Json.Reals] (t : Table) (k : Key) (text : String) : Bool × Table :=
  match Json.read? text with
  | none => (false, t)
  | some j =>
    let rows := jsonRows k j.settle
    (!rows.isEmpty, { t with rows := t.rows ++ rows })

/-- The next free index of an array. -/
def index (t : Table) (array : String) : Nat := (t.indices.get? array).getD 0

/-- Takes an index of an array; the answer is the next one. -/
def increment (t : Table) (array : String) : Nat × Table :=
  (t.index array + 1, { t with indices := t.indices.insert array (t.index array + 1) })

def interned (t : Table) (id : InternedId) : Option (List UInt8) := t.interned?.bind fun s => s.get? id

/-- The value of the first row with that full key. -/
def get? (t : Table) (full : String) : Option Value :=
  (t.rows.find? fun r => r.key.full = full).map Row.value

def keys (t : Table) : List String := t.rows.map fun r => r.key.full

def valuesAt (t : Table) (flat : String) : List Value :=
  (t.rows.filter fun r => r.key.flat = flat).map Row.value

end Table

end TraceTables.Arguments
