import TraceTables.Arguments.Table
import TraceTables.Schema.Decl
import TraceTables.Text.Utf8

/-! Values of the scalar types. A wire value that is wider than its declared type is cut to the low bits, so that
every varint is a value of every varint type. -/

namespace TraceTables.Arguments

open Schema (FieldType)

/-- The signed number that zigzag coding puts in place `n`: 0, -1, 1, -2, and so on. -/
def unzigzag (n : Nat) : Int := if n % 2 = 0 then (n / 2 : Nat) else -((n / 2 : Nat) : Int) - 1

def low32 (v : UInt64) : Nat := v.toNat % 2 ^ 32

/-- The value of a wire value under a declared type, if the type is a scalar's and has the wire type. -/
def scalar? : FieldType → Wire.Value → Option Value
  | .int32, .varint v | .enum, .varint v => some (.int (Int64.ofInt (Int.bmod (low32 v) (2 ^ 32))))
  | .int64, .varint v => some (.int v.toInt64)
  | .sint32, .varint v => some (.int (Int64.ofInt (unzigzag (low32 v))))
  | .sint64, .varint v => some (.int (Int64.ofInt (unzigzag v.toNat)))
  | .sfixed32, .fixed32 v => some (.int (Int64.ofInt v.toInt32.toInt))
  | .sfixed64, .fixed64 v => some (.int v.toInt64)
  | .uint32, .varint v => some (.uint (UInt64.ofNat (low32 v)))
  | .uint64, .varint v => some (.uint v)
  | .fixed32, .fixed32 v => some (.uint v.toUInt64)
  | .fixed64, .fixed64 v => some (.uint v)
  | .bool, .varint v => some (.bool (v ≠ 0))
  | .double, .fixed64 v => some (.real ⟨v⟩)
  | .float, .fixed32 v => some (.real (Binary64.ofSingle v))
  | .string, .bytes payload => some (.string (Text.Utf8.repair payload))
  | _, _ => none

end TraceTables.Arguments
