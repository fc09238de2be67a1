import TraceTables.Arguments.Scalar
import TraceTables.Proofs.Number.Single
import TraceTables.Proofs.Text.Utf8
import TraceTables.Proofs.Wire.Writer

/-! Values of the scalar types as they are before a message is written: how each stands on the wire and what stands in
its row. Of what stands on the wire the reading makes what stands in the row. -/

namespace TraceTables.Arguments

open Schema (FieldType)

/-- A value of each type that is put into rows. -/
inductive Scalar where
  | double (x : Binary64)
  | float (x : Binary32)
  | int64 (v : Int64)
  | uint64 (v : UInt64)
  | int32 (v : Int32)
  | fixed64 (v : UInt64)
  | fixed32 (v : UInt32)
  | bool (b : Bool)
  | string (s : String)
  | uint32 (v : UInt32)
  | enum (v : Int32)
  | sfixed32 (v : Int32)
  | sfixed64 (v : Int64)
  | sint32 (v : Int32)
  | sint64 (v : Int64)

/-- The place of a signed number in zigzag coding. -/
def zigzag (z : Int) : Nat := if 0 ≤ z then 2 * z.toNat else 2 * (-z - 1).toNat + 1

namespace Scalar

def type : Scalar → FieldType
  | double _ => .double
  | float _ => .float
  | int64 _ => .int64
  | uint64 _ => .uint64
  | int32 _ => .int32
  | fixed64 _ => .fixed64
  | fixed32 _ => .fixed32
  | bool _ => .bool
  | string _ => .string
  | uint32 _ => .uint32
  | enum _ => .enum
  | sfixed32 _ => .sfixed32
  | sfixed64 _ => .sfixed64
  | sint32 _ => .sint32
  | sint64 _ => .sint64

/-- On the wire a negative number of 32 bits has its sign in all 64. -/
def wire : Scalar → Wire.Value
  | double x => .fixed64 x.bits
  | float x => .fixed32 x.bits
  | int64 v => .varint v.toUInt64
  | uint64 v => .varint v
  | int32 v | enum v => .varint v.toInt64.toUInt64
  | fixed64 v => .fixed64 v
  | fixed32 v => .fixed32 v
  | bool b => .varint (if b then 1 else 0)
  | string s => .bytes (Text.Utf8.encode s)
  | uint32 v => .varint v.toUInt64
  | sfixed32 v => .fixed32 v.toUInt32
  | sfixed64 v => .fixed64 v.toUInt64
  | sint32 v => .varint (UInt64.ofNat (zigzag v.toInt))
  | sint64 v => .varint (UInt64.ofNat (zigzag v.toInt))

/-- In a row all numbers of one kind have 64 bits. -/
def value : Scalar → Value
  | double x => .real x
  | float x => .real (Binary64.ofSingle x.bits)
  | int64 v | sfixed64 v | sint64 v => .int v
  | int32 v | enum v | sfixed32 v | sint32 v => .int v.toInt64
  | uint64 v | fixed64 v => .uint v
  | uint32 v | fixed32 v => .uint v.toUInt64
  | bool b => .bool b
  | string s => .string s

end Scalar

/-! ## Reading -/

theorem unzigzag_zigzag (z : Int) : unzigzag (zigzag z) = z := by
  unfold unzigzag zigzag
  split <;> split <;> omega

theorem zigzag_lt {z : Int} {n : Nat} (hl : -(n : Int) ≤ z) (hu : z < n) : zigzag z < 2 * n := by
  unfold zigzag
  split <;> omega

theorem low32_ofNat {n : Nat} (h : n < 2 ^ 32) : low32 (UInt64.ofNat n) = n := by
  unfold low32
  rw [UInt64.toNat_ofNat']
  omega

/-- The low half of a number with its sign extended is the number. -/
theorem low32_signed (v : Int32) : low32 v.toInt64.toUInt64 = v.toUInt32.toNat := by
  have hv := v.toBitVec.isLt
  unfold low32
  rw [← Int64.toNat_toBitVec, Int32.toBitVec_toInt64, ← Int32.toNat_toBitVec, BitVec.toNat_signExtend]
  simp only [BitVec.toNat_setWidth]
  split <;> omega

theorem bmod_low32_signed (v : Int32) : Int64.ofInt (Int.bmod (low32 v.toInt64.toUInt64) (2 ^ 32)) = v.toInt64 := by
  have hb : Int.bmod v.toUInt32.toNat (2 ^ 32) = v.toInt := by
    rw [← Int32.toNat_toBitVec, ← BitVec.toInt_eq_toNat_bmod]
    rfl
  rw [low32_signed, hb, Int64.ofInt_int32ToInt]

namespace Scalar

theorem scalar?_wire (s : Scalar) : scalar? s.type s.wire = some s.value := by
  cases s with
  | double | float | int64 | uint64 | fixed64 | fixed32 | sfixed64 => rfl
  | int32 v | enum v => simp only [scalar?, type, wire, value, bmod_low32_signed]
  | bool b => cases b <;> rfl
  | string s => simp only [scalar?, type, wire, value, Text.Utf8.repair_encode]
  | uint32 v =>
    have hv : low32 v.toUInt64 = v.toNat := by
      unfold low32
      rw [UInt32.toNat_toUInt64, Nat.mod_eq_of_lt v.toNat_lt]
    simp [scalar?, type, wire, value, hv]
  | sfixed32 v => simp [scalar?, type, wire, value]
  | sint32 v =>
    have hz : zigzag v.toInt < 2 ^ 32 := zigzag_lt (n := 2 ^ 31) v.le_toInt v.toInt_lt
    simp [scalar?, type, wire, value, low32_ofNat hz, unzigzag_zigzag]
  | sint64 v =>
    have hz : zigzag v.toInt < 2 ^ 64 := zigzag_lt (n := 2 ^ 63) v.le_toInt v.toInt_lt
    have hn : (UInt64.ofNat (zigzag v.toInt)).toNat = zigzag v.toInt := UInt64.toNat_ofNat_of_lt' hz
    simp only [scalar?, type, wire, value, hn, unzigzag_zigzag, Int64.ofInt_toInt]

theorem wireType_wire {s : Scalar} {p : Wire.Packing} (h : s.type.packing? = some p) :
    s.wire.wireType = p.wireType := by
  cases s <;> cases h <;> rfl

theorem wire_ne_group (s : Scalar) (body : List UInt8) : s.wire ≠ .group body := by
  cases s <;> simp [wire]

/-- Bytes on the wire are a text's, whose type has no packing. -/
theorem packing?_of_wire_eq_bytes {s : Scalar} {payload : List UInt8} (h : s.wire = .bytes payload) :
    s.type.packing? = none := by
  cases s <;> first | rfl | cases h

/-- A scalar is neither a message nor of a type that is left out of the rows. -/
theorem type_ne (s : Scalar) : s.type ≠ .message ∧ s.type ≠ .bytes ∧ s.type ≠ .group := by
  cases s <;> simp [type]

end Scalar

end TraceTables.Arguments
