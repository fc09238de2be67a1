import TraceTables.Wire.Token

/-! Packed payloads: scalar values without keys, one behind the other. -/

namespace TraceTables.Wire

/-- How each value of a packed payload is written. -/
inductive Packing where
  | varint
  | fixed32
  | fixed64
deriving DecidableEq

namespace Packing

def readValue (p : Packing) (bytes : List UInt8) : Except Fault (Value × List UInt8) :=
  match p with
  | .varint => (Varint.read bytes).map fun r => (.varint r.1, r.2)
  | .fixed32 => (readFixed 4 bytes).map fun r => (.fixed32 (UInt32.ofNat r.1), r.2)
  | .fixed64 => (readFixed 8 bytes).map fun r => (.fixed64 (UInt64.ofNat r.1), r.2)

theorem length_readValue {p : Packing} {bytes rest : List UInt8} {v : Value}
    (h : p.readValue bytes = .ok (v, rest)) : rest.length < bytes.length := by
  cases p with
  | varint =>
    obtain ⟨r, hr, he⟩ := map_eq_ok.1 h
    cases he
    exact Varint.length_read hr
  | fixed32 | fixed64 =>
    obtain ⟨r, hr, he⟩ := map_eq_ok.1 h
    cases he
    have := length_readFixed hr
    omega

def reader (p : Packing) : Reader Value := ⟨p.readValue, length_readValue⟩

/-- The values of a payload up to the first fault. -/
def values (p : Packing) (payload : List UInt8) : Reading Value := p.reader.all payload

end Packing

end TraceTables.Wire
