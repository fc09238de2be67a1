/-! Fields of the protobuf wire format, as they stand in a message when no schema is known, and the faults
that make bytes unreadable. -/

namespace TraceTables.Wire

/-- The low three bits of a key. -/
inductive WireType where
  | varint
  | fixed64
  | lengthDelimited
  | startGroup
  | endGroup
  | fixed32
deriving DecidableEq

def WireType.code : WireType → Nat
  | varint => 0
  | fixed64 => 1
  | lengthDelimited => 2
  | startGroup => 3
  | endGroup => 4
  | fixed32 => 5

def WireType.ofCode? : Nat → Option WireType
  | 0 => some varint
  | 1 => some fixed64
  | 2 => some lengthDelimited
  | 3 => some startGroup
  | 4 => some endGroup
  | 5 => some fixed32
  | _ => none

theorem WireType.ofCode?_code (w : WireType) : ofCode? w.code = some w := by cases w <;> rfl

/-- What follows a key. A group's body leaves out the end tag. -/
inductive Value where
  | varint (v : UInt64)
  | fixed64 (v : UInt64)
  | fixed32 (v : UInt32)
  | bytes (payload : List UInt8)
  | group (body : List UInt8)
deriving DecidableEq

def Value.wireType : Value → WireType
  | varint _ => .varint
  | fixed64 _ => .fixed64
  | fixed32 _ => .fixed32
  | bytes _ => .lengthDelimited
  | group _ => .startGroup

/-- The name under which values of the wire type are reported. -/
def WireType.name : WireType → String
  | varint => "varint"
  | fixed64 => "fixed64"
  | fixed32 => "fixed32"
  | lengthDelimited => "length-delimited"
  | startGroup => "group"
  | endGroup => "end of group"

structure Field where
  number : Nat
  value : Value
deriving DecidableEq

def Field.varint? (f : Field) : Option UInt64 :=
  match f.value with
  | .varint v => some v
  | _ => none

def Field.bytes? (f : Field) : Option (List UInt8) :=
  match f.value with
  | .bytes payload => some payload
  | _ => none

/-- Why bytes cannot be read on. -/
inductive Fault where
  /-- the end comes first, or ten bytes do not end it, or it does not fit into 64 bits -/
  | badVarint
  | badKey (key : Nat)
  | badWireType (code : Nat)
  | zeroNumber
  | truncated (needed remaining : Nat)
  | unterminatedGroup (number : Nat)
  | mismatchedGroupEnd (expected found : Nat)
deriving DecidableEq

/-- The text of a fault inside a varint or a key. -/
def Fault.detail (text : String) : String :=
  "decode error: failed to decode Protobuf message: " ++ text

def Fault.message : Fault → String
  | badVarint => detail "invalid varint"
  | badKey key => detail ("invalid key value: " ++ toString key)
  | badWireType code => detail ("invalid wire type value: " ++ toString code)
  | zeroNumber => detail "invalid tag value: 0"
  | truncated needed remaining =>
    "truncated payload: needed " ++ toString needed ++ " bytes, " ++ toString remaining ++ " remaining"
  | unterminatedGroup number => "unterminated group for field " ++ toString number
  | mismatchedGroupEnd expected found =>
    "mismatched group end: expected field " ++ toString expected ++ ", found " ++ toString found

end TraceTables.Wire
