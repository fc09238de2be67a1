import TraceTables.Schema.Form
import TraceTables.Schema.Registry

/-! Descriptor sets: files with their packages, message types and extensions, and how they are read from bytes of the
right form. What the schema does not need is dropped. -/

namespace TraceTables.Schema

/-- A field or an extension as a file states it, its type name not looked up yet. -/
structure FieldEntry where
  name : String
  extendee : String
  number : Int
  repeated : Bool
  type : FieldType
  typeName : String
deriving DecidableEq

inductive MessageEntry where
  | mk (name : String) (fields : List FieldEntry) (nested : List MessageEntry) (extensions : List FieldEntry)

structure FileEntry where
  package : String
  messages : List MessageEntry
  extensions : List FieldEntry

/-- The payloads of a number, in order. -/
def payloads (number : Nat) (fs : List Wire.Field) : List (List UInt8) :=
  fs.filterMap fun f => if f.number = number then f.bytes? else none

/-- The last text of a number, or the empty one. -/
def text (number : Nat) (fs : List Wire.Field) : String :=
  (((payloads number fs).getLast?).bind Text.Utf8.decode?).getD ""

/-- The last value of a number by its low 32 bits, signed, or zero. -/
def int32 (number : Nat) (fs : List Wire.Field) : Int :=
  match (fs.filterMap fun f => if f.number = number then f.varint? else none).getLast? with
  | none => 0
  | some v => Int.bmod v.toNat (2 ^ 32)

namespace FieldEntry

/-- The label that makes a field repeated. -/
def repeatedLabel : Int := 3

/-- The type of a number; one that names none is taken for `double`. -/
def typeOf (n : Int) : FieldType := if n ≤ 0 then .double else FieldType.all.getD (n - 1).toNat .double

def read (bytes : List UInt8) : FieldEntry :=
  let fs := (Wire.fields bytes).values
  { name := text 1 fs
    extendee := text 2 fs
    number := int32 3 fs
    repeated := int32 4 fs = repeatedLabel
    type := typeOf (int32 5 fs)
    typeName := text 6 fs }

end FieldEntry

/-- Reads a message type in which others nest at most `levels` deep. -/
def MessageEntry.read : Nat → List UInt8 → MessageEntry
  | 0, bytes => .mk (text 1 (Wire.fields bytes).values) [] [] []
  | levels + 1, bytes =>
    let fs := (Wire.fields bytes).values
    .mk (text 1 fs) ((payloads 2 fs).map FieldEntry.read) ((payloads 3 fs).map (read levels))
      ((payloads 6 fs).map FieldEntry.read)

def FileEntry.read (bytes : List UInt8) : FileEntry :=
  let fs := (Wire.fields bytes).values
  ⟨text 2 fs, (payloads 4 fs).map (MessageEntry.read setLevels), (payloads 7 fs).map FieldEntry.read⟩

/-- The files of a set. -/
def decodeSet (bytes : List UInt8) : Option (List FileEntry) :=
  if wellFormed setLevels .set bytes then some ((payloads 1 (Wire.fields bytes).values).map FileEntry.read)
  else none

end TraceTables.Schema
