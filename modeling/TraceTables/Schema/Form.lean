import TraceTables.Text.Utf8
import TraceTables.Wire.Packed
import TraceTables.Wire.Message
import TraceTables.Assoc

/-! The form of descriptor sets: which fields each kind of message in them has and what these must hold. What is of
no use to a schema is checked like the rest. -/

namespace TraceTables.Schema

/-- The kinds of messages in a descriptor set. -/
inductive Part where
  | set
  | file
  | message
  | extensionRange
  | numberRange
  | field
  | oneof
  | enum
  | enumValue
  | service
  | method
  | fileOptions
  | messageOptions
  | rangeOptions
  | fieldOptions
  | oneofOptions
  | enumOptions
  | enumValueOptions
  | serviceOptions
  | methodOptions
  | customOption
  | customName
  | sourceInfo
  | location
deriving DecidableEq

/-- What a field must hold. -/
inductive Slot where
  | text
  | bytes
  | number
  | numbers
  | fixed64
  | part (p : Part)
  | unknown
deriving DecidableEq

/-- The known fields by their numbers. -/
def Part.slots : Part → List (Nat × Slot)
  | set => [(1, .part file)]
  | file =>
    [(1, .text), (2, .text), (3, .text), (4, .part message), (5, .part enum), (6, .part service), (7, .part field),
     (8, .part fileOptions), (9, .part sourceInfo), (10, .numbers), (11, .numbers), (12, .text)]
  | message =>
    [(1, .text), (2, .part field), (3, .part message), (4, .part enum), (5, .part extensionRange), (6, .part field),
     (7, .part messageOptions), (8, .part oneof), (9, .part numberRange), (10, .text)]
  | extensionRange => [(1, .number), (2, .number), (3, .part rangeOptions)]
  | numberRange => [(1, .number), (2, .number)]
  | field =>
    [(1, .text), (2, .text), (3, .number), (4, .number), (5, .number), (6, .text), (7, .text),
     (8, .part fieldOptions), (9, .number), (10, .text), (17, .number)]
  | oneof => [(1, .text), (2, .part oneofOptions)]
  | enum => [(1, .text), (2, .part enumValue), (3, .part enumOptions), (4, .part numberRange), (5, .text)]
  | enumValue => [(1, .text), (2, .number), (3, .part enumValueOptions)]
  | service => [(1, .text), (2, .part method), (3, .part serviceOptions)]
  | method => [(1, .text), (2, .text), (3, .text), (4, .part methodOptions), (5, .number), (6, .number)]
  | fileOptions =>
    [(1, .text), (8, .text), (9, .number), (10, .number), (11, .text), (16, .number), (17, .number), (18, .number),
     (20, .number), (23, .number), (27, .number), (31, .number), (36, .text), (37, .text), (39, .text), (40, .text),
     (41, .text), (42, .number), (44, .text), (45, .text), (999, .part customOption)]
  | messageOptions =>
    [(1, .number), (2, .number), (3, .number), (7, .number), (999, .part customOption)]
  | rangeOptions | oneofOptions => [(999, .part customOption)]
  | fieldOptions =>
    [(1, .number), (2, .number), (3, .number), (5, .number), (6, .number), (10, .number), (999, .part customOption)]
  | enumOptions => [(2, .number), (3, .number), (999, .part customOption)]
  | enumValueOptions => [(1, .number), (999, .part customOption)]
  | serviceOptions => [(33, .number), (999, .part customOption)]
  | methodOptions => [(33, .number), (34, .number), (999, .part customOption)]
  | customOption =>
    [(2, .part customName), (3, .text), (4, .number), (5, .number), (6, .fixed64), (7, .bytes), (8, .text)]
  | customName => [(1, .text), (2, .number)]
  | sourceInfo => [(1, .part location)]
  | location => [(1, .numbers), (2, .numbers), (3, .text), (4, .text), (6, .text)]

def Part.slot (p : Part) (number : Nat) : Slot := (valueAt number p.slots).getD .unknown

/-- May a field that is not known be skipped? Every group around a field, and its message, uses up one level. -/
def skippable : Nat → Wire.Value → Bool
  | 0, _ => false
  | levels + 1, .group body => (Wire.fields body).values.all fun f => skippable levels f.value
  | _ + 1, _ => true

/-- Does a value fit a slot? `inside` checks the messages that are inside. -/
def Slot.admits (inside : Part → List UInt8 → Bool) (levels : Nat) : Slot → Wire.Value → Bool
  | .text, .bytes payload => (Text.Utf8.decode? payload).isSome
  | .bytes, .bytes _ => true
  | .number, .varint _ => true
  | .numbers, .varint _ => true
  | .numbers, .bytes payload => (Wire.Packing.varint.values payload).fault?.isNone
  | .fixed64, .fixed64 _ => true
  | .part p, .bytes payload => inside p payload
  | .unknown, v => skippable levels v
  | _, _ => false

def Part.holds (p : Part) (inside : Part → List UInt8 → Bool) (levels : Nat) (bytes : List UInt8) : Bool :=
  let r := Wire.fields bytes
  r.fault?.isNone && r.values.all fun f => (p.slot f.number).admits inside levels f.value

/-- Is it a message of its kind in which others nest at most `levels` deep? -/
def wellFormed : Nat → Part → List UInt8 → Bool
  | 0, p, bytes => p.holds (fun _ _ => false) 0 bytes
  | levels + 1, p, bytes => p.holds (wellFormed levels) (levels + 1) bytes

/-- How deep messages may nest in a set. -/
def setLevels : Nat := 100

end TraceTables.Schema
