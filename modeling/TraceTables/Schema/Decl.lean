import TraceTables.Assoc
import TraceTables.Wire.Packed

/-! Declarations of message types: their fields by number, each with the type it was declared with. -/

namespace TraceTables.Schema

/-- Declared types, which are not wire types: several of them share one. -/
inductive FieldType where
  | double
  | float
  | int64
  | uint64
  | int32
  | fixed64
  | fixed32
  | bool
  | string
  | group
  | message
  | bytes
  | uint32
  | enum
  | sfixed32
  | sfixed64
  | sint32
  | sint64
deriving DecidableEq

namespace FieldType

/-- All types in the order of their numbers in descriptors, which start at one. -/
def all : List FieldType :=
  [double, float, int64, uint64, int32, fixed64, fixed32, bool, string, group, message, bytes, uint32, enum,
   sfixed32, sfixed64, sint32, sint64]

def name : FieldType → String
  | double => "double"
  | float => "float"
  | int64 => "int64"
  | uint64 => "uint64"
  | int32 => "int32"
  | fixed64 => "fixed64"
  | fixed32 => "fixed32"
  | bool => "bool"
  | string => "string"
  | group => "group"
  | message => "message"
  | bytes => "bytes"
  | uint32 => "uint32"
  | enum => "enum"
  | sfixed32 => "sfixed32"
  | sfixed64 => "sfixed64"
  | sint32 => "sint32"
  | sint64 => "sint64"

def ofName? (s : String) : Option FieldType := all.find? fun t => t.name = s

/-- How the elements of a packed payload are written. Types without a packing stand alone, each value under
its own key. -/
def packing? : FieldType → Option Wire.Packing
  | int32 | int64 | uint32 | uint64 | sint32 | sint64 | bool | enum => some .varint
  | fixed32 | sfixed32 | float => some .fixed32
  | fixed64 | sfixed64 | double => some .fixed64
  | string | bytes | message | group => none

/-- Do values of the type refer to a message type? -/
def isMessageLike : FieldType → Bool
  | message | group => true
  | _ => false

end FieldType

/-- A full name starts with a dot; it is put in front if it is missing. -/
def qualify (name : String) : String := if name.toList.head? = some '.' then name else "." ++ name

theorem head?_qualify (name : String) : (qualify name).toList.head? = some '.' := by
  unfold qualify
  split
  · assumption
  · simp

theorem qualify_qualify (name : String) : qualify (qualify name) = qualify name := by
  rw [qualify, if_pos (head?_qualify name)]

structure FieldDecl where
  name : String
  number : Nat
  type : FieldType
  typeName? : Option String
  repeated : Bool
  extension : Bool
deriving DecidableEq

def FieldDecl.packing? (f : FieldDecl) : Option Wire.Packing := f.type.packing?

/-- A message type. Each of its fields is filed under its own number. -/
structure MessageDecl where
  fullName : String
  fields : Assoc Nat FieldDecl
  filed : ∀ {number : Nat} {f : FieldDecl}, fields.get? number = some f → f.number = number

namespace MessageDecl

/-- A message type without fields. -/
def named (name : String) : MessageDecl := ⟨qualify name, Assoc.empty, by simp⟩

def field? (m : MessageDecl) (number : Nat) : Option FieldDecl := m.fields.get? number

/-- Files a field under its number. -/
def add (m : MessageDecl) (f : FieldDecl) : MessageDecl where
  fullName := m.fullName
  fields := m.fields.insert f.number f
  filed {number g} h := by
    rw [Assoc.get?_insert] at h
    split at h
    · rename_i hn
      cases h
      exact hn
    · exact m.filed h

def addAll (m : MessageDecl) (fs : List FieldDecl) : MessageDecl := fs.foldl add m

@[simp] theorem fullName_add (m : MessageDecl) (f : FieldDecl) : (m.add f).fullName = m.fullName := rfl

@[simp] theorem field?_add (m : MessageDecl) (f : FieldDecl) (number : Nat) :
    (m.add f).field? number = if f.number = number then some f else m.field? number := by
  simp [add, field?]

@[simp] theorem fullName_addAll (m : MessageDecl) (fs : List FieldDecl) :
    (m.addAll fs).fullName = m.fullName := by
  unfold addAll
  induction fs generalizing m with
  | nil => rfl
  | cons f fs ih => rw [List.foldl_cons, ih]; rfl

end MessageDecl

end TraceTables.Schema
