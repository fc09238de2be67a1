import TraceTables.Schema.Decl

/-! A schema holds message types by their full names. Of two declarations that give one name and number the
later one counts; nothing that was declared goes away. -/

namespace TraceTables

/-- Why a descriptor set does not extend a schema. -/
inductive Schema.Fault where
  /-- the bytes are no descriptor set -/
  | undecodable
  | unresolvedType (field typeName : String)
  | unknownExtendee (extension extendee : String)
  | invalidFieldNumber (field : String) (number : Int)
deriving DecidableEq

/-- The text of a fault; that of bytes which cannot be decoded is not fixed further. -/
def Schema.Fault.message : Schema.Fault → String
  | undecodable => "Failed to decode descriptor set"
  | unresolvedType field typeName =>
    "Unresolved type '" ++ typeName ++ "' referenced by field " ++ field
  | unknownExtendee extension extendee =>
    "Extension '" ++ extension ++ "' extends unknown message '" ++ extendee ++ "'"
  | invalidFieldNumber field number =>
    "Invalid field number " ++ toString number ++ " for field " ++ field

structure Schema where
  messages : Assoc String Schema.MessageDecl

namespace Schema

def empty : Schema := ⟨Assoc.empty⟩

/-- The message type of that name, with or without the leading dot. -/
def find? (s : Schema) (name : String) : Option MessageDecl := s.messages.get? (qualify name)

def size (s : Schema) : Nat := s.messages.size

/-- Adds a message type. One that is there already takes over the new fields and keeps its others. -/
def declare (s : Schema) (m : MessageDecl) : Schema :=
  match s.messages.get? m.fullName with
  | none => ⟨s.messages.insert m.fullName m⟩
  | some old => ⟨s.messages.insert m.fullName (old.addAll m.fields.values)⟩

/-- Adds a field to a message type from outside, marked as an extension. -/
def extend (s : Schema) (extendee : String) (f : FieldDecl) : Except Fault Schema :=
  match s.messages.get? (qualify extendee) with
  | none => .error (.unknownExtendee f.name (qualify extendee))
  | some m => .ok ⟨s.messages.insert (qualify extendee) (m.add { f with extension := true })⟩

end Schema

end TraceTables
