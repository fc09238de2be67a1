import TraceTables.Schema.Decl
import TraceTables.Wire.Message

/-! The occurrences of a message's declared fields, in stream order. A packed payload counts as one occurrence for
each of its elements. An occurrence of a repeated field is numbered by those of the same field before it. -/

namespace TraceTables.Arguments

open Schema (FieldDecl MessageDecl)

/-- One value of a declared field, or the fault at which a packed payload breaks off. -/
inductive Occurrence where
  | value (decl : FieldDecl) (index : Option Nat) (field : Wire.Field)
  | broken (decl : FieldDecl) (source : Wire.Fault)

/-- The declaration of a field, if the message has it and the list of allowed numbers lets it through. Extensions
are always let through. -/
def admitted (m : MessageDecl) (allowed : Option (List Nat)) (f : Wire.Field) : Option FieldDecl :=
  match m.field? f.number with
  | none => none
  | some decl =>
    match allowed with
    | none => some decl
    | some numbers => if decl.extension || numbers.contains f.number then some decl else none

/-- The values that a field carries: the elements if it is packed, and else itself. -/
def elements (decl : FieldDecl) (f : Wire.Field) : Wire.Reading Wire.Field :=
  match decl.repeated, decl.packing?, f.value with
  | true, some packing, .bytes payload =>
    let r := packing.values payload
    ⟨r.values.map fun v => ⟨f.number, v⟩, r.fault?⟩
  | _, _, _ => ⟨[f], none⟩

/-- How many occurrences of each repeated field there have been. -/
abbrev Counts := Assoc Nat Nat

/-- Numbers the values of one field and counts them. -/
def numbered (decl : FieldDecl) (counts : Counts) : List Wire.Field → List Occurrence × Counts
  | [] => ([], counts)
  | f :: fs =>
    if decl.repeated then
      let index := (counts.get? decl.number).getD 0
      let r := numbered decl (counts.insert decl.number (index + 1)) fs
      (.value decl (some index) f :: r.1, r.2)
    else
      let r := numbered decl counts fs
      (.value decl none f :: r.1, r.2)

def brokenOff (decl : FieldDecl) : Option Wire.Fault → List Occurrence
  | none => []
  | some e => [.broken decl e]

/-- The occurrences in a list of fields; fields that the message does not have, or that are not allowed, have
none. -/
def occurrences (m : MessageDecl) (allowed : Option (List Nat)) (counts : Counts) :
    List Wire.Field → List Occurrence
  | [] => []
  | f :: fs =>
    match admitted m allowed f with
    | none => occurrences m allowed counts fs
    | some decl =>
      let es := elements decl f
      let r := numbered decl counts es.values
      r.1 ++ brokenOff decl es.fault? ++ occurrences m allowed r.2 fs

end TraceTables.Arguments
