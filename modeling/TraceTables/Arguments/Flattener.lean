import TraceTables.Arguments.Fault
import TraceTables.Arguments.Occurrence
import TraceTables.Arguments.Scalar
import TraceTables.Schema.Registry

/-! Flattening of messages. The schema drives a walk through an encoded message that puts one row into a table for
each scalar value. A field that fails is recorded and its siblings go on. The walk is a list of events, rows
and faults in stream order; table and status are both read off that list. -/

namespace TraceTables.Arguments

open Schema (FieldDecl MessageDecl)

/-- What an override says about an occurrence: leave it to the walk, or it is done, or it failed. -/
inductive Outcome where
  | declined
  | handled
  | failed (e : Fault)

/-- An override sees an occurrence before the walk does. It is given a table without rows that shares the array
indices and interned payloads; what it adds there becomes part of the walk. -/
abbrev Override := Wire.Field → Key → Table → Outcome × Table

/-- A field that holds the id of an interned payload of some message type. -/
structure Reference where
  fieldId : Nat
  typeName : String

structure Flattener where
  schema : Schema
  maxDepth : Nat
  overrides : Assoc String Override
  references : Assoc String Reference

inductive Event where
  | row (r : Row)
  | fault (e : Fault)

def Event.row? : Event → Option Row
  | row r => some r
  | fault _ => none

def Event.fault? : Event → Option Fault
  | row _ => none
  | fault e => some e

/-- Events and the array indices after them. -/
structure Progress where
  events : List Event
  indices : ArrayIndices

namespace Progress

/-- Nothing but a fault. -/
def fault (e : Fault) (indices : ArrayIndices) : Progress := ⟨[.fault e], indices⟩

/-- One thing after the other. -/
def andThen (p : Progress) (next : ArrayIndices → Progress) : Progress :=
  let q := next p.indices
  ⟨p.events ++ q.events, q.indices⟩

/-- The steps of a list, from left to right. -/
def inTurn {α : Type} (step : α → ArrayIndices → Progress) : List α → ArrayIndices → Progress
  | [], indices => ⟨[], indices⟩
  | a :: as, indices => (step a indices).andThen (inTurn step as)

theorem inTurn_append {α : Type} (step : α → ArrayIndices → Progress)
    (as bs : List α) (indices : ArrayIndices) :
    inTurn step (as ++ bs) indices = (inTurn step as indices).andThen (inTurn step bs) := by
  induction as generalizing indices with
  | nil => rfl
  | cons a as ih => simp [inTurn, andThen, ih]

end Progress

/-- The walk through the payload of a message type below a key. -/
abbrev Descent := MessageDecl → Key → List UInt8 → ArrayIndices → Progress

namespace Flattener

def defaultMaxDepth : Nat := 64

def new (schema : Schema) : Flattener := ⟨schema, defaultMaxDepth, Assoc.empty, Assoc.empty⟩

/-- Sets the override of a path of field names. It takes the place of an earlier one. -/
def override (f : Flattener) (path : String) (o : Override) : Flattener :=
  { f with overrides := f.overrides.insert path o }

/-- Makes the field at a path a reference to interned payloads. -/
def refer (f : Flattener) (path : String) (fieldId : Nat) (typeName : String) : Flattener :=
  { f with references := f.references.insert path ⟨fieldId, Schema.qualify typeName⟩ }

/-- Enters a message below a field. The depth is looked at before the type; `none` means that it is used up. -/
def enter (f : Flattener) (descend : Option Descent) (typeName : String) (key : Key) (payload : List UInt8)
    (indices : ArrayIndices) : Progress :=
  match descend with
  | none => .fault (.tooDeep key.full f.maxDepth) indices
  | some walk =>
    match f.schema.find? typeName with
    | none => .fault (.unknownMessage typeName) indices
    | some m => walk m key payload indices

def mismatch (decl : FieldDecl) (key : Key) (field : Wire.Field) : Fault :=
  .wireMismatch key.full decl.type field.value.wireType

/-- Follows a reference to an interned payload. -/
def followReference (f : Flattener) (interned : Option InternedStore) (descend : Option Descent)
    (decl : FieldDecl) (ref : Reference) (key : Key) (field : Wire.Field) (indices : ArrayIndices) :
    Progress :=
  match field.varint? with
  | none => .fault (mismatch decl key field) indices
  | some iid =>
    match interned.bind fun s => s.get? ⟨ref.fieldId, iid⟩ with
    | none => .fault (.internedMissing key.full ref.fieldId iid) indices
    | some payload => f.enter descend ref.typeName key payload indices

/-- What a value means by its declared type alone. -/
def interpret (f : Flattener) (descend : Option Descent) (decl : FieldDecl) (key : Key)
    (field : Wire.Field) (indices : ArrayIndices) : Progress :=
  match decl.type with
  | .message =>
    match field.bytes? with
    | none => .fault (mismatch decl key field) indices
    | some payload => f.enter descend (decl.typeName?.getD "") key payload indices
  | .bytes | .group => .fault (.unsupported key.full decl.type) indices
  | type =>
    match scalar? type field.value with
    | none => .fault (mismatch decl key field) indices
    | some v => ⟨[.row ⟨key, v⟩], indices⟩

/-- A value that no override has taken: a reference if its path is one, and else by its type. -/
def generic (f : Flattener) (interned : Option InternedStore) (descend : Option Descent) (decl : FieldDecl)
    (key : Key) (field : Wire.Field) (indices : ArrayIndices) : Progress :=
  match f.references.get? key.flat with
  | some ref => f.followReference interned descend decl ref key field indices
  | none => f.interpret descend decl key field indices

/-- The override of the key's path comes first. What it adds counts whether it declines or fails. -/
def visitValue (f : Flattener) (interned : Option InternedStore) (descend : Option Descent)
    (decl : FieldDecl) (key : Key) (field : Wire.Field) (indices : ArrayIndices) : Progress :=
  match f.overrides.get? key.flat with
  | none => f.generic interned descend decl key field indices
  | some o =>
    let r := o field key ⟨[], indices, interned⟩
    let added : Progress := ⟨r.2.rows.map .row, r.2.indices⟩
    match r.1 with
    | .declined => added.andThen (f.generic interned descend decl key field)
    | .handled => added
    | .failed e => added.andThen (.fault e)

def visit (f : Flattener) (interned : Option InternedStore) (descend : Option Descent) (parent : Key)
    (o : Occurrence) (indices : ArrayIndices) : Progress :=
  match o with
  | .value decl index field =>
    f.visitValue interned descend decl (parent.field decl.name index) field indices
  | .broken decl source =>
    .fault (.malformed ("packed " ++ decl.type.name) (parent.field decl.name none).full source) indices

/-- The fault at the end of a message that cannot be read to its end. -/
def malformedEnd (m : MessageDecl) (key : Key) : Option Wire.Fault → List Event
  | none => []
  | some e => [.fault (.malformed m.fullName key.full e)]

/-- One message: its occurrences, and then the fault that stopped its reading. -/
def walkMessage (f : Flattener) (interned : Option InternedStore) (descend : Option Descent)
    (allowed : Option (List Nat)) (m : MessageDecl) (key : Key) (payload : List UInt8)
    (indices : ArrayIndices) : Progress :=
  let r := Wire.fields payload
  (Progress.inTurn (f.visit interned descend key) (occurrences m allowed Assoc.empty r.values) indices).andThen
    fun indices => ⟨malformedEnd m key r.fault?, indices⟩

/-- The walk through messages below which others may nest; there is none once the levels are used up. -/
def below (f : Flattener) (interned : Option InternedStore) : Nat → Option Descent
  | 0 => none
  | levels + 1 => some fun m key payload indices =>
    f.walkMessage interned (f.below interned levels) none m key payload indices

/-- The walk through a whole message. Only its own fields are subject to the list of allowed numbers. -/
def walk (f : Flattener) (interned : Option InternedStore) (allowed : Option (List Nat)) (m : MessageDecl)
    (bytes : List UInt8) (indices : ArrayIndices) : Progress :=
  f.walkMessage interned (f.below interned f.maxDepth) allowed m Key.root bytes indices

end Flattener

def rowsOf (events : List Event) : List Row := events.filterMap Event.row?

def faultsOf (events : List Event) : List Fault := events.filterMap Event.fault?

@[simp] theorem rowsOf_append (a b : List Event) : rowsOf (a ++ b) = rowsOf a ++ rowsOf b :=
  List.filterMap_append

@[simp] theorem faultsOf_append (a b : List Event) : faultsOf (a ++ b) = faultsOf a ++ faultsOf b :=
  List.filterMap_append

/-- Flattens a message into a table. A type that the schema does not have is the only reason for which nothing is
done at all. -/
def Flattener.flatten (f : Flattener) (bytes : List UInt8) (typeName : String)
    (allowed : Option (List Nat)) (t : Table) : Except Fault Unit × Table :=
  match f.schema.find? typeName with
  | none => (.error (.unknownMessage typeName), t)
  | some m =>
    let p := f.walk t.interned? allowed m bytes t.indices
    (Fault.status (faultsOf p.events),
      { t with rows := t.rows ++ rowsOf p.events, indices := p.indices })

end TraceTables.Arguments
