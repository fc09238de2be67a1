import TraceTables.Arguments.Flattener
import TraceTables.Proofs.Arguments.Pieces

/-! What a walk without overrides comes by, depth first and in stream order, and what becomes of it. Every value, every
message that is not entered and every end of what can be read gives one row or one fault, a message that is entered
gives none of its own, and there is nothing else in the events of the walk. -/

namespace TraceTables.Arguments

open Schema (FieldDecl MessageDecl FieldType)

/-- Why a message or a reference is not entered. -/
inductive Obstacle where
  /-- the wire type is another one -/
  | mismatch (declared : FieldType) (encoded : Wire.WireType)
  /-- no interned payload is known -/
  | missing (fieldId : Nat) (iid : UInt64)
  | tooDeep (maxDepth : Nat)
  /-- the schema does not have the type -/
  | unknown (typeName : String)

def Obstacle.fault (key : Key) : Obstacle → Fault
  | mismatch declared encoded => .wireMismatch key.full declared encoded
  | missing fieldId iid => .internedMissing key.full fieldId iid
  | tooDeep maxDepth => .tooDeep key.full maxDepth
  | unknown typeName => .unknownMessage typeName

/-- What the walk comes by. -/
inductive Visit where
  /-- a value of a scalar type -/
  | scalar (decl : FieldDecl) (key : Key) (value : Wire.Value)
  /-- a value of a type that is not put into rows -/
  | unsupported (decl : FieldDecl) (key : Key)
  /-- a message or an interned payload, which the walk goes through next -/
  | entered (m : MessageDecl) (key : Key)
  /-- a message or a reference that leads nowhere -/
  | shut (key : Key) (why : Obstacle)
  /-- bytes of a message or of a packed payload that cannot be read -/
  | torn (typeName : String) (key : Key) (source : Wire.Fault)

def Visit.events : Visit → List Event
  | scalar decl key value =>
    match scalar? decl.type value with
    | some v => [.row ⟨key, v⟩]
    | none => [.fault (.wireMismatch key.full decl.type value.wireType)]
  | unsupported decl key => [.fault (.unsupported key.full decl.type)]
  | entered _ _ => []
  | shut key why => [.fault (why.fault key)]
  | torn typeName key source => [.fault (.malformed typeName key.full source)]

/-- The visit of an occurrence that is a value itself. -/
def Visit.ofValue (decl : FieldDecl) (key : Key) (field : Wire.Field) : Visit :=
  if decl.type = .bytes ∨ decl.type = .group then .unsupported decl key else .scalar decl key field.value

/-- Where an occurrence leads. -/
inductive Target where
  /-- nowhere: it is a value itself -/
  | value
  | payload (typeName : String) (bytes : List UInt8)
  | obstacle (why : Obstacle)

namespace Flattener

/-- A reference leads to an interned payload, and else a message to its own bytes. -/
def target (f : Flattener) (store : Option InternedStore) (decl : FieldDecl) (key : Key) (field : Wire.Field) :
    Target :=
  match f.references.get? key.flat with
  | some ref =>
    match field.value with
    | .varint iid =>
      match store.bind fun s => s.get? ⟨ref.fieldId, iid⟩ with
      | some bytes => .payload ref.typeName bytes
      | none => .obstacle (.missing ref.fieldId iid)
    | value => .obstacle (.mismatch decl.type value.wireType)
  | none =>
    if decl.type = .message then
      match field.value with
      | .bytes bytes => .payload (decl.typeName?.getD "") bytes
      | value => .obstacle (.mismatch decl.type value.wireType)
    else .value

end Flattener

/-- The visits of a message's occurrences, given those of a value. -/
def occurrenceVisits (inside : FieldDecl → Key → Wire.Field → List Visit) (key : Key) : Occurrence → List Visit
  | .value decl index field => inside decl (key.field decl.name index) field
  | .broken decl e => [.torn ("packed " ++ decl.type.name) (key.field decl.name none) e]

def messageVisits (inside : FieldDecl → Key → Wire.Field → List Visit) (allowed : Option (List Nat))
    (m : MessageDecl) (key : Key) (payload : List UInt8) : List Visit :=
  let r := Wire.fields payload
  (placed [] (r.values.flatMap (pieces m allowed))).flatMap (occurrenceVisits inside key) ++
    (r.fault?.map (.torn m.fullName key)).toList

namespace Flattener

mutual

/-- The visits at a value that stands `depth` messages deep. -/
def valueVisits (f : Flattener) (store : Option InternedStore) (depth : Nat) (decl : FieldDecl) (key : Key)
    (field : Wire.Field) : List Visit :=
  match f.target store decl key field with
  | .value =>
    if decl.type = .bytes ∨ decl.type = .group then [.unsupported decl key] else [.scalar decl key field.value]
  | .obstacle why => [.shut key why]
  | .payload typeName bytes => payloadVisits f store depth typeName key bytes
termination_by (f.maxDepth - depth, 1)

/-- The visits at a payload of a message type below such a value. -/
def payloadVisits (f : Flattener) (store : Option InternedStore) (depth : Nat) (typeName : String) (key : Key)
    (bytes : List UInt8) : List Visit :=
  if depth < f.maxDepth then
    match f.schema.find? typeName with
    | some m =>
      .entered m key ::
        messageVisits (fun decl key field => valueVisits f store (depth + 1) decl key field) none m key bytes
    | none => [.shut key (.unknown typeName)]
  else [.shut key (.tooDeep f.maxDepth)]
termination_by (f.maxDepth - depth, 0)

end

/-- The visits of a walk through a whole message. -/
def visits (f : Flattener) (store : Option InternedStore) (allowed : Option (List Nat)) (m : MessageDecl)
    (bytes : List UInt8) : List Visit :=
  messageVisits (f.valueVisits store 0) allowed m Key.root bytes

end Flattener

/-! ## The walk gives the events of its visits -/

namespace Progress

theorem inTurn_eq_flatMap {α : Type} {step : α → ArrayIndices → Progress} {events : α → List Event}
    (h : ∀ a indices, step a indices = ⟨events a, indices⟩) (as : List α) (indices : ArrayIndices) :
    inTurn step as indices = ⟨as.flatMap events, indices⟩ := by
  induction as with
  | nil => rfl
  | cons a as ih => simp [inTurn, andThen, h, ih]

end Progress

namespace Flattener

variable {f : Flattener} {store : Option InternedStore}

/-- A walk below does as the visits say. -/
def Follows (f : Flattener) (store : Option InternedStore) (descend : Option Descent) (depth : Nat) : Prop :=
  ∀ decl key field indices,
    f.visitValue store descend decl key field indices =
      ⟨(f.valueVisits store depth decl key field).flatMap Visit.events, indices⟩

theorem visit_eq {descend : Option Descent} {depth : Nat} (h : f.Follows store descend depth) (key : Key)
    (o : Occurrence) (indices : ArrayIndices) :
    f.visit store descend key o indices =
      ⟨(occurrenceVisits (f.valueVisits store depth) key o).flatMap Visit.events, indices⟩ := by
  cases o with
  | value decl index field => exact h decl (key.field decl.name index) field indices
  | broken decl e => rfl

theorem walkMessage_eq {descend : Option Descent} {depth : Nat} (h : f.Follows store descend depth)
    (allowed : Option (List Nat)) (m : MessageDecl) (key : Key) (payload : List UInt8) (indices : ArrayIndices) :
    f.walkMessage store descend allowed m key payload indices =
      ⟨(messageVisits (f.valueVisits store depth) allowed m key payload).flatMap Visit.events, indices⟩ := by
  simp only [walkMessage, messageVisits, occurrences_eq_placed m allowed _ (Counts.track_empty m),
    Progress.inTurn_eq_flatMap (visit_eq h key), Progress.andThen, List.flatMap_append, List.flatMap_assoc]
  cases (Wire.fields payload).fault? <;> rfl

/-- A value of a type that is neither a message nor left out of the rows is a scalar's. -/
theorem interpret_eq_scalar (descend : Option Descent) {decl : FieldDecl} (hm : decl.type ≠ .message)
    (hu : ¬ (decl.type = .bytes ∨ decl.type = .group)) (key : Key) (field : Wire.Field) (indices : ArrayIndices) :
    f.interpret descend decl key field indices = ⟨(Visit.scalar decl key field.value).events, indices⟩ := by
  unfold interpret
  split
  · rename_i ht
    exact absurd ht hm
  · rename_i ht
    exact absurd (Or.inl ht) hu
  · rename_i ht
    exact absurd (Or.inr ht) hu
  · rw [Visit.events]
    cases scalar? decl.type field.value <;> rfl

/-- A value does what its target says. -/
theorem generic_eq (descend : Option Descent) (decl : FieldDecl) (key : Key) (field : Wire.Field)
    (indices : ArrayIndices) :
    f.generic store descend decl key field indices =
      match f.target store decl key field with
      | .value => ⟨(Visit.ofValue decl key field).events, indices⟩
      | .obstacle why => .fault (why.fault key) indices
      | .payload typeName bytes => f.enter descend typeName key bytes indices := by
  obtain ⟨n, v⟩ := field
  rw [generic, target]
  cases f.references.get? key.flat with
  | some ref =>
    cases v with
    | varint iid =>
      simp only [followReference, Wire.Field.varint?]
      cases store.bind fun s => s.get? ⟨ref.fieldId, iid⟩ <;> rfl
    | fixed64 | fixed32 | bytes | group => rfl
  | none =>
    by_cases hm : decl.type = .message
    · simp only [interpret, hm, if_true]
      cases v with
      | bytes bytes => rfl
      | varint | fixed64 | fixed32 | group => simp [Obstacle.fault, mismatch, hm, Wire.Field.bytes?]
    · simp only [hm, if_false]
      by_cases hu : decl.type = .bytes ∨ decl.type = .group
      · rw [Visit.ofValue, if_pos hu]
        rcases hu with ht | ht <;> simp [interpret, ht, Visit.events, Progress.fault]
      · rw [Visit.ofValue, if_neg hu, interpret_eq_scalar descend hm hu]

theorem follows_of_enter (hf : f.overrides = Assoc.empty) {descend : Option Descent} {depth : Nat}
    (h : ∀ typeName key bytes indices, f.enter descend typeName key bytes indices =
      ⟨(f.payloadVisits store depth typeName key bytes).flatMap Visit.events, indices⟩) :
    f.Follows store descend depth := by
  intro decl key field indices
  have hg : f.visitValue store descend decl key field indices = f.generic store descend decl key field indices := by
    simp [visitValue, hf]
  rw [hg, generic_eq, valueVisits]
  cases f.target store decl key field with
  | value =>
    simp only [Visit.ofValue]
    split <;> simp
  | obstacle why => rfl
  | payload typeName bytes => exact h typeName key bytes indices

theorem enter_below (hf : f.overrides = Assoc.empty) (levels depth : Nat) (hd : f.maxDepth - depth = levels)
    (typeName : String) (key : Key) (bytes : List UInt8) (indices : ArrayIndices) :
    f.enter (f.below store levels) typeName key bytes indices =
      ⟨(f.payloadVisits store depth typeName key bytes).flatMap Visit.events, indices⟩ := by
  induction levels generalizing depth typeName key bytes indices with
  | zero =>
    rw [payloadVisits, if_neg (by omega)]
    rfl
  | succ levels ih =>
    have hfollow : f.Follows store (f.below store levels) (depth + 1) :=
      follows_of_enter hf (ih (depth + 1) (by omega))
    rw [payloadVisits, if_pos (by omega), below, enter]
    cases f.schema.find? typeName with
    | none => rfl
    | some m => exact walkMessage_eq hfollow none m key bytes indices

/-- At any depth the walk goes on as the visits say. -/
theorem follows_below (hf : f.overrides = Assoc.empty) (depth : Nat) :
    f.Follows store (f.below store (f.maxDepth - depth)) depth :=
  follows_of_enter hf (enter_below hf _ depth rfl)

/-- The events of a walk are those of its visits, and array indices are left as they are. -/
theorem walk_eq (hf : f.overrides = Assoc.empty) (allowed : Option (List Nat)) (m : MessageDecl)
    (bytes : List UInt8) (indices : ArrayIndices) :
    f.walk store allowed m bytes indices = ⟨(f.visits store allowed m bytes).flatMap Visit.events, indices⟩ :=
  walkMessage_eq (follows_below hf 0) allowed m Key.root bytes indices

end Flattener

end TraceTables.Arguments
