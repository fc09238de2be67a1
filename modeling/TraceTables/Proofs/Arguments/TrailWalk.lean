import TraceTables.Arguments.KeyTrail
import TraceTables.Proofs.Arguments.Visits

/-! The walk on one key that is extended and cut back in place. The scope of a field is entered before a value or a
fault of it and left behind it, and everything in between only reads the key that stands there. Each part of the walk
leaves the trail as it found it, so on a trail the walk comes by the keys that it is given otherwise. -/

namespace TraceTables.Arguments

open Schema (FieldDecl MessageDecl)

/-- A part of a walk on a trail. It breaks off if there is a scope that cannot be left. -/
abbrev Stretch := KeyTrail → ArrayIndices → Option (Progress × KeyTrail)

namespace Stretch

/-- What only reads the key. -/
def reading (p : Key → ArrayIndices → Progress) : Stretch := fun t indices => some (p t.key indices, t)

def andThen (a b : Stretch) : Stretch := fun t indices => do
  let (p, t) ← a t indices
  let (q, t) ← b t p.indices
  return (⟨p.events ++ q.events, q.indices⟩, t)

def inTurn {α : Type} (step : α → Stretch) : List α → Stretch
  | [] => reading fun _ indices => ⟨[], indices⟩
  | a :: as => (step a).andThen (inTurn step as)

/-- Enters the scope of a field first and leaves it in the end. -/
def inField (name : String) (index : Option Nat) (a : Stretch) : Stretch := fun t indices => do
  let (p, t) ← a (t.enterField name index) indices
  return (p, ← t.leave)

/-- On every trail this is done with its key, and the trail is the same again. -/
def Does (a : Stretch) (p : Key → ArrayIndices → Progress) : Prop :=
  ∀ t indices, a t indices = some (p t.key indices, t)

theorem does_reading (p : Key → ArrayIndices → Progress) : (reading p).Does p := fun _ _ => rfl

theorem Does.andThen {a b : Stretch} {p q : Key → ArrayIndices → Progress} (ha : a.Does p) (hb : b.Does q) :
    (a.andThen b).Does fun key indices => (p key indices).andThen (q key) := by
  intro t indices
  simp only [Stretch.andThen, ha t indices, hb t, bind, Option.bind_some]
  rfl

theorem does_inTurn {α : Type} {step : α → Stretch} {p : Key → α → ArrayIndices → Progress}
    (h : ∀ a, (step a).Does fun key => p key a) (as : List α) :
    (inTurn step as).Does fun key => Progress.inTurn (p key) as := by
  induction as with
  | nil => exact does_reading _
  | cons a as ih => exact (h a).andThen ih

/-- The scope of a field is the only one that is left again. -/
theorem Does.inField {a : Stretch} {p : Key → ArrayIndices → Progress} (h : a.Does p) (name : String)
    (index : Option Nat) : (inField name index a).Does fun key => p (key.field name index) := by
  intro t indices
  simp only [Stretch.inField, h (t.enterField name index) indices, t.leave_enterField, bind, Option.bind_some]
  rfl

end Stretch

/-- The walk through the payload of a message type in the scope where it stands. -/
abbrev TrailDescent := MessageDecl → List UInt8 → Stretch

/-- Neither goes on, or one does on a trail what the other does with the key. -/
inductive Descends : Option TrailDescent → Option Descent → Prop
  | none : Descends none none
  | some {onTrail : TrailDescent} {descend : Descent} :
    (∀ m payload, (onTrail m payload).Does fun key => descend m key payload) →
    Descends (some onTrail) (some descend)

namespace Flattener

section Trail

variable (f : Flattener) (interned : Option InternedStore)

def enterOn (descend : Option TrailDescent) (typeName : String) (payload : List UInt8) : Stretch :=
  match descend with
  | none => .reading fun key => .fault (.tooDeep key.full f.maxDepth)
  | some walk =>
    match f.schema.find? typeName with
    | none => .reading fun _ => .fault (.unknownMessage typeName)
    | some m => walk m payload

def genericOn (descend : Option TrailDescent) (decl : FieldDecl) (field : Wire.Field) : Stretch :=
  fun t indices =>
    match f.target interned decl t.key field with
    | .value => some (⟨(Visit.ofValue decl t.key field).events, indices⟩, t)
    | .obstacle why => some (.fault (why.fault t.key) indices, t)
    | .payload typeName bytes => f.enterOn descend typeName bytes t indices

/-- An override sees the key that stands there, and leaves the scopes that it enters itself. -/
def visitValueOn (descend : Option TrailDescent) (decl : FieldDecl) (field : Wire.Field) : Stretch :=
  fun t indices =>
    match f.overrides.get? t.key.flat with
    | none => f.genericOn interned descend decl field t indices
    | some o =>
      let r := o field t.key ⟨[], indices, interned⟩
      let added : Stretch := .reading fun _ _ => ⟨r.2.rows.map .row, r.2.indices⟩
      match r.1 with
      | .declined => added.andThen (f.genericOn interned descend decl field) t indices
      | .handled => added t indices
      | .failed e => added.andThen (.reading fun _ => .fault e) t indices

def visitOn (descend : Option TrailDescent) : Occurrence → Stretch
  | .value decl index field => .inField decl.name index (f.visitValueOn interned descend decl field)
  | .broken decl source =>
    .inField decl.name none (.reading fun key => .fault (.malformed ("packed " ++ decl.type.name) key.full source))

def walkMessageOn (descend : Option TrailDescent) (allowed : Option (List Nat)) (m : MessageDecl)
    (payload : List UInt8) : Stretch :=
  let r := Wire.fields payload
  (Stretch.inTurn (f.visitOn interned descend) (occurrences m allowed Assoc.empty r.values)).andThen
    (.reading fun key indices => ⟨malformedEnd m key r.fault?, indices⟩)

def belowOn : Nat → Option TrailDescent
  | 0 => none
  | levels + 1 => some fun m payload => f.walkMessageOn interned (belowOn levels) none m payload

/-- The walk through a whole message on a trail. -/
def walkOn (allowed : Option (List Nat)) (m : MessageDecl) (bytes : List UInt8) : Stretch :=
  f.walkMessageOn interned (f.belowOn interned f.maxDepth) allowed m bytes

end Trail

section Keys

variable {f : Flattener} {interned : Option InternedStore} {onTrail : Option TrailDescent} {descend : Option Descent}

theorem does_enterOn (h : Descends onTrail descend) (typeName : String) (payload : List UInt8) :
    (f.enterOn onTrail typeName payload).Does fun key => f.enter descend typeName key payload := by
  intro t indices
  change _ = some (f.enter descend typeName t.key payload indices, t)
  cases h with
  | none => rfl
  | some h =>
    unfold enterOn enter
    cases f.schema.find? typeName with
    | none => rfl
    | some m => exact h m payload t indices

theorem does_genericOn (h : Descends onTrail descend) (decl : FieldDecl) (field : Wire.Field) :
    (f.genericOn interned onTrail decl field).Does fun key => f.generic interned descend decl key field := by
  intro t indices
  change _ = some (f.generic interned descend decl t.key field indices, t)
  rw [genericOn, generic_eq]
  cases f.target interned decl t.key field with
  | value | obstacle => rfl
  | payload typeName bytes => exact does_enterOn h typeName bytes t indices

theorem does_visitValueOn (h : Descends onTrail descend) (decl : FieldDecl) (field : Wire.Field) :
    (f.visitValueOn interned onTrail decl field).Does fun key => f.visitValue interned descend decl key field := by
  intro t indices
  have hgeneric : (f.genericOn interned onTrail decl field).Does fun key =>
      f.generic interned descend decl key field := does_genericOn h decl field
  change _ = some (f.visitValue interned descend decl t.key field indices, t)
  unfold visitValueOn visitValue
  cases f.overrides.get? t.key.flat with
  | none => exact hgeneric t indices
  | some o =>
    simp only
    generalize o field t.key ⟨[], indices, interned⟩ = r
    obtain ⟨outcome, table⟩ := r
    cases outcome with
    | declined =>
      exact (Stretch.does_reading fun _ _ => ⟨table.rows.map .row, table.indices⟩).andThen hgeneric t indices
    | handled | failed => rfl

theorem does_visitOn (h : Descends onTrail descend) (o : Occurrence) :
    (f.visitOn interned onTrail o).Does fun key => f.visit interned descend key o := by
  cases o with
  | value decl index field => exact (does_visitValueOn h decl field).inField decl.name index
  | broken decl source => exact (Stretch.does_reading _).inField decl.name none

theorem does_walkMessageOn (h : Descends onTrail descend) (allowed : Option (List Nat)) (m : MessageDecl)
    (payload : List UInt8) :
    (f.walkMessageOn interned onTrail allowed m payload).Does fun key =>
      f.walkMessage interned descend allowed m key payload :=
  (Stretch.does_inTurn (does_visitOn h) _).andThen (Stretch.does_reading _)

theorem descends_belowOn (levels : Nat) : Descends (f.belowOn interned levels) (f.below interned levels) := by
  induction levels with
  | zero => exact .none
  | succ levels ih => exact .some fun m payload => does_walkMessageOn ih none m payload

end Keys

/-- A walk from the scope of the empty key leaves all scopes that it enters, and gives the rows and faults of the walk
that is given its keys. -/
theorem walkOn_start (f : Flattener) (interned : Option InternedStore) (allowed : Option (List Nat)) (m : MessageDecl)
    (bytes : List UInt8) (indices : ArrayIndices) :
    f.walkOn interned allowed m bytes (.start Key.root) indices =
      some (f.walk interned allowed m bytes indices, .start Key.root) :=
  does_walkMessageOn (descends_belowOn f.maxDepth) allowed m bytes (.start Key.root) indices

end Flattener

end TraceTables.Arguments
