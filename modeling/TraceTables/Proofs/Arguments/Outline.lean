import TraceTables.Proofs.Arguments.Run
import TraceTables.Proofs.Arguments.Visits

/-! A walk in which the occurrences at one path are left open. Overrides at other paths are part of this outline, and one
at the path itself changes what stands in the gaps. As long as no override looks at the counts of array entries, a walk
is its outline with each gap filled by what the walk comes by there. -/

namespace TraceTables.Arguments

open Schema (FieldDecl MessageDecl)

namespace Override

/-- What the override says about an occurrence while no array entries have been counted. -/
def answer (o : Override) (store : Option InternedStore) (field : Wire.Field) (key : Key) : Outcome :=
  (o field key ⟨[], Assoc.empty, store⟩).1

/-- The rows that the override adds at an occurrence while no array entries have been counted. -/
def adds (o : Override) (store : Option InternedStore) (field : Wire.Field) (key : Key) : List Row :=
  (o field key ⟨[], Assoc.empty, store⟩).2.rows

/-- The override looks at the field, its key and the interned payloads. It may count array entries, but it does not look
at how many there have been. -/
structure Steady (o : Override) : Prop where
  answer_eq : ∀ field key indices store, (o field key ⟨[], indices, store⟩).1 = o.answer store field key
  adds_eq : ∀ field key indices store, (o field key ⟨[], indices, store⟩).2.rows = o.adds store field key

end Override

/-- An occurrence that is left open, and how many messages may be entered below it. -/
structure Gap where
  levels : Nat
  decl : FieldDecl
  key : Key
  field : Wire.Field

inductive Part where
  | event (e : Event)
  | gap (g : Gap)

/-- The events of a part, given those in the gaps. -/
def Part.events (fill : Gap → List Event) : Part → List Event
  | event e => [e]
  | gap g => fill g

/-- What an override makes of an occurrence for which there are parts already. -/
def Override.around (o : Override) (store : Option InternedStore) (field : Wire.Field) (key : Key)
    (parts : List Part) : List Part :=
  (o.adds store field key).map (fun r => .event (.row r)) ++
    match o.answer store field key with
    | .declined => parts
    | .handled => []
    | .failed e => [.event (.fault e)]

/-- The parts of a message's occurrences, given those of a value. -/
def occurrenceOutline (inside : FieldDecl → Key → Wire.Field → List Part) (key : Key) : Occurrence → List Part
  | .value decl index field => inside decl (key.field decl.name index) field
  | .broken decl e =>
    [.event (.fault (.malformed ("packed " ++ decl.type.name) (key.field decl.name none).full e))]

def messageOutline (inside : FieldDecl → Key → Wire.Field → List Part) (allowed : Option (List Nat))
    (m : MessageDecl) (key : Key) (payload : List UInt8) : List Part :=
  let r := Wire.fields payload
  (occurrences m allowed Assoc.empty r.values).flatMap (occurrenceOutline inside key) ++
    (Flattener.malformedEnd m key r.fault?).map .event

namespace Flattener

/-- What the override of the key's path makes of an occurrence, if there is one. -/
def around (f : Flattener) (store : Option InternedStore) (field : Wire.Field) (key : Key) (parts : List Part) :
    List Part :=
  match f.overrides.get? key.flat with
  | none => parts
  | some o => o.around store field key parts

/-- The parts of a value that no override has taken, given those in the payload of a message type. -/
def genericOutline (f : Flattener) (store : Option InternedStore) (enter : String → Key → List UInt8 → List Part)
    (decl : FieldDecl) (key : Key) (field : Wire.Field) : List Part :=
  match f.target store decl key field with
  | .value => (Visit.ofValue decl key field).events.map .event
  | .obstacle why => [.event (.fault (why.fault key))]
  | .payload typeName bytes => enter typeName key bytes

/-- The parts of a value below which so many messages may be entered. -/
def valueOutline (f : Flattener) (path : String) (store : Option InternedStore) (levels : Nat)
    (enter : String → Key → List UInt8 → List Part) (decl : FieldDecl) (key : Key) (field : Wire.Field) : List Part :=
  if key.flat = path then [.gap ⟨levels, decl, key, field⟩]
  else f.around store field key (f.genericOutline store enter decl key field)

/-- The parts of a payload of a message type, with the number of messages that may be entered one inside the other,
itself among them. Only its own fields are subject to the list of allowed numbers. -/
def payloadOutline (f : Flattener) (path : String) (store : Option InternedStore) :
    Nat → Option (List Nat) → String → Key → List UInt8 → List Part
  | 0, _, _, key, _ => [.event (.fault (.tooDeep key.full f.maxDepth))]
  | levels + 1, allowed, typeName, key, bytes =>
    match f.schema.find? typeName with
    | none => [.event (.fault (.unknownMessage typeName))]
    | some m =>
      messageOutline (f.valueOutline path store levels (f.payloadOutline path store levels none)) allowed m key bytes

/-- One flattening without the occurrences at a path. -/
def outline (f : Flattener) (path : String) (bytes : List UInt8) (typeName : String) (allowed : Option (List Nat))
    (t : Table) : List Part :=
  f.payloadOutline path t.interned? (f.maxDepth + 1) allowed typeName Key.root bytes

/-- What the walk comes by at an occurrence. -/
def eventsAt (f : Flattener) (store : Option InternedStore) (g : Gap) : List Event :=
  (f.visitValue store (f.below store g.levels) g.decl g.key g.field Assoc.empty).events

end Flattener

/-! ## The events of the parts are those of the walk -/

namespace Progress

theorem events_inTurn {α : Type} {step : α → ArrayIndices → Progress} {events : α → List Event}
    (h : ∀ a indices, (step a indices).events = events a) (as : List α) (indices : ArrayIndices) :
    (inTurn step as indices).events = as.flatMap events := by
  induction as generalizing indices with
  | nil => rfl
  | cons a as ih => simp [inTurn, andThen, h, ih]

end Progress

theorem flatMap_events_map_event (fill : Gap → List Event) (es : List Event) :
    (es.map Part.event).flatMap (Part.events fill) = es := by
  rw [List.flatMap_map]
  exact List.flatMap_singleton' es

theorem flatMap_events_around (o : Override) (store : Option InternedStore) (field : Wire.Field) (key : Key)
    (parts : List Part) (fill : Gap → List Event) :
    (o.around store field key parts).flatMap (Part.events fill) =
      (o.adds store field key).map .row ++
        match o.answer store field key with
        | .declined => parts.flatMap (Part.events fill)
        | .handled => []
        | .failed e => [.fault e] := by
  have hrows : ((o.adds store field key).map fun r => Part.event (.row r)).flatMap (Part.events fill) =
      (o.adds store field key).map Event.row := by
    rw [← flatMap_events_map_event fill ((o.adds store field key).map Event.row), List.map_map]
    rfl
  rw [Override.around, List.flatMap_append, hrows]
  cases o.answer store field key <;> rfl

namespace Flattener

variable {f : Flattener} {path : String} {store : Option InternedStore} {fill : Gap → List Event}

theorem events_visitValue (hf : ∀ q o, f.overrides.get? q = some o → o.Steady) {descend : Option Descent}
    {decl : FieldDecl} {key : Key} {field : Wire.Field} {parts : List Part}
    (h : ∀ indices, (f.generic store descend decl key field indices).events = parts.flatMap (Part.events fill))
    (indices : ArrayIndices) :
    (f.visitValue store descend decl key field indices).events =
      (f.around store field key parts).flatMap (Part.events fill) := by
  unfold visitValue around
  cases ho : f.overrides.get? key.flat with
  | none => exact h indices
  | some o =>
    have hsteady := hf _ o ho
    simp only [flatMap_events_around, hsteady.answer_eq, hsteady.adds_eq]
    cases o.answer store field key with
    | declined => simp only [Progress.andThen, h]
    | handled => simp only [List.append_nil]
    | failed e => rfl

theorem events_walkMessage {descend : Option Descent} {inside : FieldDecl → Key → Wire.Field → List Part}
    (h : ∀ decl key field indices, (f.visitValue store descend decl key field indices).events =
      (inside decl key field).flatMap (Part.events fill))
    (allowed : Option (List Nat)) (m : MessageDecl) (key : Key) (payload : List UInt8) (indices : ArrayIndices) :
    (f.walkMessage store descend allowed m key payload indices).events =
      (messageOutline inside allowed m key payload).flatMap (Part.events fill) := by
  have hvisit (o : Occurrence) (indices : ArrayIndices) : (f.visit store descend key o indices).events =
      (occurrenceOutline inside key o).flatMap (Part.events fill) := by
    cases o with
    | value decl index field => exact h decl (key.field decl.name index) field indices
    | broken decl e => rfl
  simp only [walkMessage, messageOutline, Progress.andThen, Progress.events_inTurn hvisit, List.flatMap_append,
    List.flatMap_assoc, flatMap_events_map_event]

/-- Another flattener is the same but for the override at the path. -/
structure SameOff (path : String) (f g : Flattener) : Prop where
  schema : g.schema = f.schema
  maxDepth : g.maxDepth = f.maxDepth
  references : g.references = f.references
  overrides : ∀ q, q ≠ path → g.overrides.get? q = f.overrides.get? q

theorem SameOff.target {g : Flattener} (hs : f.SameOff path g) : g.target = f.target := by
  funext store decl key field
  simp only [Flattener.target, hs.references]

theorem SameOff.around {g : Flattener} (hs : f.SameOff path g) {key : Key} (hk : key.flat ≠ path) (field : Wire.Field)
    (parts : List Part) : g.around store field key parts = f.around store field key parts := by
  simp only [Flattener.around, hs.overrides _ hk]

section Steady

variable {g : Flattener} (hs : f.SameOff path g) (hg : ∀ q o, g.overrides.get? q = some o → o.Steady)
include hs hg

theorem events_visitValue_enter {levels : Nat} {enter : String → Key → List UInt8 → List Part}
    (h : ∀ typeName key bytes indices, (g.enter (g.below store levels) typeName key bytes indices).events =
      (enter typeName key bytes).flatMap (Part.events fill))
    (decl : FieldDecl) (key : Key) (field : Wire.Field) (indices : ArrayIndices) :
    (g.visitValue store (g.below store levels) decl key field indices).events =
      (g.around store field key (f.genericOutline store enter decl key field)).flatMap (Part.events fill) := by
  refine events_visitValue hg (fun indices => ?_) indices
  rw [generic_eq, genericOutline, hs.target]
  cases f.target store decl key field with
  | value => exact (flatMap_events_map_event fill _).symm
  | obstacle why => rfl
  | payload typeName bytes => exact h typeName key bytes indices

theorem events_valueOutline {levels : Nat} {enter : String → Key → List UInt8 → List Part}
    (h : ∀ typeName key bytes indices, (g.enter (g.below store levels) typeName key bytes indices).events =
      (enter typeName key bytes).flatMap (Part.events (g.eventsAt store)))
    (decl : FieldDecl) (key : Key) (field : Wire.Field) (indices : ArrayIndices) :
    (g.visitValue store (g.below store levels) decl key field indices).events =
      (f.valueOutline path store levels enter decl key field).flatMap (Part.events (g.eventsAt store)) := by
  have hvisit := events_visitValue_enter hs hg h decl key field
  unfold valueOutline
  split
  · -- at the path itself the events are the same for all counts
    rw [List.flatMap_singleton, Part.events, eventsAt, hvisit, hvisit]
  · rename_i hk
    rw [hvisit, hs.around hk]

theorem events_enter (levels : Nat) (typeName : String) (key : Key) (bytes : List UInt8) (indices : ArrayIndices) :
    (g.enter (g.below store levels) typeName key bytes indices).events =
      (f.payloadOutline path store levels none typeName key bytes).flatMap (Part.events (g.eventsAt store)) := by
  induction levels generalizing typeName key bytes indices with
  | zero =>
    rw [payloadOutline, ← hs.maxDepth]
    rfl
  | succ levels ih =>
    rw [payloadOutline, below, enter, hs.schema]
    cases f.schema.find? typeName with
    | none => rfl
    | some m => exact events_walkMessage (events_valueOutline hs hg ih) none m key bytes indices

/-- The events of a flattening are those of the outline, with each gap filled by what the walk comes by there. -/
theorem events_run (bytes : List UInt8) (typeName : String) (allowed : Option (List Nat)) (t : Table) :
    (g.run bytes typeName allowed t).events =
      (f.outline path bytes typeName allowed t).flatMap (Part.events (g.eventsAt t.interned?)) := by
  rw [run, outline, payloadOutline, hs.schema]
  cases f.schema.find? typeName with
  | none => rfl
  | some m =>
    simp only [walk, hs.maxDepth]
    exact events_walkMessage (events_valueOutline hs hg (events_enter hs hg f.maxDepth)) allowed m Key.root bytes
      t.indices

/-- What the walk comes by in a gap: what the override at the path makes of the occurrence. -/
theorem eventsAt_eq (gap : Gap) :
    g.eventsAt store gap =
      (g.around store gap.field gap.key
        (f.genericOutline store (f.payloadOutline path store gap.levels none) gap.decl gap.key gap.field)).flatMap
        (Part.events (g.eventsAt store)) :=
  events_visitValue_enter hs hg (events_enter hs hg gap.levels) gap.decl gap.key gap.field Assoc.empty

end Steady

end Flattener

end TraceTables.Arguments
