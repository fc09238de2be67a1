import TraceTables.Proofs.Arguments.Run
import TraceTables.Proofs.Arguments.Pieces
import TraceTables.Proofs.Arguments.Unpacking
import TraceTables.Proofs.Wire.Streaming

/-! A message that is cut off. What the walk comes by in the fields in front of the cut is what it comes by there in the
whole message, overrides included, and a field that is cut in two gives nothing but the fault that it breaks off. -/

namespace TraceTables.Arguments

open Schema (FieldDecl MessageDecl)

/-- Occurrences of the first fields of a message are the first of its occurrences. -/
theorem occurrences_of_isPrefix {fs gs : List Wire.Field} (h : fs <+: gs) (m : MessageDecl)
    (allowed : Option (List Nat)) :
    occurrences m allowed Assoc.empty fs <+: occurrences m allowed Assoc.empty gs := by
  obtain ⟨more, rfl⟩ := h
  simp only [occurrences_eq_placed m allowed _ (Counts.track_empty m), List.flatMap_append, placed_append]
  exact List.prefix_append _ _

theorem Progress.events_inTurn_of_isPrefix {α : Type} (step : α → ArrayIndices → Progress) {as bs : List α}
    (h : as <+: bs) (indices : ArrayIndices) : (inTurn step as indices).events <+: (inTurn step bs indices).events := by
  obtain ⟨more, rfl⟩ := h
  rw [inTurn_append]
  exact List.prefix_append _ _

namespace Flattener

variable (f : Flattener) (store : Option InternedStore) (allowed : Option (List Nat)) (m : MessageDecl)

/-- What a walk comes by in the fields of a message that can be read. -/
def fieldEvents (bytes : List UInt8) (indices : ArrayIndices) : List Event :=
  (Progress.inTurn (f.visit store (f.below store f.maxDepth) Key.root)
    (occurrences m allowed Assoc.empty (Wire.fields bytes).values) indices).events

theorem events_walk (bytes : List UInt8) (indices : ArrayIndices) :
    (f.walk store allowed m bytes indices).events =
      f.fieldEvents store allowed m bytes indices ++ malformedEnd m Key.root (Wire.fields bytes).fault? := rfl

theorem fieldEvents_prefix (front rest : List UInt8) (indices : ArrayIndices) :
    f.fieldEvents store allowed m front indices <+: f.fieldEvents store allowed m (front ++ rest) indices :=
  Progress.events_inTurn_of_isPrefix _ (occurrences_of_isPrefix (Wire.fields_prefix front rest) m allowed) indices

end Flattener

/-- The front of a message gives the first of the rows that the whole gives. Its faults are the first of the faults of
the whole and, behind them, the one for a message that cannot be read to its end. With a whole that can be read there
is such a fault exactly if the front ends inside a field. -/
theorem truncation_keeps {f : Flattener} {typeName : String} {m : MessageDecl}
    (hm : f.schema.find? typeName = some m) (front rest : List UInt8) (allowed : Option (List Nat)) (t : Table) :
    let torn := ((Wire.fields front).fault?.map (Fault.malformed m.fullName Key.root.full)).toList
    f.emitted front typeName allowed t <+: f.emitted (front ++ rest) typeName allowed t ∧
      (∃ common, f.recorded front typeName allowed t = common ++ torn ∧
        common <+: f.recorded (front ++ rest) typeName allowed t) ∧
      ((Wire.fields (front ++ rest)).fault? = none → (torn ≠ [] ↔ ¬ Wire.Boundary front rest)) := by
  intro torn
  have hfront := f.fieldEvents_prefix t.interned? allowed m front rest t.indices
  refine ⟨?_, ⟨faultsOf (f.fieldEvents t.interned? allowed m front t.indices), ?_, ?_⟩, ?_⟩
  · simp only [Flattener.emitted, Flattener.run_of_find? _ _ _ hm, Flattener.events_walk, rowsOf_append,
      rowsOf_malformedEnd, List.append_nil]
    exact hfront.filterMap _
  · simp only [Flattener.recorded, Flattener.run_of_find? _ _ _ hm, Flattener.events_walk, faultsOf_append,
      faultsOf_malformedEnd, torn]
  · simp only [Flattener.recorded, Flattener.run_of_find? _ _ _ hm, Flattener.events_walk, faultsOf_append]
    exact (hfront.filterMap _).trans (List.prefix_append _ _)
  · intro hwhole
    rw [← Wire.fault?_eq_none_iff_boundary hwhole]
    cases hf : (Wire.fields front).fault? <;> simp [torn, hf]

/-! ### A cut inside a nested message -/

/-- What is left of the message in the end would be a message itself, but its length says otherwise. -/
theorem truncation_keeps_nested :
    let f := (Flattener.new (Schema.empty.declare sampleDecl)).override "s.a" counting
    let front : List UInt8 := [0x12, 2, 0x08, 2, 0x12, 4, 0x08, 6]
    let rest : List UInt8 := [0x08, 8, 0x08, 4]
    f.emitted front "T" none .empty = [⟨⟨"s.a", "s[0].a[0]"⟩, .int 1⟩] ∧
      f.recorded front "T" none .empty = [.malformed ".T" "" (.truncated 4 2)] ∧
      f.emitted front "T" none .empty <+: f.emitted (front ++ rest) "T" none .empty ∧
      ¬ Wire.Boundary front rest := by
  intro f front rest
  have hm : f.schema.find? "T" = some sampleDecl := rfl
  have hwhole : (Wire.fields (front ++ rest)).fault? = none := by cbv
  have hfront : (Wire.fields front).fault? = some (.truncated 4 2) := by cbv
  obtain ⟨hrows, -, htorn⟩ := truncation_keeps hm front rest none .empty
  refine ⟨by cbv, by cbv, hrows, (htorn hwhole).1 ?_⟩
  simp [hfront]

end TraceTables.Arguments
