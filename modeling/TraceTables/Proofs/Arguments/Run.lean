import TraceTables.Arguments.Flattener

/-! What one flattening comes by: the rows that it adds to its table, and the faults that its status sums up. -/

namespace TraceTables.Arguments

open Schema (MessageDecl)

namespace Flattener

variable (f : Flattener) (bytes : List UInt8) (typeName : String) (allowed : Option (List Nat)) (t : Table)

/-- The walk of a flattening. A type that the schema does not have is a fault, and then there is nothing else. -/
def run : Progress :=
  match f.schema.find? typeName with
  | none => .fault (.unknownMessage typeName) t.indices
  | some m => f.walk t.interned? allowed m bytes t.indices

/-- The rows that are added, in their order. -/
def emitted : List Row := rowsOf (f.run bytes typeName allowed t).events

/-- The faults, in their order. -/
def recorded : List Fault := faultsOf (f.run bytes typeName allowed t).events

theorem flatten_eq_run :
    f.flatten bytes typeName allowed t =
      (Fault.status (f.recorded bytes typeName allowed t),
        { t with rows := t.rows ++ f.emitted bytes typeName allowed t,
                 indices := (f.run bytes typeName allowed t).indices }) := by
  unfold flatten recorded emitted run
  cases f.schema.find? typeName with
  | none =>
    have hrows : rowsOf [.fault (.unknownMessage typeName)] = [] := rfl
    simp only [Progress.fault, hrows, List.append_nil]
    rfl
  | some m => rfl

variable {f typeName} in
theorem run_of_find? {m : MessageDecl} (hm : f.schema.find? typeName = some m) :
    f.run bytes typeName allowed t = f.walk t.interned? allowed m bytes t.indices := by
  simp only [run, hm]

end Flattener

theorem rowsOf_malformedEnd (m : MessageDecl) (key : Key) (fault? : Option Wire.Fault) :
    rowsOf (Flattener.malformedEnd m key fault?) = [] := by
  cases fault? <;> rfl

theorem faultsOf_malformedEnd (m : MessageDecl) (key : Key) (fault? : Option Wire.Fault) :
    faultsOf (Flattener.malformedEnd m key fault?) = (fault?.map (.malformed m.fullName key.full)).toList := by
  cases fault? <;> rfl

end TraceTables.Arguments
