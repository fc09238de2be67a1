import TraceTables.Program
import TraceTables.Proofs.Arguments.Accounting

/-! When the status is a bare unknown type, with which the command `args` ends without its result. It is so for a type
of the whole message that the schema does not have, and then nothing has been done. It is also so if a message of such
a type is all that fails in the walk. -/

namespace TraceTables.Arguments

open Schema (FieldDecl MessageDecl)

/-- All that fails in the visits is one message, or one interned payload, of the unknown type `name`. -/
def OnlyUnknown (visits : List Visit) (name : String) : Prop :=
  ∃ before key after, visits = before ++ .shut key (.unknown name) :: after ∧
    ∀ v ∈ before ++ after, faultsOf v.events = []

theorem faultsOf_flatMap (vs : List Visit) :
    faultsOf (vs.flatMap Visit.events) = vs.flatMap fun v => faultsOf v.events := by
  unfold faultsOf
  rw [List.filterMap_flatMap]

/-- A visit has at most one fault. -/
theorem Visit.faultsOf_events (v : Visit) : faultsOf v.events = [] ∨ ∃ e, faultsOf v.events = [e] := by
  have ha := v.accounted
  cases v with
  | scalar decl key value =>
    rcases ha with ⟨x, hx⟩ | hx <;> rw [hx]
    · exact Or.inl rfl
    · exact Or.inr ⟨_, rfl⟩
  | entered m key => exact Or.inl rfl
  | unsupported | shut | torn => exact Or.inr ⟨_, rfl⟩

theorem Visit.eq_shut_of_unknown {v : Visit} {name : String} (h : faultsOf v.events = [.unknownMessage name]) :
    ∃ key, v = .shut key (.unknown name) := by
  have ha := v.accounted
  cases v with
  | scalar decl key value => rcases ha with ⟨x, hx⟩ | hx <;> rw [hx] at h <;> cases h
  | shut key why =>
    cases why with
    | unknown typeName =>
      cases h
      exact ⟨key, rfl⟩
    | mismatch | missing | tooDeep => cases h
  | unsupported | entered | torn => cases h

theorem faultsOf_eq_unknown_iff (vs : List Visit) (name : String) :
    faultsOf (vs.flatMap Visit.events) = [.unknownMessage name] ↔ OnlyUnknown vs name := by
  rw [faultsOf_flatMap]
  refine ⟨?_, ?_⟩
  · intro h
    induction vs with
    | nil => cases h
    | cons v vs ih =>
      rw [List.flatMap_cons] at h
      rcases v.faultsOf_events with hv | ⟨e, hv⟩
      · rw [hv, List.nil_append] at h
        obtain ⟨before, key, after, rfl, hrest⟩ := ih h
        refine ⟨v :: before, key, after, rfl, ?_⟩
        intro u hu
        rcases List.mem_cons.1 hu with rfl | hu
        · exact hv
        · exact hrest u hu
      · rw [hv, List.singleton_append, List.cons.injEq] at h
        obtain ⟨rfl, hrest⟩ := h
        obtain ⟨key, rfl⟩ := Visit.eq_shut_of_unknown hv
        exact ⟨[], key, vs, rfl, List.flatMap_eq_nil_iff.1 hrest⟩
  · rintro ⟨before, key, after, rfl, h⟩
    have hb : before.flatMap (fun v => faultsOf v.events) = [] :=
      List.flatMap_eq_nil_iff.2 fun v hv => h v (List.mem_append_left _ hv)
    have ha : after.flatMap (fun v => faultsOf v.events) = [] :=
      List.flatMap_eq_nil_iff.2 fun v hv => h v (List.mem_append_right _ hv)
    rw [List.flatMap_append, List.flatMap_cons, hb, ha]
    rfl

/-- With the message's type unknown, or with a message of an unknown type as all that fails, the status is a bare
unknown type. -/
def Withheld (f : Flattener) (store : Option InternedStore) (bytes : List UInt8) (typeName : String)
    (allowed : Option (List Nat)) (name : String) : Prop :=
  f.schema.find? typeName = none ∧ name = typeName ∨
    ∃ m, f.schema.find? typeName = some m ∧ OnlyUnknown (f.visits store allowed m bytes) name

section Plain

variable {f : Flattener} (hf : f.overrides = Assoc.empty)
include hf

theorem status_unknown_iff (bytes : List UInt8) (typeName : String) (allowed : Option (List Nat)) (t : Table)
    (name : String) :
    (f.flatten bytes typeName allowed t).1 = .error (.unknownMessage name) ↔
      Withheld f t.interned? bytes typeName allowed name := by
  have hs : (Fault.unknownMessage name).Single := by rintro _ _ ⟨⟩
  unfold Withheld Flattener.flatten
  cases hm : f.schema.find? typeName with
  | none => simp [eq_comm]
  | some m =>
    simp only [reduceCtorEq, false_and, false_or, Option.some.injEq, exists_eq_left']
    rw [Flattener.walk_eq hf, Fault.status_eq_error_iff hs, faultsOf_eq_unknown_iff]

theorem rows_flatten {typeName : String} {m : MessageDecl} (hm : f.schema.find? typeName = some m)
    (bytes : List UInt8) (allowed : Option (List Nat)) :
    (f.flatten bytes typeName allowed .empty).2.rows =
      rowsOf ((f.visits none allowed m bytes).flatMap Visit.events) := by
  simp only [Flattener.flatten, hm, Flattener.walk_eq hf]
  rfl

end Plain

/-- The text of a status in the result of `args`. -/
def errorJson : Except Fault Unit → Json
  | .ok () => .null
  | .error e => .string e.message

theorem argumentsJson_eq_error_iff (f : Flattener) (bytes : List UInt8) (typeName : String)
    (allowed : Option (List Nat)) (e : Fault) :
    Program.argumentsJson f bytes typeName allowed = .error e ↔
      ∃ name, e = .unknownMessage name ∧ (f.flatten bytes typeName allowed .empty).1 = .error e := by
  simp only [Program.argumentsJson]
  split
  · rename_i name hr
    rw [hr]
    refine ⟨?_, ?_⟩
    · rintro ⟨⟩
      exact ⟨name, rfl, rfl⟩
    · rintro ⟨_, -, h⟩
      cases h
      rfl
  · rename_i e' hno hr
    rw [hr]
    refine ⟨?_, ?_⟩
    · intro h
      cases h
    · rintro ⟨name, rfl, h⟩
      cases h
      exact (hno name rfl).elim
  · rename_i hr
    rw [hr]
    refine ⟨?_, ?_⟩
    · intro h
      cases h
    · rintro ⟨_, -, h⟩
      cases h

theorem argumentsJson_eq_ok {f : Flattener} {bytes : List UInt8} {typeName : String} {allowed : Option (List Nat)}
    (h : ∀ name, (f.flatten bytes typeName allowed .empty).1 ≠ .error (.unknownMessage name)) :
    Program.argumentsJson f bytes typeName allowed =
      .ok (.object [("type", .string typeName),
        ("args", .array ((f.flatten bytes typeName allowed .empty).2.rows.map Row.toJson)),
        ("error", errorJson (f.flatten bytes typeName allowed .empty).1)]) := by
  simp only [Program.argumentsJson]
  split
  · rename_i name hr
    exact absurd hr (h name)
  · rename_i e hno hr
    rw [hr]
    rfl
  · rename_i hr
    rw [hr]
    rfl

/-- Without overrides the status is a bare unknown type exactly if the message's own type is not known, which leaves
the table as it was, or if a message of an unknown type is all that fails in the walk. In both cases, and in no other,
`args` ends without a result; in all others the result has every row of the walk. -/
theorem argumentsJson_withheld_iff (schema : Schema) (maxDepth : Nat) (references : Assoc String Reference)
    (bytes : List UInt8) (typeName : String) (allowed : Option (List Nat)) (t : Table) :
    let f : Flattener := ⟨schema, maxDepth, Assoc.empty, references⟩
    (∀ name, (f.flatten bytes typeName allowed t).1 = .error (.unknownMessage name) ↔
      Withheld f t.interned? bytes typeName allowed name) ∧
    (schema.find? typeName = none → (f.flatten bytes typeName allowed t).2 = t) ∧
    (∀ e, Program.argumentsJson f bytes typeName allowed = .error e ↔
      ∃ name, e = .unknownMessage name ∧ Withheld f none bytes typeName allowed name) ∧
    ∀ m, schema.find? typeName = some m →
      (∀ name, ¬ OnlyUnknown (f.visits none allowed m bytes) name) →
        Program.argumentsJson f bytes typeName allowed =
          .ok (.object [("type", .string typeName),
            ("args", .array ((rowsOf ((f.visits none allowed m bytes).flatMap Visit.events)).map Row.toJson)),
            ("error", errorJson (f.flatten bytes typeName allowed .empty).1)]) := by
  intro f
  have hf : f.overrides = Assoc.empty := rfl
  refine ⟨status_unknown_iff hf bytes typeName allowed t, ?_, ?_, ?_⟩
  · intro hm
    have hm' : f.schema.find? typeName = none := hm
    simp [Flattener.flatten, hm']
  · intro e
    rw [argumentsJson_eq_error_iff]
    refine ⟨?_, ?_⟩
    · rintro ⟨name, rfl, h⟩
      exact ⟨name, rfl, (status_unknown_iff hf bytes typeName allowed .empty name).1 h⟩
    · rintro ⟨name, rfl, h⟩
      exact ⟨name, rfl, (status_unknown_iff hf bytes typeName allowed .empty name).2 h⟩
  · intro m hm hno
    rw [← rows_flatten hf hm]
    refine argumentsJson_eq_ok fun name h => ?_
    rcases (status_unknown_iff hf bytes typeName allowed .empty name).1 h with ⟨hn, -⟩ | ⟨m', hm', ho⟩
    · cases hn.symm.trans hm
    · cases hm.symm.trans hm'
      exact hno name ho

/-- A message type with a number and a message of a type that is not declared. -/
def danglingSchema : Schema :=
  Schema.empty.declare <| (MessageDecl.named "T").addAll
    [⟨"a", 1, .int32, none, false, false⟩, ⟨"x", 2, .message, some ".X", false, false⟩]

/-- The type of the message is known and its number has a row, but there is no result. -/
theorem argumentsJson_withheld_dangling :
    (danglingSchema.find? "T").isSome = true ∧
      ((Flattener.new danglingSchema).flatten [0x08, 5, 0x12, 0] "T" none .empty).2.rows =
        [⟨⟨"a", "a"⟩, .int 5⟩] ∧
      Program.argumentsJson (Flattener.new danglingSchema) [0x08, 5, 0x12, 0] "T" none =
        .error (.unknownMessage ".X") := by
  refine ⟨rfl, ?_, ?_⟩ <;> cbv

end TraceTables.Arguments
