import Mathlib
import TraceTables.Proofs.Arguments.Visits

/-! Nothing is lost without a trace. What the walk comes by is accounted for one by one, and the status tells of all
faults: whether there are any, which one it is if it is alone, and else the earliest of them and their number. -/

namespace TraceTables.Arguments

open Schema (FieldDecl MessageDecl)

/-- A fault of its own, not the sum of several. -/
def Fault.Single (e : Fault) : Prop := ∀ first count, e ≠ .several first count

theorem Fault.status_eq_ok_iff (es : List Fault) : Fault.status es = .ok () ↔ es = [] := by
  rcases es with _ | ⟨e, _ | ⟨e', es⟩⟩ <;> simp [Fault.status]

theorem Fault.status_eq_error_iff {e : Fault} (he : e.Single) (es : List Fault) :
    Fault.status es = .error e ↔ es = [e] := by
  rcases es with _ | ⟨a, _ | ⟨b, es⟩⟩
  · simp [Fault.status]
  · simp [Fault.status]
  · constructor
    · intro h
      cases h
      exact absurd rfl (he _ _)
    · intro h
      cases h

theorem Fault.status_eq_several_iff {es : List Fault} (hes : ∀ e ∈ es, e.Single) (first : Fault) (count : Nat) :
    Fault.status es = .error (.several first count) ↔ es.head? = some first ∧ es.length = count ∧ 2 ≤ count := by
  rcases es with _ | ⟨a, _ | ⟨b, es⟩⟩
  · simp [Fault.status]
  · constructor
    · intro h
      cases h
      exact (hes (.several first count) (by simp) first count rfl).elim
    · rintro ⟨-, rfl, h⟩
      simp at h
  · constructor
    · intro h
      cases h
      simp
    · rintro ⟨h, rfl, -⟩
      cases h
      rfl

namespace Visit

/-- What becomes of a visit: a scalar gives a row or a fault, what cannot be entered or read gives a fault, and a
message that is entered gives nothing of its own. -/
def Accounted (v : Visit) : Prop :=
  match v with
  | scalar decl key value =>
    (∃ x, v.events = [.row ⟨key, x⟩]) ∨ v.events = [.fault (.wireMismatch key.full decl.type value.wireType)]
  | unsupported decl key => v.events = [.fault (.unsupported key.full decl.type)]
  | entered _ _ => v.events = []
  | shut key why => v.events = [.fault (why.fault key)]
  | torn typeName key source => v.events = [.fault (.malformed typeName key.full source)]

theorem accounted (v : Visit) : v.Accounted := by
  cases v with
  | scalar decl key value =>
    unfold Accounted events
    cases hs : scalar? decl.type value with
    | some x => simp [hs]
    | none => simp [hs]
  | unsupported | entered | shut | torn => rfl

theorem single_of_mem_events {v : Visit} {e : Fault} (h : .fault e ∈ v.events) : e.Single := by
  intro first count
  cases v with
  | scalar decl key value =>
    rcases (scalar decl key value).accounted with ⟨x, hx⟩ | hx <;> rw [hx] at h <;> cases List.mem_singleton.1 h
    rintro ⟨⟩
  | unsupported decl key =>
    cases List.mem_singleton.1 h
    rintro ⟨⟩
  | entered m key => cases h
  | shut key why =>
    cases List.mem_singleton.1 h
    cases why <;> rintro ⟨⟩
  | torn typeName key source =>
    cases List.mem_singleton.1 h
    rintro ⟨⟩

end Visit

theorem mem_faultsOf {e : Fault} {events : List Event} : e ∈ faultsOf events ↔ .fault e ∈ events := by
  unfold faultsOf
  rw [List.mem_filterMap]
  refine ⟨?_, ?_⟩
  · rintro ⟨_ | e', he, h⟩ <;> cases h
    exact he
  · intro h
    exact ⟨.fault e, h, rfl⟩

theorem single_of_mem_visits {vs : List Visit} : ∀ e ∈ faultsOf (vs.flatMap Visit.events), e.Single := by
  intro e he
  obtain ⟨v, -, hv⟩ := List.mem_flatMap.1 (mem_faultsOf.1 he)
  exact Visit.single_of_mem_events hv

/-- The events of a walk without overrides are those of its visits, each of which is accounted for. The rows of them
are added to the table, and the status tells whether there are faults, the only one, or the first and their number. -/
theorem flatten_accounts {f : Flattener} (hf : f.overrides = Assoc.empty) {typeName : String} {m : MessageDecl}
    (hm : f.schema.find? typeName = some m) (allowed : Option (List Nat)) (bytes : List UInt8) (t : Table) :
    let visits := f.visits t.interned? allowed m bytes
    let events := visits.flatMap Visit.events
    let r := f.flatten bytes typeName allowed t
    (f.walk t.interned? allowed m bytes t.indices).events = events ∧ (∀ v ∈ visits, v.Accounted) ∧
      r.2 = { t with rows := t.rows ++ rowsOf events } ∧
      (r.1 = .ok () ↔ faultsOf events = []) ∧
      (∀ e : Fault, e.Single → (r.1 = .error e ↔ faultsOf events = [e])) ∧
      ∀ first count, r.1 = .error (.several first count) ↔
        (faultsOf events).head? = some first ∧ (faultsOf events).length = count ∧ 2 ≤ count := by
  intro visits events r
  have hw : f.walk t.interned? allowed m bytes t.indices = ⟨events, t.indices⟩ :=
    Flattener.walk_eq hf allowed m bytes t.indices
  have hr : r = (Fault.status (faultsOf events), { t with rows := t.rows ++ rowsOf events }) := by
    simp only [r, Flattener.flatten, hm, hw]
  refine ⟨by rw [hw], fun v _ => v.accounted, by rw [hr], ?_, ?_, ?_⟩ <;> rw [hr]
  · exact Fault.status_eq_ok_iff _
  · intro e he
    exact Fault.status_eq_error_iff he _
  · exact Fault.status_eq_several_iff single_of_mem_visits

/-- A message type with a number, bytes and messages of its own type. -/
def nestedDecl : MessageDecl :=
  (MessageDecl.named "T").addAll
    [⟨"a", 1, .int32, none, false, false⟩, ⟨"b", 2, .bytes, none, false, false⟩,
     ⟨"s", 3, .message, some ".T", true, false⟩]

/-- A row, a number of another wire type, bytes, and a message with a row that breaks off behind it. -/
theorem flatten_accounts_nested :
    (Schema.empty.declare nestedDecl).find? "T" = some nestedDecl ∧
      ((Flattener.new (Schema.empty.declare nestedDecl)).flatten
        [0x08, 5, 0x0D, 0, 0, 0, 0, 0x12, 0, 0x1A, 3, 0x08, 7, 0x08] "T" none .empty).1 =
          .error (.several (.wireMismatch "a" .int32 .fixed32) 3) := by
  have hm : (Schema.empty.declare nestedDecl).find? "T" = some nestedDecl := rfl
  have hf : (Flattener.new (Schema.empty.declare nestedDecl)).overrides = Assoc.empty := rfl
  obtain ⟨-, -, -, -, -, h⟩ :=
    flatten_accounts hf hm none [0x08, 5, 0x0D, 0, 0, 0, 0, 0x12, 0, 0x1A, 3, 0x08, 7, 0x08] .empty
  exact ⟨hm, (h _ 3).2 ⟨by cbv, by cbv, by decide⟩⟩

end TraceTables.Arguments
