import Mathlib.Data.List.Basic
import Mathlib.Data.List.Induction
import TraceTables.Proofs.Assoc
import TraceTables.Schema.Registry

/-! What a schema tells of its fields. Whatever is declared and extended, of the fields that were filed with a message
type under one number the latest counts, and no message type goes away. -/

namespace TraceTables.Schema

/-- The full name in the declaration that is kept under a name. -/
def fullName? (s : Schema) (name : String) : Option String := (s.messages.get? name).map (·.fullName)

/-- The field of a number in the message type that is kept under a name. -/
def field? (s : Schema) (name : String) (number : Nat) : Option FieldDecl :=
  (s.messages.get? name).bind (·.field? number)

/-- The schemas have the same message types, and these the same field for each number. -/
structure Same (s s' : Schema) : Prop where
  names : ∀ name, s.fullName? name = s'.fullName? name
  fields : ∀ name number, s.field? name number = s'.field? name number

theorem contains_eq (s : Schema) (name : String) : s.messages.contains name = (s.fullName? name).isSome := by
  simp [Assoc.contains, fullName?]

/-- A field under the name of the message type that it is filed with. -/
structure Filing where
  message : String
  field : FieldDecl

/-- The field that some filings give for a name and a number, the latest if there are several. -/
def latest (filings : List Filing) (name : String) (number : Nat) : Option FieldDecl :=
  ((filings.filter fun x => x.message = name ∧ x.field.number = number).getLast?).map (·.field)

theorem latest_append (xs ys : List Filing) (name : String) (number : Nat) :
    latest (xs ++ ys) name number = (latest ys name number).or (latest xs name number) := by
  unfold latest
  rw [List.filter_append, List.getLast?_append, Option.map_or]

theorem latest_singleton (x : Filing) (name : String) (number : Nat) :
    latest [x] name number = if x.message = name ∧ x.field.number = number then some x.field else none := by
  by_cases h : x.message = name ∧ x.field.number = number <;> simp [latest, h]

/-! ## Fields of one message type -/

namespace MessageDecl

theorem field?_addAll (m : MessageDecl) (fs : List FieldDecl) (number : Nat) :
    (m.addAll fs).field? number = ((fs.filter (·.number = number)).getLast?).or (m.field? number) := by
  induction fs using List.reverseRecOn with
  | nil => rfl
  | append_singleton fs f ih =>
    have hadd : m.addAll (fs ++ [f]) = (m.addAll fs).add f := by simp [addAll]
    rw [hadd, field?_add, ih, List.filter_append, List.filter_singleton]
    by_cases hf : f.number = number <;> simp [hf]

theorem field?_named (name : String) (number : Nat) : (named name).field? number = none := rfl

/-- Among the fields of a message type there is one for each number. -/
theorem getLast?_values (m : MessageDecl) (number : Nat) :
    (m.fields.values.filter (·.number = number)).getLast? = m.field? number := by
  have hmem : ∀ f, f ∈ m.fields.values.filter (·.number = number) → m.field? number = some f := by
    intro f hf
    obtain ⟨hv, hn⟩ := List.mem_filter.1 hf
    obtain ⟨⟨k, g⟩, hp, rfl⟩ := List.mem_map.1 hv
    have hg : m.fields.get? k = some g := m.fields.get?_of_mem hp
    have hk : k = number := (m.filed hg).symm.trans (by simpa using hn)
    exact hk ▸ hg
  cases hl : (m.fields.values.filter (·.number = number)).getLast? with
  | some f => exact (hmem f (List.mem_of_getLast? hl)).symm
  | none =>
    cases hf : m.field? number with
    | none => rfl
    | some f =>
      have hv : f ∈ m.fields.values := List.mem_map_of_mem (mem_of_valueAt hf)
      have hin : f ∈ m.fields.values.filter (·.number = number) :=
        List.mem_filter.2 ⟨hv, by simpa using m.filed hf⟩
      rw [List.getLast?_eq_none_iff.1 hl] at hin
      cases hin

end MessageDecl

/-! ## Declaring -/

/-- Declares a message type with some fields. -/
def declareFields (s : Schema) (name : String) (fs : List FieldDecl) : Schema :=
  s.declare ((MessageDecl.named name).addAll fs)

theorem get?_declare (s : Schema) (m : MessageDecl) (name : String) :
    (s.declare m).messages.get? name =
      if m.fullName = name then some (((s.messages.get? name).map (·.addAll m.fields.values)).getD m)
      else s.messages.get? name := by
  unfold declare
  by_cases h : m.fullName = name
  · subst h
    cases hs : s.messages.get? m.fullName <;> simp
  · cases hs : s.messages.get? m.fullName <;> simp [h]

theorem fullName?_declareFields (s : Schema) (name : String) (fs : List FieldDecl) (other : String) :
    (s.declareFields name fs).fullName? other =
      (s.fullName? other).or (if qualify name = other then some other else none) := by
  have hname : ((MessageDecl.named name).addAll fs).fullName = qualify name := by simp [MessageDecl.named]
  unfold fullName? declareFields
  rw [get?_declare, hname]
  by_cases h : qualify name = other
  · rw [if_pos h, if_pos h]
    cases s.messages.get? other with
    | none => simp only [Option.map_none, Option.getD_none, Option.map_some, hname, h, Option.none_or]
    | some old => simp
  · simp [h]

theorem field?_declareFields (s : Schema) (name : String) (fs : List FieldDecl) (other : String) (number : Nat) :
    (s.declareFields name fs).field? other number =
      (latest (fs.map (⟨qualify name, ·⟩)) other number).or (s.field? other number) := by
  have hname : ((MessageDecl.named name).addAll fs).fullName = qualify name := by simp [MessageDecl.named]
  have hnew : ((MessageDecl.named name).addAll fs).field? number = (fs.filter (·.number = number)).getLast? := by
    rw [MessageDecl.field?_addAll, MessageDecl.field?_named, Option.or_none]
  have hlatest : latest (fs.map (⟨qualify name, ·⟩)) other number =
      if qualify name = other then (fs.filter (·.number = number)).getLast? else none := by
    unfold latest
    rw [List.filter_map, List.getLast?_map, Option.map_map]
    by_cases h : qualify name = other
    · simp [h, Function.comp_def]
    · simp [h, Function.comp_def]
  unfold field? declareFields
  rw [get?_declare, hname, hlatest]
  by_cases h : qualify name = other
  · cases hs : s.messages.get? other with
    | none => simp [h, hnew]
    | some old =>
      rw [if_pos h, if_pos h, Option.map_some, Option.getD_some, Option.bind_some, Option.bind_some,
        MessageDecl.field?_addAll, MessageDecl.getLast?_values, hnew]
  · simp [h]

/-! ## Extending -/

/-- Files a field with a message type, if that is there. -/
def file (s : Schema) (x : Filing) : Schema :=
  match s.messages.get? x.message with
  | none => s
  | some m => ⟨s.messages.insert x.message (m.add x.field)⟩

theorem extend_eq (s : Schema) (extendee : String) (f : FieldDecl) :
    s.extend extendee f =
      if s.messages.contains (qualify extendee) then .ok (s.file ⟨qualify extendee, { f with extension := true }⟩)
      else .error (.unknownExtendee f.name (qualify extendee)) := by
  unfold extend file Assoc.contains
  cases s.messages.get? (qualify extendee) <;> rfl

theorem fullName?_file (s : Schema) (x : Filing) (name : String) : (s.file x).fullName? name = s.fullName? name := by
  unfold file fullName?
  cases hs : s.messages.get? x.message with
  | none => rfl
  | some m =>
    simp only [Assoc.get?_insert]
    split
    · rename_i h
      rw [← h, hs]
      rfl
    · rfl

theorem field?_file {s : Schema} {x : Filing} (hx : s.messages.contains x.message = true) (name : String)
    (number : Nat) : (s.file x).field? name number = (latest [x] name number).or (s.field? name number) := by
  obtain ⟨m, hm⟩ := Option.isSome_iff_exists.1 hx
  rw [latest_singleton]
  unfold file field?
  rw [hm]
  by_cases hn : x.message = name
  · subst hn
    by_cases hk : x.field.number = number <;> simp [hk, hm]
  · simp [hn]

end TraceTables.Schema
