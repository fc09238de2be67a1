import TraceTables.Proofs.Schema.Filing

/-! Schemas that are put together call by call. Each call files fields with a message type, or is turned down and does
nothing. Of all that was filed under one name and number the last counts. -/

namespace TraceTables.Schema

/-- A message type with fields in the order in which they were added to it, or an extension of a message type. -/
inductive Call where
  | message (name : String) (fields : List FieldDecl)
  | extension (extendee : String) (field : FieldDecl)

/-- The schema after a call, and the fault if the call is turned down. -/
def perform (s : Schema) : Call → Schema × Option Fault
  | .message name fields => (s.declare ((MessageDecl.named name).addAll fields), none)
  | .extension extendee field =>
    match s.extend extendee field with
    | .error e => (s, some e)
    | .ok s' => (s', none)

def build (calls : List Call) : Schema := calls.foldl (fun s c => (s.perform c).1) empty

def acceptedFrom (s : Schema) : List Call → List Call
  | [] => []
  | c :: calls => (if (s.perform c).2.isNone then [c] else []) ++ acceptedFrom (s.perform c).1 calls

/-- The calls that are not turned down, in order. -/
def accepted (calls : List Call) : List Call := acceptedFrom empty calls

/-- What a call files if it is not turned down, in order. -/
def Call.filings : Call → List Filing
  | .message name fields => fields.map (⟨qualify name, ·⟩)
  | .extension extendee field => [⟨qualify extendee, { field with extension := true }⟩]

/-- The full name of the message type that a call declares. -/
def Call.declared? : Call → Option String
  | .message name _ => some (qualify name)
  | .extension .. => none

/-! ## One call -/

theorem perform_extension (s : Schema) (extendee : String) (f : FieldDecl) :
    s.perform (.extension extendee f) =
      if (s.find? extendee).isSome then (s.file ⟨qualify extendee, { f with extension := true }⟩, none)
      else (s, some (.unknownExtendee f.name (qualify extendee))) := by
  have hcontains : s.messages.contains (qualify extendee) = (s.find? extendee).isSome := rfl
  rw [perform, extend_eq, hcontains]
  cases (s.find? extendee).isSome <;> rfl

theorem fullName?_perform (s : Schema) (c : Call) (name : String) :
    (s.perform c).1.fullName? name =
      (s.fullName? name).or (if c.declared? = some name then some name else none) := by
  cases c with
  | message y fields =>
    have hname : (Call.message y fields).declared? = some name ↔ qualify y = name := Option.some_inj
    rw [if_congr hname rfl rfl]
    exact fullName?_declareFields s y fields name
  | extension extendee f =>
    have hnone : (Call.extension extendee f).declared? ≠ some name := nofun
    rw [if_neg hnone, Option.or_none, perform_extension]
    split
    · exact fullName?_file s _ name
    · rfl

theorem field?_perform (s : Schema) (c : Call) (name : String) (number : Nat) :
    (s.perform c).1.field? name number =
      (if (s.perform c).2.isNone then latest c.filings name number else none).or (s.field? name number) := by
  cases c with
  | message y fields => exact field?_declareFields s y fields name number
  | extension extendee f =>
    rw [perform_extension]
    split
    · rename_i h
      have hcontains : s.messages.contains (qualify extendee) = true := h
      exact field?_file (x := ⟨qualify extendee, _⟩) hcontains name number
    · rfl

/-! ## All calls -/

theorem build_concat (calls : List Call) (c : Call) : build (calls ++ [c]) = ((build calls).perform c).1 := by
  simp [build]

theorem accepted_concat (calls : List Call) (c : Call) :
    accepted (calls ++ [c]) = accepted calls ++ if ((build calls).perform c).2.isNone then [c] else [] := by
  have hfrom : ∀ s, acceptedFrom s (calls ++ [c]) = acceptedFrom s calls ++
      if ((calls.foldl (fun s c => (s.perform c).1) s).perform c).2.isNone then [c] else [] := by
    induction calls with
    | nil => simp [acceptedFrom]
    | cons d calls ih =>
      intro s
      rw [List.cons_append, acceptedFrom, acceptedFrom, ih, List.foldl_cons, List.append_assoc]
  exact hfrom empty

theorem fullName?_build (calls : List Call) (name : String) :
    (build calls).fullName? name = if some name ∈ calls.map Call.declared? then some name else none := by
  induction calls using List.reverseRecOn with
  | nil => rfl
  | append_singleton calls c ih =>
    rw [build_concat, fullName?_perform, ih]
    simp only [List.map_append, List.map_singleton, List.mem_append, List.mem_singleton, @eq_comm _ (some name)]
    by_cases h : some name ∈ calls.map Call.declared? <;> by_cases hc : c.declared? = some name <;> simp [h, hc]

theorem field?_build (calls : List Call) (name : String) (number : Nat) :
    (build calls).field? name number = latest ((accepted calls).flatMap Call.filings) name number := by
  induction calls using List.reverseRecOn with
  | nil => rfl
  | append_singleton calls c ih =>
    rw [build_concat, field?_perform, ih, accepted_concat, List.flatMap_append, latest_append]
    split
    · rw [List.flatMap_singleton]
    · rfl

/-- A message type is kept under its own full name. -/
theorem fullName_of_get?_build {calls : List Call} {name : String} {m : MessageDecl}
    (h : (build calls).messages.get? name = some m) : m.fullName = name ∧ some name ∈ calls.map Call.declared? := by
  have hname : (build calls).fullName? name = some m.fullName := by rw [fullName?, h, Option.map_some]
  rw [fullName?_build] at hname
  split at hname
  · rename_i hm
    exact ⟨(Option.some.inj hname).symm, hm⟩
  · cases hname

theorem isSome_find?_build (calls : List Call) (x : String) :
    ((build calls).find? x).isSome = true ↔ some (qualify x) ∈ calls.map Call.declared? := by
  have hfull : ((build calls).find? x).isSome = ((build calls).fullName? (qualify x)).isSome := by
    rw [fullName?, Option.isSome_map, find?]
  rw [hfull, fullName?_build]
  by_cases h : some (qualify x) ∈ calls.map Call.declared? <;> simp [h]

theorem mem_map_declared?_iff {calls : List Call} {name : String} :
    some name ∈ calls.map Call.declared? ↔ ∃ y fields, Call.message y fields ∈ calls ∧ qualify y = name := by
  rw [List.mem_map]
  constructor
  · rintro ⟨c, hc, hd⟩
    cases c with
    | message y fields => exact ⟨y, fields, hc, Option.some.inj hd⟩
    | extension extendee f => cases hd
  · rintro ⟨y, fields, hc, rfl⟩
    exact ⟨_, hc, rfl⟩

/-! ## What stays -/

theorem isSome_field?_perform {s : Schema} {name : String} {number : Nat}
    (h : (s.field? name number).isSome = true) (c : Call) :
    ((s.perform c).1.field? name number).isSome = true := by
  rw [field?_perform, Option.isSome_or, h, Bool.or_true]

/-- What each call keeps is kept by any number of them. -/
theorem keeps_build {P : Schema → Prop} (hstep : ∀ s c, P s → P (s.perform c).1) {calls : List Call}
    (h : P (build calls)) (more : List Call) : P (build (calls ++ more)) := by
  induction more using List.reverseRecOn with
  | nil => rwa [List.append_nil]
  | append_singleton more c ih =>
    rw [← List.append_assoc, build_concat]
    exact hstep _ c ih

/-- A declaration leaves the numbers alone that it does not use. -/
theorem field?_perform_message_of_unused (s : Schema) (y : String) {fields : List FieldDecl} {number : Nat}
    (h : ∀ f ∈ fields, f.number ≠ number) (name : String) :
    (s.perform (.message y fields)).1.field? name number = s.field? name number := by
  have hnone : latest (Call.message y fields).filings name number = none := by
    have hfilter :
        (Call.message y fields).filings.filter (fun x => x.message = name ∧ x.field.number = number) = [] := by
      simpa [Call.filings, List.filter_eq_nil_iff] using fun f hf _ => h f hf
    rw [latest, hfilter]
    rfl
  rw [field?_perform, hnone, ite_self, Option.none_or]

/-- A schema that is put together from nothing has the message types that were declared, whether with or without the dot
in front, each under its own full name. A field is the latest of those that were filed under its name and number, by a
declaration as it is and by an accepted extension as an extension. An extension is turned down, and then changes
nothing, exactly if its message type was not declared before. Nothing goes away: a declaration that comes again leaves
the fields whose numbers it does not use, and every name and number that is there stays. -/
theorem latest_call_counts (calls : List Call) :
    let s := build calls
    (∀ x, (s.find? x).isSome = true ↔ ∃ y fields, Call.message y fields ∈ calls ∧ qualify y = qualify x) ∧
      (∀ x number, (s.find? x).bind (·.field? number) =
        latest ((accepted calls).flatMap Call.filings) (qualify x) number) ∧
      (∀ name m, s.messages.get? name = some m → m.fullName = name ∧ name.toList.head? = some '.' ∧
        ∀ number f, m.field? number = some f → f.number = number) ∧
      (∀ x f, if (s.find? x).isSome then (s.perform (.extension x f)).2 = none
        else s.perform (.extension x f) = (s, some (.unknownExtendee f.name (qualify x)))) ∧
      (∀ y fields number, (∀ f ∈ fields, f.number ≠ number) → ∀ x,
        ((s.perform (.message y fields)).1.find? x).bind (·.field? number) = (s.find? x).bind (·.field? number)) ∧
      ∀ more x, let later := build (calls ++ more)
        ((s.find? x).isSome = true → (later.find? x).isSome = true) ∧
          ∀ number, ((s.find? x).bind (·.field? number)).isSome = true →
            ((later.find? x).bind (·.field? number)).isSome = true := by
  intro s
  refine ⟨?_, ?_, ?_, ?_, ?_, ?_⟩
  · intro x
    rw [isSome_find?_build, mem_map_declared?_iff]
  · intro x number
    exact field?_build calls (qualify x) number
  · intro name m hm
    obtain ⟨hname, hdeclared⟩ := fullName_of_get?_build hm
    obtain ⟨y, fields, -, rfl⟩ := mem_map_declared?_iff.1 hdeclared
    exact ⟨hname, head?_qualify y, fun number f hf => m.filed hf⟩
  · intro x f
    rw [perform_extension]
    split <;> rfl
  · intro y fields number h x
    exact field?_perform_message_of_unused s y h (qualify x)
  · intro more x
    refine ⟨?_, fun number => ?_⟩
    · rw [isSome_find?_build, isSome_find?_build, List.map_append]
      exact List.mem_append_left _
    · intro h
      exact keeps_build (P := fun s => (s.field? (qualify x) number).isSome = true)
        (fun _ c hs => isSome_field?_perform hs c) h more

end TraceTables.Schema
