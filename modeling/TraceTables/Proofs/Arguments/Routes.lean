import TraceTables.Proofs.Arguments.Damage
import TraceTables.Proofs.Arguments.Run

/-! The events of a walk without overrides, each with the route on which the walk came to it. A route goes from field to
field, of a message of some type each, and through interned payloads as through messages. It gives the key of what is
found at its end, and it is one step longer for each message that the walk has entered. -/

namespace TraceTables.Arguments

open Schema (FieldDecl MessageDecl)

/-- A step into a field of a message, with the index of the value if the field is repeated. -/
structure Step where
  /-- the full name of the message's type -/
  typeName : String
  decl : FieldDecl
  index : Option Nat

def Step.segment (s : Step) : Segment := ⟨s.decl.name, s.index⟩

/-- The key at the end of a route. -/
def routeKey (route : List Step) : Key := Key.ofPath (route.map Step.segment)

theorem routeKey_concat (route : List Step) (s : Step) :
    routeKey (route ++ [s]) = (routeKey route).field s.decl.name s.index := by
  rw [routeKey, List.map_append, List.map_singleton]
  exact Key.ofPath_concat _ _ _

structure Finding where
  route : List Step
  event : Event

def Finding.row? (x : Finding) : Option Row := x.event.row?

def Finding.fault? (x : Finding) : Option Fault := x.event.fault?

/-- What becomes of a visit at the end of a route. -/
def found (route : List Step) (v : Visit) : List Finding := v.events.map (⟨route, ·⟩)

/-- The findings at the occurrences of a message, given those at a value. -/
def occurrenceFindings (inside : Step → Wire.Field → List Finding) (typeName : String) (route : List Step) :
    Occurrence → List Finding
  | .value decl index field => inside ⟨typeName, decl, index⟩ field
  | .broken decl e =>
    let here := route ++ [⟨typeName, decl, none⟩]
    found here (.torn ("packed " ++ decl.type.name) (routeKey here) e)

def messageFindings (inside : Step → Wire.Field → List Finding) (allowed : Option (List Nat)) (typeName : String)
    (m : MessageDecl) (route : List Step) (payload : List UInt8) : List Finding :=
  let r := Wire.fields payload
  (placed [] (r.values.flatMap (pieces m allowed))).flatMap (occurrenceFindings inside typeName route) ++
    (r.fault?.map (.torn m.fullName (routeKey route))).toList.flatMap (found route)

namespace Flattener

/-- The findings at a value, given those in the payload of a message type. -/
def valueFindings (f : Flattener) (store : Option InternedStore)
    (enter : List Step → String → List UInt8 → List Finding) (route : List Step) (s : Step) (field : Wire.Field) :
    List Finding :=
  let here := route ++ [s]
  match f.target store s.decl (routeKey here) field with
  | .value =>
    if s.decl.type = .bytes ∨ s.decl.type = .group then found here (.unsupported s.decl (routeKey here))
    else found here (.scalar s.decl (routeKey here) field.value)
  | .obstacle why => found here (.shut (routeKey here) why)
  | .payload typeName bytes => enter here typeName bytes

/-- The findings in a payload of a message type, with the number of messages that may be entered one inside the other,
itself among them. Only its own fields are subject to the list of allowed numbers. -/
def payloadFindings (f : Flattener) (store : Option InternedStore) :
    Nat → Option (List Nat) → List Step → String → List UInt8 → List Finding
  | 0, _, route, _, _ => found route (.shut (routeKey route) (.tooDeep f.maxDepth))
  | levels + 1, allowed, route, typeName, bytes =>
    match f.schema.find? typeName with
    | none => found route (.shut (routeKey route) (.unknown typeName))
    | some m =>
      messageFindings (f.valueFindings store (f.payloadFindings store levels none) route) allowed
        (Schema.qualify typeName) m route bytes

/-- The findings of one flattening. -/
def findings (f : Flattener) (bytes : List UInt8) (typeName : String) (allowed : Option (List Nat)) (t : Table) :
    List Finding :=
  f.payloadFindings t.interned? (f.maxDepth + 1) allowed [] typeName bytes

end Flattener

/-- At a value the walk either ends or goes on in one payload, whatever is found there. -/
theorem Flattener.valueFindings_cases (f : Flattener) (store : Option InternedStore) (route : List Step) (s : Step)
    (field : Wire.Field) :
    (∃ v : Visit, v.key = routeKey (route ++ [s]) ∧
      ∀ enter, f.valueFindings store enter route s field = found (route ++ [s]) v) ∨
    ∃ typeName bytes, ∀ enter, f.valueFindings store enter route s field = enter (route ++ [s]) typeName bytes := by
  cases ht : f.target store s.decl (routeKey (route ++ [s])) field with
  | value =>
    by_cases hu : s.decl.type = .bytes ∨ s.decl.type = .group
    · exact Or.inl ⟨.unsupported s.decl (routeKey (route ++ [s])), rfl, fun enter => by simp [valueFindings, ht, hu]⟩
    · exact Or.inl ⟨.scalar s.decl (routeKey (route ++ [s])) field.value, rfl, fun enter => by
        simp [valueFindings, ht, hu]⟩
  | obstacle why =>
    exact Or.inl ⟨.shut (routeKey (route ++ [s])) why, rfl, fun enter => by simp only [valueFindings, ht]⟩
  | payload typeName bytes => exact Or.inr ⟨typeName, bytes, fun enter => by simp only [valueFindings, ht]⟩

/-- Two views that agree on what is found at a value itself, and in each payload there, agree on the value. -/
theorem Flattener.valueFindings_views {f : Flattener} {store : Option InternedStore} {β : Type}
    (view view' : List Finding → β) {enter enter' : List Step → String → List UInt8 → List Finding} {route : List Step}
    {s : Step} (hfound : ∀ v, view (found (route ++ [s]) v) = view' (found (route ++ [s]) v))
    (henter : ∀ typeName bytes,
      view (enter (route ++ [s]) typeName bytes) = view' (enter' (route ++ [s]) typeName bytes))
    (field : Wire.Field) :
    view (f.valueFindings store enter route s field) = view' (f.valueFindings store enter' route s field) := by
  obtain ⟨v, -, heq⟩ | ⟨typeName, bytes, heq⟩ := f.valueFindings_cases store route s field
  · rw [heq, heq]
    exact hfound v
  · rw [heq, heq]
    exact henter typeName bytes

/-- What is found at a value itself depends on the references alone, not on the message types or the limit. -/
theorem Flattener.valueFindings_of_references {f g : Flattener} (h : g.references = f.references) :
    g.valueFindings = f.valueFindings := by
  funext store enter route s field
  simp only [valueFindings, target, h]

/-! ## The events of the findings are those of the walk -/

theorem map_event_found (route : List Step) (v : Visit) : (found route v).map Finding.event = v.events := by
  simp [found, Function.comp_def]

theorem map_event_messageFindings {inside : Step → Wire.Field → List Finding}
    {inside' : FieldDecl → Key → Wire.Field → List Visit} {route : List Step}
    (h : ∀ s field, (inside s field).map Finding.event =
      (inside' s.decl (routeKey (route ++ [s])) field).flatMap Visit.events)
    (allowed : Option (List Nat)) (typeName : String) (m : MessageDecl) (payload : List UInt8) :
    (messageFindings inside allowed typeName m route payload).map Finding.event =
      (messageVisits inside' allowed m (routeKey route) payload).flatMap Visit.events := by
  have hocc (o : Occurrence) : (occurrenceFindings inside typeName route o).map Finding.event =
      (occurrenceVisits inside' (routeKey route) o).flatMap Visit.events := by
    cases o with
    | value decl index field => rw [occurrenceFindings, h, routeKey_concat, occurrenceVisits]
    | broken decl e =>
      rw [occurrenceFindings, map_event_found, routeKey_concat, occurrenceVisits, List.flatMap_singleton]
  simp only [messageFindings, messageVisits, List.map_append, List.map_flatMap, List.flatMap_append, List.flatMap_assoc,
    hocc, map_event_found]

namespace Flattener

variable {f : Flattener} {store : Option InternedStore}

theorem map_event_valueFindings {enter : List Step → String → List UInt8 → List Finding} {depth : Nat}
    (h : ∀ route typeName bytes, (enter route typeName bytes).map Finding.event =
      (f.payloadVisits store depth typeName (routeKey route) bytes).flatMap Visit.events)
    (route : List Step) (s : Step) (field : Wire.Field) :
    (f.valueFindings store enter route s field).map Finding.event =
      (f.valueVisits store depth s.decl (routeKey (route ++ [s])) field).flatMap Visit.events := by
  rw [valueFindings, valueVisits]
  cases f.target store s.decl (routeKey (route ++ [s])) field with
  | value =>
    simp only
    split <;> simp only [map_event_found, List.flatMap_singleton]
  | obstacle why => simp only [map_event_found, List.flatMap_singleton]
  | payload typeName bytes => exact h _ typeName bytes

theorem map_event_payloadFindings (levels depth : Nat) (hd : f.maxDepth - depth = levels) (route : List Step)
    (typeName : String) (bytes : List UInt8) :
    (f.payloadFindings store levels none route typeName bytes).map Finding.event =
      (f.payloadVisits store depth typeName (routeKey route) bytes).flatMap Visit.events := by
  induction levels generalizing depth route typeName bytes with
  | zero => rw [payloadFindings, payloadVisits, if_neg (by omega), map_event_found, List.flatMap_singleton]
  | succ levels ih =>
    rw [payloadFindings, payloadVisits, if_pos (by omega)]
    cases f.schema.find? typeName with
    | none => simp only [map_event_found, List.flatMap_singleton]
    | some m =>
      exact map_event_messageFindings (map_event_valueFindings (ih (depth + 1) (by omega)) route) none _ m bytes

/-- The findings of a flattening are the events of its walk, in their order, and array indices are left as they are. -/
theorem run_eq (hf : f.overrides = Assoc.empty) (bytes : List UInt8) (typeName : String)
    (allowed : Option (List Nat)) (t : Table) :
    f.run bytes typeName allowed t = ⟨(f.findings bytes typeName allowed t).map Finding.event, t.indices⟩ := by
  rw [run, findings, payloadFindings]
  cases f.schema.find? typeName with
  | none => rfl
  | some m =>
    have hevents := map_event_messageFindings
      (map_event_valueFindings (@map_event_payloadFindings f t.interned? f.maxDepth 0 (by omega)) [])
      allowed (Schema.qualify typeName) m bytes
    simp only [hevents, walk_eq hf, visits, ← Key.ofPath_nil]
    rfl

theorem emitted_eq (hf : f.overrides = Assoc.empty) (bytes : List UInt8) (typeName : String)
    (allowed : Option (List Nat)) (t : Table) :
    f.emitted bytes typeName allowed t = (f.findings bytes typeName allowed t).filterMap Finding.row? := by
  rw [emitted, run_eq hf, rowsOf, List.filterMap_map]
  rfl

theorem recorded_eq (hf : f.overrides = Assoc.empty) (bytes : List UInt8) (typeName : String)
    (allowed : Option (List Nat)) (t : Table) :
    f.recorded bytes typeName allowed t = (f.findings bytes typeName allowed t).filterMap Finding.fault? := by
  rw [recorded, run_eq hf, faultsOf, List.filterMap_map]
  rfl

end Flattener

/-! ## What is found lies on the route -/

/-- The message type has the field. -/
def Step.Declared (schema : Schema) (s : Step) : Prop :=
  ∃ m, schema.find? s.typeName = some m ∧ m.field? s.decl.number = some s.decl

namespace Finding

/-- The finding is at the end of a route or beyond it, and a row has the key of its place. -/
structure Beyond (schema : Schema) (route : List Step) (x : Finding) : Prop where
  goes : ∃ more, x.route = route ++ more ∧ ∀ s ∈ more, s.Declared schema
  keyed : ∀ r, x.row? = some r → r.key = routeKey x.route

variable {schema : Schema} {route : List Step} {x : Finding}

theorem Beyond.of_concat {s : Step} (h : x.Beyond schema (route ++ [s])) (hs : s.Declared schema) :
    x.Beyond schema route := by
  obtain ⟨more, hx, hmore⟩ := h.goes
  refine ⟨⟨s :: more, by rw [hx, List.append_assoc, List.singleton_append], ?_⟩, h.keyed⟩
  intro s' hs'
  rcases List.mem_cons.1 hs' with rfl | hs'
  · exact hs
  · exact hmore s' hs'

theorem beyond_of_mem_found {v : Visit} (hv : v.key = routeKey route) (hx : x ∈ found route v) :
    x.Beyond schema route := by
  obtain ⟨e, he, rfl⟩ := List.mem_map.1 hx
  refine ⟨⟨[], by simp, by simp⟩, fun r hr => ?_⟩
  cases e with
  | row r' =>
    cases hr
    rw [Visit.key_of_row he, hv]
  | fault e => cases hr

/-- A finding in a payload: a fault of the payload itself, or something at one of its fields. -/
def Inside (schema : Schema) (route : List Step) (x : Finding) : Prop :=
  x.route = route ∧ x.row? = none ∨ ∃ s : Step, s.Declared schema ∧ x.Beyond schema (route ++ [s])

theorem Inside.beyond (h : x.Inside schema route) : x.Beyond schema route := by
  rcases h with ⟨hx, hr⟩ | ⟨s, hs, hx⟩
  · exact ⟨⟨[], by simp [hx], by simp⟩, by simp [hr]⟩
  · exact hx.of_concat hs

theorem inside_of_mem_found_shut {key : Key} {why : Obstacle} (hx : x ∈ found route (.shut key why)) :
    x.Inside schema route := by
  cases List.mem_singleton.1 hx
  exact Or.inl ⟨rfl, rfl⟩

theorem inside_of_mem_messageFindings {inside : Step → Wire.Field → List Finding} {typeName : String} {m : MessageDecl}
    (hm : schema.find? typeName = some m)
    (h : ∀ s field, s.Declared schema → ∀ x ∈ inside s field, x.Beyond schema (route ++ [s]))
    {allowed : Option (List Nat)} {payload : List UInt8}
    (hx : x ∈ messageFindings inside allowed typeName m route payload) : x.Inside schema route := by
  rcases List.mem_append.1 hx with hx | hx
  · obtain ⟨o, ho, hxo⟩ := List.mem_flatMap.1 hx
    have hdeclared (index : Option Nat) : Step.Declared schema ⟨typeName, o.decl, index⟩ :=
      ⟨m, hm, field?_of_mem_placed ho⟩
    cases o with
    | value decl index field => exact Or.inr ⟨_, hdeclared index, h _ field (hdeclared index) x hxo⟩
    | broken decl e =>
      rw [occurrenceFindings] at hxo
      exact Or.inr ⟨_, hdeclared none, beyond_of_mem_found rfl hxo⟩
  · obtain ⟨v, hv, hxv⟩ := List.mem_flatMap.1 hx
    obtain ⟨e, -, rfl⟩ := Option.map_eq_some_iff.1 (Option.mem_toList.1 hv)
    cases List.mem_singleton.1 hxv
    exact Or.inl ⟨rfl, rfl⟩

end Finding

namespace Flattener

variable {f : Flattener} {store : Option InternedStore}

theorem beyond_of_mem_valueFindings {enter : List Step → String → List UInt8 → List Finding}
    (h : ∀ route typeName bytes, ∀ x ∈ enter route typeName bytes, x.Beyond f.schema route) {route : List Step}
    {s : Step} {field : Wire.Field} {x : Finding} (hx : x ∈ f.valueFindings store enter route s field) :
    x.Beyond f.schema (route ++ [s]) := by
  obtain ⟨v, hv, heq⟩ | ⟨typeName, bytes, heq⟩ := f.valueFindings_cases store route s field
  · rw [heq] at hx
    exact Finding.beyond_of_mem_found hv hx
  · rw [heq] at hx
    exact h _ typeName bytes x hx

theorem inside_of_mem_payloadFindings (levels : Nat) (allowed : Option (List Nat)) {route : List Step}
    {typeName : String} {bytes : List UInt8} {x : Finding}
    (hx : x ∈ f.payloadFindings store levels allowed route typeName bytes) : x.Inside f.schema route := by
  induction levels generalizing allowed route typeName bytes x with
  | zero => exact Finding.inside_of_mem_found_shut hx
  | succ levels ih =>
    rw [payloadFindings] at hx
    cases hm : f.schema.find? typeName with
    | none =>
      simp only [hm] at hx
      exact Finding.inside_of_mem_found_shut hx
    | some m =>
      simp only [hm] at hx
      have hm' : f.schema.find? (Schema.qualify typeName) = some m := by
        rwa [Schema.find?, Schema.qualify_qualify]
      refine Finding.inside_of_mem_messageFindings hm' (fun s field _ x hx => ?_) hx
      exact beyond_of_mem_valueFindings (fun route typeName bytes x hx => (ih none hx).beyond) hx

end Flattener

end TraceTables.Arguments
