import TraceTables.Proofs.Arguments.Accounting
import TraceTables.Proofs.Arguments.Rendering
import TraceTables.Proofs.Arguments.Routes
import TraceTables.Proofs.Assoc

/-! A limit on how deep messages nest. It takes away the rows behind longer routes, and a route is as long as the flat
key has names, if these are plain. A walk that does not meet its limit is the walk under any higher one. -/

namespace TraceTables.Arguments

open Schema (FieldDecl MessageDecl)

/-- The row at the end of a route that is not longer than `n`. -/
def Finding.shortRow? (n : Nat) (x : Finding) : Option Row := if x.route.length ≤ n then x.row? else none

theorem shortRows_found {route : List Step} {n : Nat} (h : route.length ≤ n) (v : Visit) :
    (found route v).filterMap (Finding.shortRow? n) = (found route v).filterMap Finding.row? := by
  simp only [found, List.filterMap_map]
  congr 1
  funext e
  simp [Finding.shortRow?, h]

theorem shortRows_messageFindings {inside inside' : Step → Wire.Field → List Finding} {route : List Step} {n : Nat}
    (hn : route.length < n)
    (h : ∀ s field, (inside s field).filterMap Finding.row? = (inside' s field).filterMap (Finding.shortRow? n))
    (allowed : Option (List Nat)) (typeName : String) (m : MessageDecl) (payload : List UInt8) :
    (messageFindings inside allowed typeName m route payload).filterMap Finding.row? =
      (messageFindings inside' allowed typeName m route payload).filterMap (Finding.shortRow? n) := by
  have hocc (o : Occurrence) : (occurrenceFindings inside typeName route o).filterMap Finding.row? =
      (occurrenceFindings inside' typeName route o).filterMap (Finding.shortRow? n) := by
    cases o with
    | value decl index field => exact h _ field
    | broken decl e => exact (shortRows_found (by simpa using hn) _).symm
  simp only [messageFindings, List.filterMap_append, List.filterMap_flatMap, hocc, shortRows_found (Nat.le_of_lt hn)]

namespace Flattener

variable {f : Flattener} {store : Option InternedStore}

/-- A walk with fewer levels gives the rows of one with more levels behind the routes that it can go. -/
theorem rows_payloadFindings (d : Nat) {levels levels' : Nat} (hl : levels ≤ levels') (allowed : Option (List Nat))
    (route : List Step) (typeName : String) (bytes : List UInt8) :
    (f.payloadFindings store levels allowed route typeName bytes).filterMap Finding.row? =
      (({ f with maxDepth := d }).payloadFindings store levels' allowed route typeName bytes).filterMap
        (Finding.shortRow? (route.length + levels)) := by
  induction levels generalizing levels' allowed route typeName bytes with
  | zero =>
    -- all rows stand behind at least one more step
    symm
    rw [payloadFindings, List.filterMap_eq_nil_iff.2]
    · rfl
    · intro x hx
      rcases inside_of_mem_payloadFindings levels' allowed hx with ⟨-, hr⟩ | ⟨s, -, hs⟩
      · simp [Finding.shortRow?, hr]
      · obtain ⟨more, hroute, -⟩ := hs.goes
        rw [Finding.shortRow?, if_neg]
        simp [hroute]
  | succ levels ih =>
    -- a step makes the route longer by one, and one level fewer is left
    obtain ⟨levels', rfl⟩ : ∃ k, levels' = k + 1 := ⟨levels' - 1, by omega⟩
    rw [payloadFindings, payloadFindings, @valueFindings_of_references f { f with maxDepth := d } rfl]
    cases f.schema.find? typeName with
    | none => exact (shortRows_found (by omega) _).symm
    | some m =>
      refine shortRows_messageFindings (by omega) (fun s field => ?_) allowed _ m bytes
      refine valueFindings_views (List.filterMap Finding.row?) (List.filterMap (Finding.shortRow? _))
        (fun v => (shortRows_found (by simp) v).symm) (fun inner payload => ?_) field
      have hlength : (route ++ [s]).length + levels = route.length + (levels + 1) := by
        rw [List.length_append, List.length_singleton]
        omega
      rw [← hlength]
      exact ih (by omega) none (route ++ [s]) inner payload

end Flattener

/-! ## A limit that is not met -/

/-- The finding is not that a message stands too deep. -/
def Finding.Shallow (x : Finding) : Prop := ∀ key n, x.event ≠ .fault (.tooDeep key n)

theorem messageFindings_congr {inside inside' : Step → Wire.Field → List Finding} {allowed : Option (List Nat)}
    {typeName : String} {m : MessageDecl} {route : List Step} {payload : List UInt8} {P : Finding → Prop}
    (hP : ∀ x ∈ messageFindings inside allowed typeName m route payload, P x)
    (h : ∀ s field, (∀ x ∈ inside s field, P x) → inside' s field = inside s field) :
    messageFindings inside' allowed typeName m route payload =
      messageFindings inside allowed typeName m route payload := by
  refine congrArg (· ++ _) (List.flatMap_congr fun o ho => ?_)
  cases o with
  | value decl index field =>
    refine h _ field fun x hx => hP x ?_
    exact List.mem_append_left _ (List.mem_flatMap.2 ⟨_, ho, hx⟩)
  | broken decl e => rfl

namespace Flattener

variable {f : Flattener} {store : Option InternedStore}

theorem payloadFindings_of_shallow (d : Nat) {levels levels' : Nat} (hl : levels ≤ levels')
    {allowed : Option (List Nat)} {route : List Step} {typeName : String} {bytes : List UInt8}
    (h : ∀ x ∈ f.payloadFindings store levels allowed route typeName bytes, x.Shallow) :
    ({ f with maxDepth := d }).payloadFindings store levels' allowed route typeName bytes =
      f.payloadFindings store levels allowed route typeName bytes := by
  induction levels generalizing levels' allowed route typeName bytes with
  | zero => exact absurd rfl (h _ (List.mem_singleton.2 rfl) _ _)
  | succ levels ih =>
    obtain ⟨levels', rfl⟩ : ∃ k, levels' = k + 1 := ⟨levels' - 1, by omega⟩
    rw [payloadFindings] at h
    rw [payloadFindings, payloadFindings, @valueFindings_of_references f { f with maxDepth := d } rfl]
    cases hm : f.schema.find? typeName with
    | none => rfl
    | some m =>
      simp only [hm] at h
      refine messageFindings_congr h fun s field hs => ?_
      obtain ⟨v, -, heq⟩ | ⟨inner, payload, heq⟩ := f.valueFindings_cases store route s field
      · rw [heq, heq]
      · rw [heq] at hs
        rw [heq, heq]
        exact ih (by omega) hs

end Flattener

/-! ## Names in a key -/

/-- The parts of a flat key between its dots. -/
def segments (flat : String) : List (List Char) := flat.toList.splitOn '.'

/-- The name of each field is a text without dots, and not the empty one. -/
def PlainNames (schema : Schema) : Prop :=
  ∀ typeName m, schema.find? typeName = some m → ∀ n decl, m.field? n = some decl →
    decl.name ≠ "" ∧ '.' ∉ decl.name.toList

/-- On a route through plain names a key has one part for each step. -/
theorem length_segments_routeKey {schema : Schema} (hn : PlainNames schema) {route : List Step} (hne : route ≠ [])
    (hr : ∀ s ∈ route, s.Declared schema) : (segments (routeKey route).flat).length = route.length := by
  have hnames : ∀ name ∈ route.map (fun s => s.decl.name), name ≠ "" ∧ '.' ∉ name.toList := by
    intro name hname
    obtain ⟨s, hs, rfl⟩ := List.mem_map.1 hname
    obtain ⟨m, hm, hd⟩ := hr s hs
    exact hn _ m hm _ _ hd
  have hflat : (routeKey route).flat = dotted (route.map fun s => s.decl.name) := by
    rw [routeKey, Key.ofPath, List.map_map]
    rfl
  rw [segments, hflat, splitOn_dotted (by simpa using hne) hnames, List.length_map, List.length_map]

/-- The flat key of a row has as many parts as there are steps on its route. -/
theorem Flattener.length_segments_of_mem_findings {f : Flattener} (hn : PlainNames f.schema) {bytes : List UInt8}
    {typeName : String} {allowed : Option (List Nat)} {t : Table} {x : Finding}
    (hx : x ∈ f.findings bytes typeName allowed t) {r : Row} (hr : x.row? = some r) :
    (segments r.key.flat).length = x.route.length := by
  rcases inside_of_mem_payloadFindings _ allowed hx with ⟨-, hnone⟩ | ⟨s, hs, hbeyond⟩
  · rw [hnone] at hr
    cases hr
  · obtain ⟨more, hroute, hmore⟩ := (hbeyond.of_concat hs).goes
    obtain ⟨more', hroute', -⟩ := hbeyond.goes
    rw [hbeyond.keyed r hr]
    refine length_segments_routeKey hn ?_ ?_
    · simp [hroute']
    · rw [hroute]
      exact hmore

/-- The rows under a limit are those under a higher one whose flat keys have no more names than the limit allows. If no
message stands too deep for the limit, the result is the same under both. -/
theorem depth_limit_cuts {f : Flattener} (hf : f.overrides = Assoc.empty) (hn : PlainNames f.schema) {d d' : Nat}
    (hd : d ≤ d') (bytes : List UInt8) (typeName : String) (allowed : Option (List Nat)) (t : Table) :
    let shallow : Flattener := { f with maxDepth := d }
    let deep : Flattener := { f with maxDepth := d' }
    shallow.emitted bytes typeName allowed t =
        (deep.emitted bytes typeName allowed t).filter (fun r => (segments r.key.flat).length ≤ d + 1) ∧
      ((∀ key n, Fault.tooDeep key n ∉ shallow.recorded bytes typeName allowed t) →
        shallow.flatten bytes typeName allowed t = deep.flatten bytes typeName allowed t) := by
  intro shallow deep
  have hs : shallow.overrides = Assoc.empty := hf
  have hd' : deep.overrides = Assoc.empty := hf
  refine ⟨?_, fun hnot => ?_⟩
  · have hcut : (shallow.findings bytes typeName allowed t).filterMap Finding.row? =
        (deep.findings bytes typeName allowed t).filterMap (Finding.shortRow? (0 + (d + 1))) :=
      Flattener.rows_payloadFindings d' (Nat.succ_le_succ hd) allowed [] typeName bytes
    rw [Flattener.emitted_eq hs, Flattener.emitted_eq hd', hcut, List.filter_filterMap]
    refine List.filterMap_congr fun x hx => ?_
    cases hr : x.row? with
    | none => simp [Finding.shortRow?, hr]
    | some r =>
      have hlength := Flattener.length_segments_of_mem_findings (f := deep) hn hx hr
      simp [Finding.shortRow?, hr, hlength, Option.filter]
  · have hshallow : ∀ x ∈ shallow.findings bytes typeName allowed t, x.Shallow := by
      intro x hx key n he
      apply hnot key n
      rw [Flattener.recorded, mem_faultsOf, Flattener.run_eq hs]
      exact List.mem_map.2 ⟨x, hx, he⟩
    have hfindings : deep.findings bytes typeName allowed t = shallow.findings bytes typeName allowed t :=
      Flattener.payloadFindings_of_shallow d' (Nat.succ_le_succ hd) hshallow
    have hrun : deep.run bytes typeName allowed t = shallow.run bytes typeName allowed t := by
      rw [Flattener.run_eq hs, Flattener.run_eq hd', hfindings]
    rw [Flattener.flatten_eq_run, Flattener.flatten_eq_run, Flattener.emitted, Flattener.emitted, Flattener.recorded,
      Flattener.recorded, hrun]

/-! ### An interned payload that refers to itself -/

theorem plainNames_of_pairs {schema : Schema}
    (h : ∀ p ∈ schema.messages.pairs, ∀ q ∈ p.2.fields.pairs, q.2.name ≠ "" ∧ '.' ∉ q.2.name.toList) :
    PlainNames schema := by
  intro typeName m hm n decl hd
  exact h _ (mem_of_valueAt hm) _ (mem_of_valueAt hd)

def linkedDecl : MessageDecl :=
  (MessageDecl.named "N").addAll [⟨"v", 1, .int32, none, false, false⟩, ⟨"next", 2, .uint64, none, false, false⟩]

/-- Two of the paths are references. Behind them the id is a number. -/
def linkedSample (maxDepth : Nat) : Flattener :=
  { ((Flattener.new (Schema.empty.declare linkedDecl)).refer "next" 5 "N").refer "next.next" 5 "N" with
    maxDepth := maxDepth }

def linkedTable : Table := .withInterned (Assoc.empty.insert ⟨5, 7⟩ [0x08, 1, 0x10, 7])

def linkedBytes : List UInt8 := [0x08, 0, 0x10, 7]

theorem depth_limit_cuts_linked :
    PlainNames (linkedSample 2).schema ∧
      (linkedSample 1).emitted linkedBytes "N" none linkedTable =
        ((linkedSample 2).emitted linkedBytes "N" none linkedTable).filter
          (fun r => (segments r.key.flat).length ≤ 2) ∧
      ((linkedSample 2).emitted linkedBytes "N" none linkedTable).map (·.key.flat) =
        ["v", "next.v", "next.next.v", "next.next.next"] ∧
      (linkedSample 2).flatten linkedBytes "N" none linkedTable =
        (linkedSample 3).flatten linkedBytes "N" none linkedTable := by
  have hn : PlainNames (linkedSample 2).schema := plainNames_of_pairs (by decide)
  have hcut := depth_limit_cuts (f := linkedSample 2) rfl hn (by decide : 1 ≤ 2) linkedBytes "N" none linkedTable
  have hsame := depth_limit_cuts (f := linkedSample 2) rfl hn (by decide : 2 ≤ 3) linkedBytes "N" none linkedTable
  have hnone : (linkedSample 2).recorded linkedBytes "N" none linkedTable = [] := by cbv
  refine ⟨hn, hcut.1, by cbv, hsame.2 fun key n => ?_⟩
  rw [show ({ linkedSample 2 with maxDepth := 2 } : Flattener) = linkedSample 2 from rfl, hnone]
  exact List.not_mem_nil

end TraceTables.Arguments
