import TraceTables.Proofs.Arguments.Routes

/-! A schema with one more extension. What the walk comes by in the new field is told by its routes, which lead into
that field; all else it comes by as under the schema without it. In a whole message the new field is not subject to the
list of allowed numbers. -/

namespace TraceTables.Arguments

open Schema (FieldDecl MessageDecl)

/-- Is it the field with that number of that message type, which may be named without its leading dot? -/
def isField (extendee : String) (number : Nat) (typeName : String) (n : Nat) : Bool :=
  typeName = Schema.qualify extendee && n = number

def Step.into (extendee : String) (number : Nat) (s : Step) : Bool := isField extendee number s.typeName s.decl.number

/-- Is the finding at an occurrence of the field, or anywhere below one? -/
def Finding.under (extendee : String) (number : Nat) (x : Finding) : Bool := x.route.any (Step.into extendee number)

/-- Is the finding at an occurrence of the field in the whole message, or anywhere below one? -/
def Finding.underTop (extendee : String) (number : Nat) (x : Finding) : Bool :=
  x.route.head?.any (Step.into extendee number)

/-! ## The extended message type -/

/-- The second schema is the first with one more field in one of its message types. -/
structure ExtendedBy (extendee : String) (decl : FieldDecl) (schema schema' : Schema) : Prop where
  find? : ∀ typeName, schema'.find? typeName = (schema.find? typeName).map fun m =>
    if Schema.qualify typeName = Schema.qualify extendee then m.add decl else m
  fresh : ∀ m, schema.find? extendee = some m → m.field? decl.number = none

theorem exists_extend {schema : Schema} {extendee : String} {m : MessageDecl} (hm : schema.find? extendee = some m)
    {decl : FieldDecl} (hn : m.field? decl.number = none) :
    ∃ schema', schema.extend extendee decl = .ok schema' ∧
      ExtendedBy extendee { decl with extension := true } schema schema' := by
  refine ⟨⟨schema.messages.insert (Schema.qualify extendee) (m.add { decl with extension := true })⟩, ?_, ?_, ?_⟩
  · unfold Schema.find? at hm
    simp only [Schema.extend, hm]
  · intro typeName
    simp only [Schema.find?, Assoc.get?_insert]
    by_cases hq : Schema.qualify typeName = Schema.qualify extendee
    · have hm' : schema.messages.get? (Schema.qualify extendee) = some m := hm
      simp [hq, hm']
    · simp [hq, Ne.symm hq]
  · intro m' hm'
    cases hm.symm.trans hm'
    exact hn

/-! ## Pieces and findings told apart by the fields that they are in -/

theorem filter_eq_ite {α : Type} {p : α → Bool} {b : Bool} {as : List α} (h : ∀ a ∈ as, p a = b) :
    as.filter p = if b then as else [] := by
  rw [List.filter_congr h]
  cases b <;> simp

theorem flatMap_filter {α β : Type} (p : α → Bool) (g : α → List β) (as : List α) :
    (as.filter p).flatMap g = as.flatMap fun a => if p a then g a else [] := by
  induction as with
  | nil => rfl
  | cons a as ih => by_cases h : p a = true <;> simp [h, ih]

theorem filter_pieces (keep : Nat → Bool) (m : MessageDecl) (allowed : Option (List Nat)) (g : Wire.Field) :
    (pieces m allowed g).filter (fun q => keep q.decl.number) = if keep g.number then pieces m allowed g else [] :=
  filter_eq_ite fun _ hq => congrArg keep (m.filed (field?_of_mem_pieces hq))

/-- Without those of the new field, the pieces are those of the message type without it. -/
theorem ExtendedBy.filter_pieces {extendee : String} {decl : FieldDecl} {schema schema' : Schema}
    (h : ExtendedBy extendee decl schema schema') {typeName : String} {m : MessageDecl}
    (hm : schema.find? typeName = some m) (allowed : Option (List Nat)) (g : Wire.Field) :
    (pieces (if Schema.qualify typeName = Schema.qualify extendee then m.add decl else m) allowed g).filter
        (fun q => !isField extendee decl.number (Schema.qualify typeName) q.decl.number) =
      pieces m allowed g := by
  rw [Arguments.filter_pieces fun n => !isField extendee decl.number (Schema.qualify typeName) n]
  by_cases hq : Schema.qualify typeName = Schema.qualify extendee
  · have hnew : m.field? decl.number = none := h.fresh m (by rwa [Schema.find?, ← hq])
    by_cases hg : g.number = decl.number
    · simp [isField, hq, hg, pieces, hnew]
    · simp [isField, hq, hg, pieces, Ne.symm hg]
  · simp [isField, hq]

/-- An extension's pieces are the same under every list of allowed numbers. -/
theorem filter_pieces_extension (keep : Nat → Bool) {m : MessageDecl}
    (he : ∀ decl, m.field? decl.number = some decl → keep decl.number = true → decl.extension = true)
    (allowed : Option (List Nat)) (g : Wire.Field) :
    (pieces m allowed g).filter (fun q => keep q.decl.number) =
      (pieces m none g).filter (fun q => keep q.decl.number) := by
  rw [filter_pieces, filter_pieces]
  split
  · rename_i hk
    cases hd : m.field? g.number with
    | none => simp only [pieces, hd]
    | some decl =>
      have hn : decl.number = g.number := m.filed hd
      have hextension : decl.extension = true := he decl (by rwa [hn]) (by rwa [hn])
      have hlets (allowed : Option (List Nat)) : lets allowed decl = true := by
        cases allowed <;> simp [lets, hextension]
      rw [pieces_of_found hd (hlets allowed), pieces_of_found hd (hlets none)]
  · rfl

theorem filter_found {p : Finding → Bool} {route : List Step} {b : Bool} (h : ∀ e, p ⟨route, e⟩ = b) (v : Visit) :
    (found route v).filter p = if b then found route v else [] := by
  refine filter_eq_ite fun x hx => ?_
  obtain ⟨e, -, rfl⟩ := List.mem_map.1 hx
  exact h e

section Kept

variable {p : Finding → Bool} (keep : Nat → Bool) {typeName : String} {route : List Step}
  {inside inside' : Step → Wire.Field → List Finding}
  (hin : ∀ s field, s.typeName = typeName →
    (inside s field).filter p = if keep s.decl.number then inside' s field else [])
  (htorn : ∀ (s : Step) e, s.typeName = typeName → p ⟨route ++ [s], e⟩ = keep s.decl.number)
include hin htorn

/-- If the findings in a field are all kept or all left out, by the number of the field, then those that are kept are
the findings in the fields that are. -/
theorem filter_occurrenceFindings (ps : List Piece) :
    ((placed [] ps).flatMap (occurrenceFindings inside typeName route)).filter p =
      (placed [] (ps.filter fun q => keep q.decl.number)).flatMap (occurrenceFindings inside' typeName route) := by
  have hocc (o : Occurrence) : (occurrenceFindings inside typeName route o).filter p =
      if keep o.decl.number then occurrenceFindings inside' typeName route o else [] := by
    cases o with
    | value decl index field => exact hin _ field rfl
    | broken decl e => exact filter_found (fun e => htorn _ e rfl) _
  rw [List.filter_flatMap, placed_filter keep ps fun _ _ => rfl, flatMap_filter]
  simp only [hocc]

/-- The same for whole messages: the fields that are kept are those of another message type. -/
theorem filter_messageFindings (hend : ∀ e, p ⟨route, e⟩ = true) {m m' : MessageDecl} (hm : m'.fullName = m.fullName)
    {allowed : Option (List Nat)}
    (hpieces : ∀ g, (pieces m' allowed g).filter (fun q => keep q.decl.number) = pieces m allowed g)
    (payload : List UInt8) :
    (messageFindings inside allowed typeName m' route payload).filter p =
      messageFindings inside' allowed typeName m route payload := by
  simp only [messageFindings, List.filter_append, filter_occurrenceFindings keep hin htorn, List.filter_flatMap,
    hpieces, filter_found hend, hm, if_true]

/-- Two lists of allowed numbers that let the same pieces of the kept fields through give the same there. -/
theorem filter_messageFindings_allowed {m : MessageDecl} {allowed allowed' : Option (List Nat)}
    (hpieces : ∀ g, (pieces m allowed g).filter (fun q => keep q.decl.number) =
      (pieces m allowed' g).filter fun q => keep q.decl.number)
    (payload : List UInt8) :
    (messageFindings inside allowed typeName m route payload).filter p =
      (messageFindings inside allowed' typeName m route payload).filter p := by
  simp only [messageFindings, List.filter_append, filter_occurrenceFindings keep hin htorn, List.filter_flatMap,
    hpieces]

end Kept

namespace Flattener

variable {f : Flattener} {store : Option InternedStore}

theorem goes_of_mem_payloadFindings {levels : Nat} {allowed : Option (List Nat)} {route : List Step} {typeName : String}
    {bytes : List UInt8} {x : Finding} (hx : x ∈ f.payloadFindings store levels allowed route typeName bytes) :
    ∃ more, x.route = route ++ more := by
  obtain ⟨more, hroute, -⟩ := (inside_of_mem_payloadFindings levels allowed hx).beyond.goes
  exact ⟨more, hroute⟩

/-- If the step to a value decides, everything there is kept or nothing. -/
theorem filter_valueFindings_of_step {p : Finding → Bool} {enter : List Step → String → List UInt8 → List Finding}
    {route : List Step} {s : Step}
    (h : ∀ typeName bytes, ∀ x ∈ enter (route ++ [s]) typeName bytes, ∃ more, x.route = route ++ [s] ++ more) {b : Bool}
    (hp : ∀ more e, p ⟨route ++ [s] ++ more, e⟩ = b) (field : Wire.Field) :
    (f.valueFindings store enter route s field).filter p =
      if b then f.valueFindings store enter route s field else [] := by
  obtain ⟨v, -, heq⟩ | ⟨typeName, bytes, heq⟩ := f.valueFindings_cases store route s field
  · rw [heq]
    exact filter_found (by simpa using hp []) v
  · rw [heq]
    refine filter_eq_ite fun x hx => ?_
    obtain ⟨more, hroute⟩ := h typeName bytes x hx
    rw [← hp more x.event, ← hroute]

/-- Without what is found under the new field, the findings are those of the schema without it. -/
theorem filter_payloadFindings_extended {extendee : String} {decl : FieldDecl} {schema' : Schema}
    (h : ExtendedBy extendee decl f.schema schema') (levels : Nat) (allowed : Option (List Nat)) {route : List Step}
    (hroute : route.any (Step.into extendee decl.number) = false) (typeName : String) (bytes : List UInt8) :
    (({ f with schema := schema' }).payloadFindings store levels allowed route typeName bytes).filter
        (fun x => !x.under extendee decl.number) =
      f.payloadFindings store levels allowed route typeName bytes := by
  have hunder (route : List Step) (e : Event) :
      (!Finding.under extendee decl.number ⟨route, e⟩) = !route.any (Step.into extendee decl.number) := rfl
  have hkept {route : List Step} (hroute : route.any (Step.into extendee decl.number) = false) (v : Visit) :
      (found route v).filter (fun x => !x.under extendee decl.number) = found route v :=
    filter_found (b := true) (fun e => by rw [hunder, hroute, Bool.not_false]) v
  induction levels generalizing allowed route typeName bytes with
  | zero => exact hkept hroute _
  | succ levels ih =>
    rw [payloadFindings, payloadFindings, @valueFindings_of_references f { f with schema := schema' } rfl, h.find?]
    cases hm : f.schema.find? typeName with
    | none => exact hkept hroute _
    | some m =>
      refine filter_messageFindings (fun n => !isField extendee decl.number (Schema.qualify typeName) n)
        (fun s field hs => ?_) (fun s e hs => ?_) (fun e => ?_) ?_ (h.filter_pieces hm allowed) bytes
      · -- behind a step into the new field nothing is kept, and behind any other the route is still outside
        rw [← hs, ← Step.into]
        cases hinto : s.into extendee decl.number with
        | true =>
          have hout (more : List Step) (e : Event) :
              (!Finding.under extendee decl.number ⟨route ++ [s] ++ more, e⟩) = false := by simp [hunder, hinto]
          exact filter_valueFindings_of_step (b := false) (fun _ _ _ => goes_of_mem_payloadFindings) hout field
        | false =>
          have hroute' : (route ++ [s]).any (Step.into extendee decl.number) = false := by simp [hroute, hinto]
          exact valueFindings_views (List.filter fun x => !x.under extendee decl.number) id (hkept hroute')
            (fun inner payload => ih none hroute' inner payload) field
      · rw [← hs, hunder, List.any_append, hroute]
        simp [Step.into]
      · rw [hunder, hroute, Bool.not_false]
      · split <;> rfl

/-- At the top of a message its extensions are walked through whatever the list of allowed numbers is. -/
theorem filter_findings_extension {extendee : String} {number : Nat}
    (he : ∀ m, f.schema.find? extendee = some m → ∀ decl, m.field? number = some decl → decl.extension = true)
    (bytes : List UInt8) (typeName : String) (allowed : Option (List Nat)) (t : Table) :
    (f.findings bytes typeName allowed t).filter (Finding.underTop extendee number) =
      (f.findings bytes typeName none t).filter (Finding.underTop extendee number) := by
  rw [findings, findings, payloadFindings, payloadFindings]
  cases hm : f.schema.find? typeName with
  | none => rfl
  | some m =>
    have hextension : ∀ decl, m.field? decl.number = some decl →
        isField extendee number (Schema.qualify typeName) decl.number = true → decl.extension = true := by
      intro decl hd hk
      obtain ⟨hq, hn⟩ : Schema.qualify typeName = Schema.qualify extendee ∧ decl.number = number := by
        simpa [isField] using hk
      exact he m (by rwa [Schema.find?, ← hq]) decl (by rwa [← hn])
    have hstep (s : Step) (hs : s.typeName = Schema.qualify typeName) (more : List Step) (e : Event) :
        Finding.underTop extendee number ⟨[] ++ [s] ++ more, e⟩ =
          isField extendee number (Schema.qualify typeName) s.decl.number := by
      simp [Finding.underTop, Step.into, hs]
    exact filter_messageFindings_allowed _
      (fun s field hs => f.filter_valueFindings_of_step (fun _ _ _ => goes_of_mem_payloadFindings) (hstep s hs) field)
      (fun s e hs => hstep s hs [] e) (filter_pieces_extension _ hextension allowed) bytes

end Flattener

/-- An extension can be added to any message type for a number that the type does not have. Without what is found at
the occurrences of the new field and below them, rows and faults are those under the schema without it. At the top of a
message its occurrences are walked through whatever the list of allowed numbers is. -/
theorem extension_conservative {f : Flattener} (hf : f.overrides = Assoc.empty) {extendee : String} {m : MessageDecl}
    (hm : f.schema.find? extendee = some m) {decl : FieldDecl} (hn : m.field? decl.number = none) :
    ∃ schema', f.schema.extend extendee decl = .ok schema' ∧
      ∀ (bytes : List UInt8) (typeName : String) (allowed : Option (List Nat)) (t : Table),
        let f' : Flattener := { f with schema := schema' }
        let all := f'.findings bytes typeName allowed t
        let outside := all.filter fun x => !x.under extendee decl.number
        f'.emitted bytes typeName allowed t = all.filterMap Finding.row? ∧
          f'.recorded bytes typeName allowed t = all.filterMap Finding.fault? ∧
          f.emitted bytes typeName allowed t = outside.filterMap Finding.row? ∧
          f.recorded bytes typeName allowed t = outside.filterMap Finding.fault? ∧
          (∀ x ∈ all, x.Beyond schema' []) ∧
          all.filter (Finding.underTop extendee decl.number) =
            (f'.findings bytes typeName none t).filter (Finding.underTop extendee decl.number) := by
  obtain ⟨schema', hs, h⟩ := exists_extend hm hn
  refine ⟨schema', hs, fun bytes typeName allowed t => ?_⟩
  intro f' all outside
  have hf' : f'.overrides = Assoc.empty := hf
  have houtside : outside = f.findings bytes typeName allowed t :=
    Flattener.filter_payloadFindings_extended h (f.maxDepth + 1) allowed rfl typeName bytes
  refine ⟨Flattener.emitted_eq hf' .., Flattener.recorded_eq hf' .., ?_, ?_, ?_, ?_⟩
  · rw [houtside, Flattener.emitted_eq hf]
  · rw [houtside, Flattener.recorded_eq hf]
  · intro x hx
    exact (Flattener.inside_of_mem_payloadFindings _ allowed hx).beyond
  · refine Flattener.filter_findings_extension (fun m' hm' d hd => ?_) bytes typeName allowed t
    rw [h.find?, hm, Option.map_some, if_pos rfl] at hm'
    cases hm'
    simp only [Schema.MessageDecl.field?_add, if_true] at hd
    cases hd
    rfl

/-! ### A message type that is extended with itself -/

def plainSample : Flattener := Flattener.new (Schema.empty.declare sampleDecl)

def linkDecl : FieldDecl := ⟨"x", 3, .message, some ".T", true, false⟩

def extendedSample : Flattener :=
  { plainSample with
    schema := ⟨plainSample.schema.messages.insert ".T" (sampleDecl.add { linkDecl with extension := true })⟩ }

/-- The new field stands before a nested message, where it breaks off, and inside of it. -/
def extendedBytes : List UInt8 :=
  [0x08, 2, 0x1A, 4, 0x08, 8, 0x08, 0x80, 0x12, 6, 0x08, 4, 0x1A, 2, 0x08, 6, 0x08, 0x80]

theorem extension_conservative_nested :
    let all := extendedSample.findings extendedBytes "T" (some [2]) .empty
    let outside := all.filter fun x => !x.under "T" 3
    plainSample.schema.extend "T" linkDecl = .ok extendedSample.schema ∧
      extendedSample.emitted extendedBytes "T" (some [2]) .empty =
        [⟨⟨"x.a", "x[0].a[0]"⟩, .int 4⟩, ⟨⟨"s.a", "s[0].a[0]"⟩, .int 2⟩, ⟨⟨"s.x.a", "s[0].x[0].a[0]"⟩, .int 3⟩] ∧
      extendedSample.recorded extendedBytes "T" (some [2]) .empty =
        [.malformed ".T" "x[0]" .badVarint, .malformed ".T" "" .badVarint] ∧
      outside.filterMap Finding.row? = [⟨⟨"s.a", "s[0].a[0]"⟩, .int 2⟩] ∧
      outside.filterMap Finding.fault? = [.malformed ".T" "" .badVarint] := by
  intro all outside
  have hm : plainSample.schema.find? "T" = some sampleDecl := rfl
  obtain ⟨schema', hs, h⟩ := @extension_conservative plainSample rfl _ _ hm linkDecl rfl
  have hsame : plainSample.schema.extend "T" linkDecl = .ok extendedSample.schema := rfl
  cases hsame.symm.trans hs
  obtain ⟨-, -, hrows, hfaults, -, -⟩ := h extendedBytes "T" (some [2]) .empty
  refine ⟨hsame, by cbv, by cbv, hrows.symm.trans ?_, hfaults.symm.trans ?_⟩ <;> cbv

end TraceTables.Arguments
