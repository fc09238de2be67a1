import TraceTables.Proofs.Arguments.DepthLimit
import TraceTables.Proofs.Arguments.Outline

/-! An override and its own path. Below the path there are no more occurrences at it, and all rows from there lie under
it, so that the walk with an override and the walk without differ in the rows of the path alone. -/

namespace TraceTables.Arguments

open Schema (FieldDecl MessageDecl)

/-! ## Keys below a path -/

/-- Is the flat key the path itself, or the path with more behind a dot? -/
def isBelow (path flat : String) : Bool := flat = path || (path ++ ".").toList.isPrefixOf flat.toList

theorem isBelow_iff {path flat : String} :
    isBelow path flat = true ↔ flat = path ∨ ∃ rest, flat = path ++ "." ++ rest := by
  simp only [isBelow, Bool.or_eq_true, decide_eq_true_eq, List.isPrefixOf_iff_prefix]
  refine or_congr_right ⟨fun ⟨rest, h⟩ => ⟨String.ofList rest, ?_⟩, fun ⟨rest, h⟩ => ⟨rest.toList, ?_⟩⟩
  · apply String.toList_inj.1
    rw [String.toList_append, String.toList_ofList, h]
  · rw [h]
    exact String.toList_append.symm

theorem isBelow_refl (path : String) : isBelow path path = true := isBelow_iff.2 (Or.inl rfl)

theorem isBelow_trans {path path' flat : String} (h : isBelow path path' = true) (h' : isBelow path' flat = true) :
    isBelow path flat = true := by
  rw [isBelow_iff] at h h' ⊢
  rcases h with rfl | ⟨rest, rfl⟩
  · exact h'
  · rcases h' with rfl | ⟨rest', rfl⟩
    · exact Or.inr ⟨rest, rfl⟩
    · exact Or.inr ⟨rest ++ "." ++ rest', by simp only [String.append_assoc]⟩

theorem isBelow_joinName {path : String} (h : path ≠ "") (name : String) : isBelow path (joinName path name) = true := by
  refine isBelow_iff.2 (Or.inr ⟨name, ?_⟩)
  rw [joinName, if_neg (by simpa using h)]

/-- The override is steady, and the rows that it adds lie under the key of the occurrence. Under the empty key there is
the whole message. -/
structure Override.Confined (o : Override) : Prop extends o.Steady where
  below : ∀ store field key, key.flat ≠ "" → ∀ r ∈ o.adds store field key, isBelow key.flat r.key.flat = true

/-! ## What stands under a path -/

/-- The part stands under a path: a row has a key below it, if it is not empty, and a gap is at a longer path. -/
def Part.Under (path hole : String) : Part → Prop
  | .event e => ∀ r, e.row? = some r → path ≠ "" → isBelow path r.key.flat = true
  | .gap g => g.key.flat = hole ∧ path.length < hole.length

theorem under_fault (path hole : String) (e : Fault) : ∀ part ∈ [Part.event (.fault e)], part.Under path hole := by
  intro part hpart
  cases List.mem_singleton.1 hpart
  intro r hr
  cases hr

/-- What stands under a field stands under its message. -/
theorem Part.Under.up {part : Part} {key : Key} {name : String} {index : Option Nat} {hole : String}
    (h : part.Under (key.field name index).flat hole) (hn : name ≠ "") : part.Under key.flat hole := by
  have hlength : key.flat.length < (joinName key.flat name).length := length_lt_joinName (Or.inr hn)
  rw [Key.flat_field] at h
  cases part with
  | event e =>
    intro r hr hk
    refine isBelow_trans (isBelow_joinName hk name) (h r hr fun he => ?_)
    rw [he] at hlength
    simp at hlength
  | gap g => exact ⟨h.1, Nat.lt_trans hlength h.2⟩

theorem Override.Confined.under_around {o : Override} (ho : o.Confined) {store : Option InternedStore}
    {field : Wire.Field} {key : Key} {hole : String} {parts : List Part}
    (h : ∀ part ∈ parts, part.Under key.flat hole) :
    ∀ part ∈ o.around store field key parts, part.Under key.flat hole := by
  intro part hpart
  rcases List.mem_append.1 hpart with hpart | hpart
  · obtain ⟨r, hr, rfl⟩ := List.mem_map.1 hpart
    rintro _ ⟨⟩ hk
    exact ho.below store field key hk r hr
  · split at hpart
    · exact h part hpart
    · cases hpart
    · exact under_fault _ _ _ part hpart

theorem under_messageOutline {inside : FieldDecl → Key → Wire.Field → List Part} {allowed : Option (List Nat)}
    {m : MessageDecl} {key : Key} {payload : List UInt8} {hole : String}
    (h : ∀ decl index field, m.field? decl.number = some decl →
      ∀ part ∈ inside decl (key.field decl.name index) field, part.Under key.flat hole) :
    ∀ part ∈ messageOutline inside allowed m key payload, part.Under key.flat hole := by
  intro part hpart
  rcases List.mem_append.1 hpart with hpart | hpart
  · obtain ⟨o, ho, hpart⟩ := List.mem_flatMap.1 hpart
    rw [occurrences_eq_placed m _ _ (Counts.track_empty m)] at ho
    cases o with
    | value decl index field => exact h decl index field (field?_of_mem_placed ho) part hpart
    | broken decl e => exact under_fault _ _ _ part hpart
  · obtain ⟨e, he, rfl⟩ := List.mem_map.1 hpart
    intro r hr
    have hmem : r ∈ rowsOf (Flattener.malformedEnd m key (Wire.fields payload).fault?) :=
      List.mem_filterMap.2 ⟨e, he, hr⟩
    rw [rowsOf_malformedEnd] at hmem
    cases hmem

namespace Flattener

variable {f : Flattener} {path : String} {store : Option InternedStore}

theorem under_around {key : Key} (hf : ∀ o, f.overrides.get? key.flat = some o → o.Confined) {field : Wire.Field}
    {hole : String} {parts : List Part} (h : ∀ part ∈ parts, part.Under key.flat hole) :
    ∀ part ∈ f.around store field key parts, part.Under key.flat hole := by
  unfold around
  cases ho : f.overrides.get? key.flat with
  | none => exact h
  | some o => exact (hf o ho).under_around h

theorem under_genericOutline {enter : String → Key → List UInt8 → List Part} {key : Key} {hole : String}
    (h : ∀ typeName bytes, ∀ part ∈ enter typeName key bytes, part.Under key.flat hole) (decl : FieldDecl)
    (field : Wire.Field) : ∀ part ∈ f.genericOutline store enter decl key field, part.Under key.flat hole := by
  intro part hpart
  unfold genericOutline at hpart
  split at hpart
  · obtain ⟨e, he, rfl⟩ := List.mem_map.1 hpart
    cases e with
    | fault e => exact under_fault _ _ e _ List.mem_cons_self
    | row r =>
      have hkey : (Visit.ofValue decl key field).key = key := by
        unfold Visit.ofValue
        split <;> rfl
      rintro _ ⟨⟩ -
      rw [Visit.key_of_row he, hkey]
      exact isBelow_refl key.flat
  · exact under_fault _ _ _ part hpart
  · exact h _ _ part hpart

theorem under_valueOutline (hf : ∀ q o, q ≠ path → f.overrides.get? q = some o → o.Confined) {levels : Nat}
    {enter : String → Key → List UInt8 → List Part}
    (h : ∀ typeName key bytes, ∀ part ∈ enter typeName key bytes, part.Under key.flat path) {decl : FieldDecl}
    (hn : decl.name ≠ "") (key : Key) (index : Option Nat) (field : Wire.Field) :
    ∀ part ∈ f.valueOutline path store levels enter decl (key.field decl.name index) field,
      part.Under key.flat path := by
  intro part hpart
  unfold valueOutline at hpart
  split at hpart
  · rename_i hk
    cases List.mem_singleton.1 hpart
    refine ⟨hk, ?_⟩
    rw [← hk, Key.flat_field]
    exact length_lt_joinName (Or.inr hn)
  · rename_i hk
    have hgeneric := @under_genericOutline f store enter (key.field decl.name index) path (fun _ _ => h _ _ _) decl field
    exact (under_around (fun o ho => hf _ o hk ho) hgeneric part hpart).up hn

theorem under_payloadOutline (hn : PlainNames f.schema)
    (hf : ∀ q o, q ≠ path → f.overrides.get? q = some o → o.Confined) (levels : Nat) (allowed : Option (List Nat))
    (typeName : String) (key : Key) (bytes : List UInt8) :
    ∀ part ∈ f.payloadOutline path store levels allowed typeName key bytes, part.Under key.flat path := by
  induction levels generalizing allowed typeName key bytes with
  | zero => exact under_fault _ _ _
  | succ levels ih =>
    rw [payloadOutline]
    cases hm : f.schema.find? typeName with
    | none => exact under_fault _ _ _
    | some m =>
      exact under_messageOutline fun decl index field hd =>
        under_valueOutline hf (ih none) (hn typeName m hm _ decl hd).1 key index field

end Flattener

/-! ## What an override changes -/

theorem flatMap_events_congr {parts : List Part} {fill fill' : Gap → List Event}
    (h : ∀ g, .gap g ∈ parts → fill g = fill' g) :
    parts.flatMap (Part.events fill) = parts.flatMap (Part.events fill') := by
  refine List.flatMap_congr fun part hpart => ?_
  cases part with
  | event e => rfl
  | gap g => exact h g hpart

/-- Rows outside of the path do not stand in its gaps. -/
theorem filter_rows_congr {path : String} {parts : List Part} {fill fill' : Gap → List Event}
    (h : ∀ g, .gap g ∈ parts → ∀ r ∈ rowsOf (fill g), isBelow path r.key.flat = true)
    (h' : ∀ g, .gap g ∈ parts → ∀ r ∈ rowsOf (fill' g), isBelow path r.key.flat = true) :
    (rowsOf (parts.flatMap (Part.events fill))).filter (fun r => !isBelow path r.key.flat) =
      (rowsOf (parts.flatMap (Part.events fill'))).filter (fun r => !isBelow path r.key.flat) := by
  simp only [rowsOf, List.filterMap_flatMap, List.filter_flatMap]
  refine List.flatMap_congr fun part hpart => ?_
  cases part with
  | event e => rfl
  | gap g =>
    have hnone {es : List Event} (hes : ∀ r ∈ rowsOf es, isBelow path r.key.flat = true) :
        (es.filterMap Event.row?).filter (fun r => !isBelow path r.key.flat) = [] := by
      refine List.filter_eq_nil_iff.2 fun r hr => ?_
      simp [hes r hr]
    rw [Part.events, Part.events, hnone (h g hpart), hnone (h' g hpart)]

namespace Flattener

/-- The flattener without an override at the path. -/
def withoutOverride (f : Flattener) (path : String) : Flattener := { f with overrides := f.overrides.erase path }

variable {f : Flattener} {path : String} {store : Option InternedStore}

theorem sameOff_withoutOverride (f : Flattener) (path : String) : f.SameOff path (f.withoutOverride path) where
  schema := rfl
  maxDepth := rfl
  references := rfl
  overrides q hq := by simp [withoutOverride, hq.symm]

theorem sameOff_override (f : Flattener) (path : String) (o : Override) : f.SameOff path (f.override path o) where
  schema := rfl
  maxDepth := rfl
  references := rfl
  overrides q hq := by simp [override, hq.symm]

/-- The last of two overrides of a path counts. -/
theorem override_override (f : Flattener) (path : String) (o o' : Override) :
    (f.override path o').override path o = f.override path o := by
  simp only [override, Assoc.insert_insert]

section Confined

variable (hf : ∀ q o, q ≠ path → f.overrides.get? q = some o → o.Confined)
include hf

theorem confined_withoutOverride :
    ∀ q o, (f.withoutOverride path).overrides.get? q = some o → o.Confined := by
  intro q o h
  rw [withoutOverride, Assoc.get?_erase] at h
  split at h
  · cases h
  · rename_i hq
    exact hf q o (Ne.symm hq) h

theorem confined_override {o : Override} (ho : o.Confined) :
    ∀ q o', (f.override path o).overrides.get? q = some o' → o'.Confined := by
  intro q o' h
  rw [override, Assoc.get?_insert] at h
  split at h
  · cases h
    exact ho
  · rename_i hq
    exact hf q o' (Ne.symm hq) h

variable (hn : PlainNames f.schema)
include hn

/-- An occurrence at the path has no others at the path below it. -/
theorem under_gap (g : Gap) :
    ∀ part ∈ f.genericOutline store (f.payloadOutline path store g.levels none) g.decl g.key g.field,
      part.Under g.key.flat path :=
  under_genericOutline (fun typeName => under_payloadOutline hn hf g.levels none typeName g.key) g.decl g.field

theorem isBelow_of_mem_eventsAt {f' : Flattener} (hs : f.SameOff path f')
    (hf' : ∀ q o, f'.overrides.get? q = some o → o.Confined) {g : Gap} (hk : g.key.flat = path) (hp : path ≠ "") :
    ∀ r ∈ rowsOf (f'.eventsAt store g), isBelow path r.key.flat = true := by
  intro r hr
  rw [eventsAt_eq hs fun q o ho => (hf' q o ho).toSteady] at hr
  obtain ⟨e, he, hr⟩ := List.mem_filterMap.1 hr
  obtain ⟨part, hpart, he⟩ := List.mem_flatMap.1 he
  have hunder := under_around (fun o ho => hf' _ o ho) (under_gap hf hn g) part hpart
  rw [hk] at hunder
  cases part with
  | event e' =>
    cases List.mem_singleton.1 he
    exact hunder r hr hp
  | gap g' => exact absurd hunder.2 (Nat.lt_irrefl _)

/-- What stands in a gap: the rows of the override and, as it says, what the walk without it comes by, or nothing, or
its fault. -/
theorem eventsAt_override {o : Override} (ho : o.Confined) {g : Gap} (hk : g.key.flat = path) :
    (f.override path o).eventsAt store g =
      (o.adds store g.field g.key).map .row ++
        match o.answer store g.field g.key with
        | .declined => (f.withoutOverride path).eventsAt store g
        | .handled => []
        | .failed e => [.fault e] := by
  -- the parts below are events, whatever stands in gaps
  have hfill (fill : Gap → List Event) :
      (f.genericOutline store (f.payloadOutline path store g.levels none) g.decl g.key g.field).flatMap
          (Part.events fill) =
        (f.genericOutline store (f.payloadOutline path store g.levels none) g.decl g.key g.field).flatMap
          (Part.events ((f.withoutOverride path).eventsAt store)) := by
    refine flatMap_events_congr fun g' hg' => absurd (under_gap hf hn g _ hg').2 ?_
    rw [hk]
    exact Nat.lt_irrefl _
  have hover (parts : List Part) : (f.override path o).around store g.field g.key parts =
      o.around store g.field g.key parts := by
    simp [around, override, hk]
  have hplain (parts : List Part) : (f.withoutOverride path).around store g.field g.key parts = parts := by
    simp [around, withoutOverride, hk]
  rw [eventsAt_eq (sameOff_override f path o) fun q o' h => (confined_override hf ho q o' h).toSteady,
    eventsAt_eq (sameOff_withoutOverride f path) fun q o' h => (confined_withoutOverride hf q o' h).toSteady,
    hover, hplain, ← hfill ((f.override path o).eventsAt store)]
  exact flatMap_events_around o store g.field g.key _ _

end Confined

end Flattener

/-- An override changes what the walk comes by at its path, and nothing else. All that the walk comes by elsewhere is in
an outline of it that does not depend on the override, with the occurrences at the path as gaps. An override that
declines everything and adds no rows might as well not be there, and one that was there before it has no effect. -/
theorem override_touches_own_path {f : Flattener} (hn : PlainNames f.schema) {path : String} {o : Override}
    (ho : o.Confined) (hf : ∀ q o', q ≠ path → f.overrides.get? q = some o' → o'.Confined) (bytes : List UInt8)
    (typeName : String) (allowed : Option (List Nat)) (t : Table) :
    let without := f.withoutOverride path
    let overridden := f.override path o
    let outside (r : Row) : Bool := !isBelow path r.key.flat
    let parts := f.outline path bytes typeName allowed t
    let own (g : Gap) : List Event :=
      (o.adds t.interned? g.field g.key).map .row ++
        match o.answer t.interned? g.field g.key with
        | .declined => without.eventsAt t.interned? g
        | .handled => []
        | .failed e => [.fault e]
    (overridden.emitted bytes typeName allowed t).filter outside =
        (without.emitted bytes typeName allowed t).filter outside ∧
      ((∀ field key, o.answer t.interned? field key = .declined ∧ o.adds t.interned? field key = []) →
        overridden.emitted bytes typeName allowed t = without.emitted bytes typeName allowed t ∧
          (overridden.flatten bytes typeName allowed t).1 = (without.flatten bytes typeName allowed t).1) ∧
      (∀ g, .gap g ∈ parts → g.key.flat = path) ∧
      (without.run bytes typeName allowed t).events = parts.flatMap (Part.events (without.eventsAt t.interned?)) ∧
      (overridden.run bytes typeName allowed t).events = parts.flatMap (Part.events own) ∧
      (overridden.flatten bytes typeName allowed t).1 = Fault.status (faultsOf (parts.flatMap (Part.events own))) ∧
      (overridden.flatten bytes typeName allowed t).2.rows = t.rows ++ rowsOf (parts.flatMap (Part.events own)) ∧
      ∀ o', (f.override path o').override path o = overridden := by
  intro without overridden outside parts own
  have hgap : ∀ g, .gap g ∈ parts → g.key.flat = path ∧ path ≠ "" := by
    intro g hg
    obtain ⟨hk, hlength⟩ := Flattener.under_payloadOutline hn hf _ _ _ _ _ _ hg
    refine ⟨hk, ?_⟩
    rintro rfl
    simp at hlength
  have hplain : (without.run bytes typeName allowed t).events =
      parts.flatMap (Part.events (without.eventsAt t.interned?)) :=
    Flattener.events_run (Flattener.sameOff_withoutOverride f path)
      (fun q o' h => (Flattener.confined_withoutOverride hf q o' h).toSteady) bytes typeName allowed t
  have hover : (overridden.run bytes typeName allowed t).events =
      parts.flatMap (Part.events (overridden.eventsAt t.interned?)) :=
    Flattener.events_run (Flattener.sameOff_override f path o)
      (fun q o' h => (Flattener.confined_override hf ho q o' h).toSteady) bytes typeName allowed t
  have hown : (overridden.run bytes typeName allowed t).events = parts.flatMap (Part.events own) := by
    rw [hover]
    exact flatMap_events_congr fun g hg => Flattener.eventsAt_override hf hn ho (hgap g hg).1
  refine ⟨?_, fun hidle => ?_, fun g hg => (hgap g hg).1, hplain, hown, ?_, ?_, Flattener.override_override f path o⟩
  · rw [Flattener.emitted, Flattener.emitted, hover, hplain]
    refine filter_rows_congr (fun g hg => ?_) fun g hg => ?_
    · exact Flattener.isBelow_of_mem_eventsAt hf hn (Flattener.sameOff_override f path o)
        (Flattener.confined_override hf ho) (hgap g hg).1 (hgap g hg).2
    · exact Flattener.isBelow_of_mem_eventsAt hf hn (Flattener.sameOff_withoutOverride f path)
        (Flattener.confined_withoutOverride hf) (hgap g hg).1 (hgap g hg).2
  · have hsame : (overridden.run bytes typeName allowed t).events = (without.run bytes typeName allowed t).events := by
      rw [hown, hplain]
      refine flatMap_events_congr fun g _ => ?_
      simp only [own, hidle]
      rfl
    simp only [Flattener.flatten_eq_run, Flattener.emitted, Flattener.recorded, hsame, and_self]
  · rw [Flattener.flatten_eq_run, Flattener.recorded, hown]
  · rw [Flattener.flatten_eq_run, Flattener.emitted, hown]

/-! ### An override that says all three things -/

/-- Adds a row beside the occurrence. -/
def noting : Override := fun _ key t => (.declined, t.add (key.member "note") (.bool true))

theorem confined_noting : noting.Confined where
  answer_eq _ _ _ _ := rfl
  adds_eq _ _ _ _ := rfl
  below _ _ key hk r hr := by
    cases List.mem_singleton.1 hr
    exact isBelow_joinName hk "note"

/-- Puts a text in the place of zero, does not take one, and counts all other values. -/
def judging : Override := fun field key t =>
  match field.varint? with
  | some 0 => (.handled, t.add key (.string "zero"))
  | some 1 => (.failed (.overrideFailed key.flat "rejected"), t)
  | _ => (.declined, (t.increment key.flat).2)

theorem confined_judging : judging.Confined where
  answer_eq field key indices store := by
    simp only [Override.answer, judging]
    split <;> rfl
  adds_eq field key indices store := by
    simp only [Override.adds, judging]
    split <;> rfl
  below store field key _ r hr := by
    simp only [Override.adds, judging] at hr
    split at hr
    · cases List.mem_singleton.1 hr
      exact isBelow_refl key.flat
    · cases hr
    · cases hr

def notingSample : Flattener := (Flattener.new (Schema.empty.declare sampleDecl)).override "s" noting

/-- In the nested message there are the three values, and the last of them before it as well. -/
def judgedBytes : List UInt8 := [0x08, 6, 0x12, 6, 0x08, 0, 0x08, 1, 0x08, 6]

theorem override_touches_own_path_nested :
    let without := notingSample.withoutOverride "s.a"
    let overridden := notingSample.override "s.a" judging
    PlainNames notingSample.schema ∧
      (without.emitted judgedBytes "T" none .empty) =
        [⟨⟨"a", "a[0]"⟩, .int 3⟩, ⟨⟨"s.note", "s[0].note"⟩, .bool true⟩, ⟨⟨"s.a", "s[0].a[0]"⟩, .int 0⟩,
          ⟨⟨"s.a", "s[0].a[1]"⟩, .int (-1)⟩, ⟨⟨"s.a", "s[0].a[2]"⟩, .int 3⟩] ∧
      overridden.flatten judgedBytes "T" none .empty =
        (.error (.overrideFailed "s.a" "rejected"),
          ⟨[⟨⟨"a", "a[0]"⟩, .int 3⟩, ⟨⟨"s.note", "s[0].note"⟩, .bool true⟩, ⟨⟨"s.a", "s[0].a[0]"⟩, .string "zero"⟩,
            ⟨⟨"s.a", "s[0].a[2]"⟩, .int 3⟩], Assoc.empty.insert "s.a" 1, none⟩) ∧
      (overridden.emitted judgedBytes "T" none .empty).filter (fun r => !isBelow "s.a" r.key.flat) =
        (without.emitted judgedBytes "T" none .empty).filter (fun r => !isBelow "s.a" r.key.flat) := by
  intro without overridden
  have hn : PlainNames notingSample.schema := plainNames_of_pairs (by decide)
  have hf : ∀ q o, q ≠ "s.a" → notingSample.overrides.get? q = some o → o.Confined := by
    intro q o _ h
    simp only [notingSample, Flattener.override, Flattener.new, Assoc.get?_insert, Assoc.get?_empty] at h
    split at h
    · cases h
      exact confined_noting
    · cases h
  obtain ⟨hrows, -⟩ := override_touches_own_path hn confined_judging hf judgedBytes "T" none .empty
  exact ⟨hn, by cbv, by cbv, hrows⟩

end TraceTables.Arguments
