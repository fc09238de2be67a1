import TraceTables.Proofs.Arguments.Flattening

/-! A reference to an interned payload is the same as the payload in its place. The walk enters both in the same way,
with the same key and as many levels left, and never comes back to the path of the reference, since all paths below it
are longer. Only an empty path has itself below it, under fields without names. -/

namespace TraceTables.Arguments

open Schema (FieldDecl MessageDecl)

/-- The declaration of the same field as a message. -/
def asMessage (decl : FieldDecl) (typeName : String) : FieldDecl :=
  { decl with type := .message, typeName? := some typeName }

namespace Flattener

/-- Takes away the reference at a path. -/
def unrefer (f : Flattener) (path : String) : Flattener := { f with references := f.references.erase path }

variable {f : Flattener} {path : String} {store : Option InternedStore}

/-- What the walk does at other paths is left as it is, if the messages below are entered as before. -/
theorem visitValue_unrefer {descend descend' : Option Descent} {key : Key} (hk : key.flat ≠ path)
    (h : ∀ typeName payload indices,
      (f.unrefer path).enter descend' typeName key payload indices = f.enter descend typeName key payload indices)
    (decl : FieldDecl) (field : Wire.Field) (indices : ArrayIndices) :
    (f.unrefer path).visitValue store descend' decl key field indices =
      f.visitValue store descend decl key field indices := by
  have href : (f.unrefer path).references.get? key.flat = f.references.get? key.flat := by
    simp [unrefer, hk.symm]
  have hgeneric : (f.unrefer path).generic store descend' decl key field = f.generic store descend decl key field := by
    funext indices
    simp only [generic, href, followReference, interpret, h]
  simp only [visitValue, hgeneric]
  rfl

/-- Below a path that is not empty its reference is not looked at. -/
theorem enter_unrefer (levels : Nat) {key : Key} (hk : path.length ≤ key.flat.length) (hne : key.flat ≠ "")
    (typeName : String) (payload : List UInt8) (indices : ArrayIndices) :
    (f.unrefer path).enter ((f.unrefer path).below store levels) typeName key payload indices =
      f.enter (f.below store levels) typeName key payload indices := by
  induction levels generalizing key typeName payload indices with
  | zero => rfl
  | succ levels ih =>
    have hvisit : (f.unrefer path).visit store ((f.unrefer path).below store levels) key =
        f.visit store (f.below store levels) key := by
      funext o indices
      cases o with
      | value decl index field =>
        have hlonger : key.flat.length < (joinName key.flat decl.name).length := length_lt_joinName (Or.inl hne)
        rw [← Key.flat_field key decl.name index] at hlonger
        refine visitValue_unrefer ?_ (ih ?_ ?_) decl field indices
        · rintro rfl
          omega
        · omega
        · intro he
          simp [he] at hlonger
      | broken decl e => rfl
    have hmessage (m : MessageDecl) (indices : ArrayIndices) :
        (f.unrefer path).walkMessage store ((f.unrefer path).below store levels) none m key payload indices =
          f.walkMessage store (f.below store levels) none m key payload indices := by
      simp only [walkMessage, hvisit]
    simp only [below, enter, hmessage]
    rfl

end Flattener

/-! ## The payload in the place of the reference -/

/-- The payload that an id stands for. -/
def Reference.payload? (ref : Reference) (store : Option InternedStore) (iid : UInt64) : Option (List UInt8) :=
  store.bind fun s => s.get? ⟨ref.fieldId, iid⟩

section Numbered

variable {decl : FieldDecl} {typeName : String} {n : Nat}

/-- A message in the place of each id is numbered as the id is. -/
theorem counts_asMessage (entries : List (UInt64 × List UInt8)) (counts : Counts) :
    (numbered (asMessage decl typeName) counts (entries.map fun e => ⟨n, .bytes e.2⟩)).2 =
      (numbered decl counts (entries.map fun e => ⟨n, .varint e.1⟩)).2 := by
  induction entries generalizing counts with
  | nil => rfl
  | cons e entries ih =>
    simp only [List.map_cons, numbered_cons]
    exact ih (counts.next decl)

theorem inTurn_asMessage {step step' : Occurrence → ArrayIndices → Progress} {entries : List (UInt64 × List UInt8)}
    (h : ∀ e ∈ entries, ∀ index indices, step (.value decl index ⟨n, .varint e.1⟩) indices =
      step' (.value (asMessage decl typeName) index ⟨n, .bytes e.2⟩) indices)
    (counts : Counts) (indices : ArrayIndices) :
    Progress.inTurn step (numbered decl counts (entries.map fun e => ⟨n, .varint e.1⟩)).1 indices =
      Progress.inTurn step' (numbered (asMessage decl typeName) counts (entries.map fun e => ⟨n, .bytes e.2⟩)).1
        indices := by
  induction entries generalizing counts indices with
  | nil => rfl
  | cons e entries ih =>
    have hstep := h e List.mem_cons_self (counts.index decl) indices
    have hrest := ih (fun e' he' => h e' (List.mem_cons_of_mem e he')) (counts.next decl)
    simp only [List.map_cons, numbered_cons, Progress.inTurn, Progress.andThen, hstep, hrest]
    rfl

end Numbered

namespace Flattener

variable {f : Flattener} {store : Option InternedStore} {parent : Key} {decl : FieldDecl} {ref : Reference}

section Reference

variable (hr : f.references.get? (joinName parent.flat decl.name) = some ref)
  (ho : f.overrides.get? (joinName parent.flat decl.name) = none)
include hr ho

theorem visit_reference (descend : Option Descent) (index : Option Nat) (field : Wire.Field) (indices : ArrayIndices) :
    f.visit store descend parent (.value decl index field) indices =
      f.followReference store descend decl ref (parent.field decl.name index) field indices := by
  simp only [visit, visitValue, generic, Key.flat_field, hr, ho]

theorem visit_asMessage {iid : UInt64} {payload : List UInt8} (hs : ref.payload? store iid = some payload)
    {descend descend' : Option Descent} (index : Option Nat) (n : Nat) (indices : ArrayIndices)
    (h : (f.unrefer (joinName parent.flat decl.name)).enter descend' ref.typeName (parent.field decl.name index) payload
        indices = f.enter descend ref.typeName (parent.field decl.name index) payload indices) :
    f.visit store descend parent (.value decl index ⟨n, .varint iid⟩) indices =
      (f.unrefer (joinName parent.flat decl.name)).visit store descend' parent
        (.value (asMessage decl ref.typeName) index ⟨n, .bytes payload⟩) indices := by
  rw [visit_reference hr ho, followReference]
  unfold Reference.payload? at hs
  have ho' : (f.unrefer (joinName parent.flat decl.name)).overrides.get? (joinName parent.flat decl.name) = none := ho
  have hr' : (f.unrefer (joinName parent.flat decl.name)).references.get? (joinName parent.flat decl.name) = none := by
    simp [unrefer]
  simp only [Wire.Field.varint?, hs, visit, visitValue, generic, asMessage, Key.flat_field, ho', hr', interpret,
    Wire.Field.bytes?, Option.getD_some]
  exact h.symm

end Reference

/-- The walk below a path, with its reference or without it. It makes no difference unless the path is empty. -/
def DescentBelow (f : Flattener) (path : String) (store : Option InternedStore) (levels : Nat)
    (descend : Option Descent) : Prop :=
  descend = f.below store levels ∨ path ≠ "" ∧ descend = (f.unrefer path).below store levels

theorem DescentBelow.enter {path : String} {levels : Nat} {descend : Option Descent}
    (h : f.DescentBelow path store levels descend) {key : Key} (hk : key.flat = path) (typeName : String)
    (payload : List UInt8) (indices : ArrayIndices) :
    (f.unrefer path).enter descend typeName key payload indices =
      f.enter (f.below store levels) typeName key payload indices := by
  rcases h with rfl | ⟨hne, rfl⟩
  · rfl
  · subst hk
    exact enter_unrefer levels (Nat.le_refl _) hne typeName payload indices

end Flattener

/-- A value at the path of a reference is followed as if its field were a message and the payload stood there, with the
same rows, faults and keys, be it on its own or an element of a packed field. An id without a payload and a value that
is no id give one fault and nothing else. -/
theorem reference_inlines {f : Flattener} {parent : Key} {decl : FieldDecl} {ref : Reference}
    (hr : f.references.get? (joinName parent.flat decl.name) = some ref)
    (ho : f.overrides.get? (joinName parent.flat decl.name) = none) (store : Option InternedStore) (levels : Nat)
    (indices : ArrayIndices) :
    let path := joinName parent.flat decl.name
    let visit := f.visit store (f.below store levels) parent
    (∀ descend, f.DescentBelow path store levels descend →
      let visitPlain := (f.unrefer path).visit store descend parent
      (∀ index n iid payload, ref.payload? store iid = some payload →
        visit (.value decl index ⟨n, .varint iid⟩) indices =
          visitPlain (.value (asMessage decl ref.typeName) index ⟨n, .bytes payload⟩) indices) ∧
      ∀ counts field (entries : List (UInt64 × List UInt8)),
        (elements decl field).values = entries.map (fun e => ⟨field.number, .varint e.1⟩) →
        (∀ e ∈ entries, ref.payload? store e.1 = some e.2) →
          let referring := numbered decl counts (elements decl field).values
          let carrying := numbered (asMessage decl ref.typeName) counts
            (entries.map fun e => ⟨field.number, .bytes e.2⟩)
          carrying.2 = referring.2 ∧
            Progress.inTurn visit referring.1 indices = Progress.inTurn visitPlain carrying.1 indices) ∧
    (∀ index n iid, ref.payload? store iid = none →
      visit (.value decl index ⟨n, .varint iid⟩) indices =
        .fault (.internedMissing (parent.field decl.name index).full ref.fieldId iid) indices) ∧
    ∀ index field, field.varint? = none →
      visit (.value decl index field) indices =
        .fault (.wireMismatch (parent.field decl.name index).full decl.type field.value.wireType) indices := by
  intro path visit
  have hfollow (index : Option Nat) (field : Wire.Field) : visit (.value decl index field) indices =
      f.followReference store (f.below store levels) decl ref (parent.field decl.name index) field indices :=
    Flattener.visit_reference hr ho _ index field indices
  have hvisit {descend : Option Descent} (hdescend : f.DescentBelow path store levels descend) (index : Option Nat)
      (n : Nat) {iid : UInt64} {payload : List UInt8} (hs : ref.payload? store iid = some payload)
      (indices : ArrayIndices) : visit (.value decl index ⟨n, .varint iid⟩) indices =
        (f.unrefer path).visit store descend parent (.value (asMessage decl ref.typeName) index ⟨n, .bytes payload⟩)
          indices :=
    Flattener.visit_asMessage hr ho hs index n indices
      (hdescend.enter (Key.flat_field parent decl.name index) ref.typeName payload indices)
  refine ⟨fun descend hdescend => ⟨?_, ?_⟩, ?_, ?_⟩
  · intro index n iid payload hs
    exact hvisit hdescend index n hs indices
  · intro counts field entries hvalues hs referring carrying
    refine ⟨?_, ?_⟩
    · simp only [referring, carrying, hvalues]
      exact counts_asMessage entries counts
    · simp only [referring, carrying, hvalues]
      exact inTurn_asMessage (fun e he index indices => hvisit hdescend index field.number (hs e he) indices) counts
        indices
  · intro index n iid hs
    unfold Reference.payload? at hs
    simp only [hfollow, Flattener.followReference, Wire.Field.varint?, hs]
  · intro index field hv
    simp only [hfollow, Flattener.followReference, Flattener.mismatch, hv]

/-! ### Ids in a packed field -/

def idsDecl : FieldDecl := ⟨"r", 3, .uint64, none, true, false⟩

def referringSample : Flattener := (Flattener.new (Schema.empty.declare sampleDecl)).refer "r" 5 "T"

/-- The second of the payloads breaks off. -/
def storeSample : InternedStore := (Assoc.empty.insert ⟨5, 1⟩ [0x08, 2]).insert ⟨5, 2⟩ [0x08, 4, 0x08]

theorem reference_inlines_packed :
    let plain := referringSample.unrefer "r"
    let visit := referringSample.visit (some storeSample) (referringSample.below (some storeSample) 1) Key.root
    let visitPlain := plain.visit (some storeSample) (plain.below (some storeSample) 1) Key.root
    let referring := (numbered idsDecl Assoc.empty (elements idsDecl ⟨3, .bytes [1, 2]⟩).values).1
    let carrying :=
      (numbered (asMessage idsDecl ".T") Assoc.empty [⟨3, .bytes [0x08, 2]⟩, ⟨3, .bytes [0x08, 4, 0x08]⟩]).1
    Progress.inTurn visit referring Assoc.empty = Progress.inTurn visitPlain carrying Assoc.empty ∧
      (Progress.inTurn visitPlain carrying Assoc.empty).events =
        [.row ⟨⟨"r.a", "r[0].a[0]"⟩, .int 1⟩, .row ⟨⟨"r.a", "r[1].a[0]"⟩, .int 2⟩,
          .fault (.malformed ".T" "r[1]" .badVarint)] ∧
      visit (.value idsDecl (some 2) ⟨3, .varint 7⟩) Assoc.empty = .fault (.internedMissing "r[2]" 5 7) Assoc.empty ∧
      visit (.value idsDecl (some 2) ⟨3, .fixed32 7⟩) Assoc.empty =
        .fault (.wireMismatch "r[2]" .uint64 .fixed32) Assoc.empty := by
  have hr : referringSample.references.get? (joinName Key.root.flat idsDecl.name) = some ⟨5, ".T"⟩ := by cbv
  have ho : referringSample.overrides.get? (joinName Key.root.flat idsDecl.name) = none := rfl
  have hdescend : referringSample.DescentBelow (joinName Key.root.flat idsDecl.name) (some storeSample) 1
      ((referringSample.unrefer "r").below (some storeSample) 1) := Or.inr ⟨by decide, rfl⟩
  have hentries : (elements idsDecl ⟨3, .bytes [1, 2]⟩).values =
      [((1 : UInt64), [(0x08 : UInt8), 2]), (2, [0x08, 4, 0x08])].map fun e => ⟨3, .varint e.1⟩ := by cbv
  obtain ⟨hinline, hmissing, hmismatch⟩ := reference_inlines hr ho (some storeSample) 1 Assoc.empty
  refine ⟨((hinline _ hdescend).2 Assoc.empty _ _ hentries ?_).2, by cbv, ?_, ?_⟩
  · decide
  · exact hmissing (some 2) 3 7 (by decide)
  · exact hmismatch (some 2) ⟨3, .fixed32 7⟩ rfl

end TraceTables.Arguments
