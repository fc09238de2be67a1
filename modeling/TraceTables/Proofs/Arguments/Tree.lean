import TraceTables.Proofs.Arguments.Path
import TraceTables.Proofs.Arguments.Scalar
import TraceTables.Proofs.Arguments.Visits

/-! Messages as trees of their fields. A tree of a declared type is written field by field, and what is written can be
read. Each scalar of a tree is a leaf with a path of fields to it. -/

namespace TraceTables.Arguments

open Schema (FieldDecl MessageDecl)

/-- Occurrences of declared fields one behind the other: a value under its own key, values packed under one key, or a
message. -/
inductive Tree where
  | nil
  | scalar (decl : FieldDecl) (s : Scalar) (rest : Tree)
  | packed (decl : FieldDecl) (ss : List Scalar) (rest : Tree)
  | message (decl : FieldDecl) (inner rest : Tree)

/-- A scalar and the path to it. -/
structure Leaf where
  path : List Segment
  scalar : Scalar

def Leaf.row (l : Leaf) : Row := ⟨Key.ofPath l.path, l.scalar.value⟩

/-- A field that can be written. -/
structure Declares (m : MessageDecl) (decl : FieldDecl) : Prop where
  found : m.field? decl.number = some decl
  nonzero : decl.number ≠ 0
  small : decl.number < 2 ^ 29

/-- The tree is one of the message type, with no more than the given levels of messages below it. -/
inductive Conforms (schema : Schema) : Nat → MessageDecl → Tree → Prop where
  | nil {levels : Nat} {m : MessageDecl} : Conforms schema levels m .nil
  | scalar {levels : Nat} {m : MessageDecl} {decl : FieldDecl} {s : Scalar} {rest : Tree} :
      Declares m decl → s.type = decl.type → Conforms schema levels m rest →
        Conforms schema levels m (.scalar decl s rest)
  | packed {levels : Nat} {m : MessageDecl} {decl : FieldDecl} {packing : Wire.Packing} {ss : List Scalar}
      {rest : Tree} :
      Declares m decl → decl.repeated = true → decl.packing? = some packing → (∀ s ∈ ss, s.type = decl.type) →
        Conforms schema levels m rest → Conforms schema levels m (.packed decl ss rest)
  | message {levels : Nat} {m sub : MessageDecl} {decl : FieldDecl} {typeName : String} {inner rest : Tree} :
      Declares m decl → decl.type = .message → decl.typeName? = some typeName → schema.find? typeName = some sub →
        Conforms schema levels sub inner → Conforms schema (levels + 1) m rest →
          Conforms schema (levels + 1) m (.message decl inner rest)

namespace Tree

def fields : Tree → List Wire.Field
  | nil => []
  | scalar decl s rest => ⟨decl.number, s.wire⟩ :: rest.fields
  | packed decl ss rest => ⟨decl.number, .bytes ((ss.map Scalar.wire).flatMap Wire.Value.write)⟩ :: rest.fields
  | message decl inner rest => ⟨decl.number, .bytes (inner.fields.flatMap Wire.Field.write)⟩ :: rest.fields

def encode (t : Tree) : List UInt8 := t.fields.flatMap Wire.Field.write

theorem length_encode_rest {f : Wire.Field} {t rest : Tree} (h : t.fields = f :: rest.fields) :
    rest.encode.length ≤ t.encode.length := by
  simp only [encode, h, List.flatMap_cons, List.length_append]
  omega

/-- A path is extended by a field behind occurrences of the given numbers. -/
def extend (path : List Segment) (earlier : List Nat) (decl : FieldDecl) : List Segment :=
  path ++ [⟨decl.name, place earlier decl⟩]

/-- The leaves of values that are packed under one key. -/
def packedLeaves (path : List Segment) (decl : FieldDecl) : List Nat → List Scalar → List Leaf
  | _, [] => []
  | earlier, s :: ss => ⟨extend path earlier decl, s⟩ :: packedLeaves path decl (decl.number :: earlier) ss

/-- The leaves of a tree below a path, behind occurrences of the given numbers in the same message. -/
def leaves : List Segment → List Nat → Tree → List Leaf
  | _, _, nil => []
  | path, earlier, scalar decl s rest =>
    ⟨extend path earlier decl, s⟩ :: leaves path (decl.number :: earlier) rest
  | path, earlier, packed decl ss rest =>
    packedLeaves path decl earlier ss ++ leaves path (List.replicate ss.length decl.number ++ earlier) rest
  | path, earlier, message decl inner rest =>
    leaves (extend path earlier decl) [] inner ++ leaves path (decl.number :: earlier) rest

end Tree

/-! ## What is written can be read -/

section Written

variable {schema : Schema} {levels : Nat} {m : MessageDecl} {t : Tree}

theorem Conforms.numbered (h : Conforms schema levels m t) :
    ∀ f ∈ t.fields, f.number ≠ 0 ∧ f.number < 2 ^ 29 ∧ ∀ body, f.value ≠ .group body := by
  induction h with
  | nil => simp [Tree.fields]
  | @scalar _ _ decl s _ hd _ _ ih =>
    intro f hf
    rcases List.mem_cons.1 hf with rfl | hf
    · exact ⟨hd.nonzero, hd.small, s.wire_ne_group⟩
    · exact ih f hf
  | packed hd _ _ _ _ ih =>
    intro f hf
    rcases List.mem_cons.1 hf with rfl | hf
    · exact ⟨hd.nonzero, hd.small, by simp⟩
    · exact ih f hf
  | message hd _ _ _ _ _ _ ih =>
    intro f hf
    rcases List.mem_cons.1 hf with rfl | hf
    · exact ⟨hd.nonzero, hd.small, by simp⟩
    · exact ih f hf

theorem Conforms.writable (h : Conforms schema levels m t) (hl : t.encode.length < 2 ^ 64) :
    ∀ f ∈ t.fields, f.Writable := by
  intro f hf
  obtain ⟨h0, hn, hg⟩ := h.numbered f hf
  refine ⟨h0, hn, ?_, fun body hv => absurd hv (hg body)⟩
  intro payload hv
  have h1 := Wire.Field.length_payload_le hv
  have h2 : f.write.length ≤ t.encode.length := Wire.Field.length_write_le hf
  omega

theorem Conforms.fields_encode (h : Conforms schema levels m t) (hl : t.encode.length < 2 ^ 64) :
    Wire.fields t.encode = ⟨t.fields, none⟩ :=
  Wire.fields_write (h.writable hl)

/-! ## Pieces -/

theorem pieces_scalar {decl : FieldDecl} {s : Scalar} (hd : Declares m decl) (hs : s.type = decl.type) :
    pieces m none ⟨decl.number, s.wire⟩ = [.value decl ⟨decl.number, s.wire⟩] := by
  have hsingle : decl.packing? = none ∨ ∀ payload, s.wire ≠ .bytes payload := by
    by_cases hb : ∃ payload, s.wire = .bytes payload
    · obtain ⟨payload, hv⟩ := hb
      rw [FieldDecl.packing?, ← hs]
      exact Or.inl (Scalar.packing?_of_wire_eq_bytes hv)
    · exact Or.inr fun payload hv => hb ⟨payload, hv⟩
  exact pieces_of_single (f := ⟨decl.number, s.wire⟩) hd.found hsingle none

theorem pieces_message {decl : FieldDecl} {payload : List UInt8} (hd : Declares m decl) (ht : decl.type = .message) :
    pieces m none ⟨decl.number, .bytes payload⟩ = [.value decl ⟨decl.number, .bytes payload⟩] := by
  have hp : decl.packing? = none := by rw [FieldDecl.packing?, ht]; rfl
  exact pieces_of_single (f := ⟨decl.number, .bytes payload⟩) hd.found (Or.inl hp) none

theorem pieces_packed {decl : FieldDecl} {packing : Wire.Packing} {ss : List Scalar} (hd : Declares m decl)
    (hr : decl.repeated = true) (hp : decl.packing? = some packing) (hs : ∀ s ∈ ss, s.type = decl.type) :
    pieces m none ⟨decl.number, .bytes ((ss.map Scalar.wire).flatMap Wire.Value.write)⟩ =
      ss.map fun s => .value decl ⟨decl.number, s.wire⟩ := by
  have hw : ∀ v ∈ ss.map Scalar.wire, v.wireType = packing.wireType := by
    intro v hv
    obtain ⟨s, hm, rfl⟩ := List.mem_map.1 hv
    refine Scalar.wireType_wire ?_
    rw [hs s hm]
    exact hp
  rw [pieces_of_packed (f := ⟨decl.number, .bytes _⟩) hd.found hr hp rfl (Wire.Packing.values_write hw)]
  simp [lets, Function.comp_def]

end Written

end TraceTables.Arguments
