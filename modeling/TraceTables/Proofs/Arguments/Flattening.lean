import Mathlib
import TraceTables.Proofs.Arguments.Tree
import TraceTables.Proofs.Arguments.Visits

/-! Flattening of a message that was written from a tree. It gives one row for each leaf, in the order of the fields,
and nothing fails. -/

namespace TraceTables.Arguments

open Schema (FieldDecl MessageDecl)

namespace Flattener

variable {f : Flattener} {store : Option InternedStore} {depth : Nat} {key : Key}

/-- The events at the pieces of a message, behind occurrences of the given numbers. -/
def pieceEvents (f : Flattener) (store : Option InternedStore) (depth : Nat) (key : Key) (earlier : List Nat)
    (ps : List Piece) : List Event :=
  ((placed earlier ps).flatMap (occurrenceVisits (f.valueVisits store depth) key)).flatMap Visit.events

theorem pieceEvents_value (earlier : List Nat) (decl : FieldDecl) (field : Wire.Field) (ps : List Piece) :
    f.pieceEvents store depth key earlier (.value decl field :: ps) =
      (f.valueVisits store depth decl (key.field decl.name (place earlier decl)) field).flatMap Visit.events ++
        f.pieceEvents store depth key (decl.number :: earlier) ps := by
  simp [pieceEvents, placed, occurrenceVisits]

theorem valueVisits_scalar (hr : f.references = Assoc.empty) {decl : FieldDecl} {s : Scalar} (hs : s.type = decl.type)
    (n : Nat) :
    f.valueVisits store depth decl key ⟨n, s.wire⟩ = [.scalar decl key s.wire] := by
  obtain ⟨hm, hb, hg⟩ := s.type_ne
  rw [hs] at hm hb hg
  have ht : f.target store decl key ⟨n, s.wire⟩ = .value := by simp [target, hr, hm]
  rw [valueVisits, ht]
  simp [hb, hg]

theorem events_scalar {decl : FieldDecl} {s : Scalar} (hs : s.type = decl.type) :
    (Visit.scalar decl key s.wire).events = [.row ⟨key, s.value⟩] := by
  rw [Visit.events, ← hs, s.scalar?_wire]

/-- A message of a known type is entered as long as it is not too deep. -/
theorem valueVisits_message (hr : f.references = Assoc.empty) {decl : FieldDecl} (ht : decl.type = .message)
    {typeName : String} (hn : decl.typeName? = some typeName) {sub : MessageDecl}
    (hs : f.schema.find? typeName = some sub) (hd : depth < f.maxDepth) (n : Nat) (payload : List UInt8) :
    f.valueVisits store depth decl key ⟨n, .bytes payload⟩ =
      .entered sub key :: messageVisits (f.valueVisits store (depth + 1)) none sub key payload := by
  have h : f.target store decl key ⟨n, .bytes payload⟩ = .payload typeName payload := by simp [target, hr, ht, hn]
  rw [valueVisits, h]
  simp only
  rw [payloadVisits, if_pos hd, hs]

theorem messageVisits_eq {m : MessageDecl} {payload : List UInt8} {fs : List Wire.Field}
    (h : Wire.fields payload = ⟨fs, none⟩) :
    (messageVisits (f.valueVisits store depth) none m key payload).flatMap Visit.events =
      f.pieceEvents store depth key [] (fs.flatMap (pieces m none)) := by
  simp [messageVisits, pieceEvents, h]

theorem pieceEvents_packed (hr : f.references = Assoc.empty) {decl : FieldDecl} {ss : List Scalar}
    (hs : ∀ s ∈ ss, s.type = decl.type) (path : List Segment) (earlier : List Nat) (ps : List Piece) :
    f.pieceEvents store depth (Key.ofPath path) earlier ((ss.map fun s => .value decl ⟨decl.number, s.wire⟩) ++ ps) =
      (Tree.packedLeaves path decl earlier ss).map (fun l => .row l.row) ++
        f.pieceEvents store depth (Key.ofPath path) (List.replicate ss.length decl.number ++ earlier) ps := by
  induction ss generalizing earlier with
  | nil => rfl
  | cons s ss ih =>
    have h := hs s List.mem_cons_self
    rw [List.map_cons, List.cons_append, pieceEvents_value, valueVisits_scalar hr h, List.flatMap_singleton,
      events_scalar h, ih fun s' hs' => hs s' (List.mem_cons_of_mem s hs')]
    simp [Tree.packedLeaves, Tree.extend, Leaf.row, Key.ofPath_concat, List.replicate_succ', List.append_assoc]

/-- The events at the fields of a tree are the rows of its leaves. -/
theorem pieceEvents_tree (hr : f.references = Assoc.empty) {levels : Nat} {m : MessageDecl} {t : Tree}
    (h : Conforms f.schema levels m t) :
    ∀ (depth : Nat), depth + levels = f.maxDepth → t.encode.length < 2 ^ 64 →
      ∀ (path : List Segment) (earlier : List Nat),
        f.pieceEvents store depth (Key.ofPath path) earlier (t.fields.flatMap (pieces m none)) =
          (t.leaves path earlier).map fun l => .row l.row := by
  induction h with
  | nil => intro _ _ _ _ _; rfl
  | @scalar _ _ decl s rest hd hs hrest ih =>
    intro depth hdepth hl path earlier
    have hl' : rest.encode.length < 2 ^ 64 := Nat.lt_of_le_of_lt (Tree.length_encode_rest rfl) hl
    rw [Tree.fields, List.flatMap_cons, pieces_scalar hd hs, List.singleton_append, pieceEvents_value,
      valueVisits_scalar hr hs, List.flatMap_singleton, events_scalar hs, ih depth hdepth hl' path]
    simp [Tree.leaves, Tree.extend, Leaf.row, Key.ofPath_concat]
  | @packed _ _ decl packing ss rest hd hrep hp hs hrest ih =>
    intro depth hdepth hl path earlier
    have hl' : rest.encode.length < 2 ^ 64 := Nat.lt_of_le_of_lt (Tree.length_encode_rest rfl) hl
    rw [Tree.fields, List.flatMap_cons, pieces_packed hd hrep hp hs, pieceEvents_packed hr hs,
      ih depth hdepth hl' path, Tree.leaves, List.map_append]
  | @message levels _ sub decl typeName inner rest hd ht hn hsub hinner hrest ihi ihr =>
    intro depth hdepth hl path earlier
    have hl' : rest.encode.length < 2 ^ 64 := Nat.lt_of_le_of_lt (Tree.length_encode_rest rfl) hl
    have hi : inner.encode.length < 2 ^ 64 := by
      have hw := (Conforms.message hd ht hn hsub hinner hrest).writable hl _ List.mem_cons_self
      exact hw.sized _ rfl
    have hf : Wire.fields (inner.fields.flatMap Wire.Field.write) = ⟨inner.fields, none⟩ := hinner.fields_encode hi
    -- the inner message is one level deeper and counts its own occurrences from none on
    rw [Tree.fields, List.flatMap_cons, pieces_message hd ht, List.singleton_append, pieceEvents_value,
      valueVisits_message hr ht hn hsub (by omega), List.flatMap_cons, ← Key.ofPath_concat,
      messageVisits_eq hf, ihi (depth + 1) (by omega) hi, ihr depth hdepth hl' path]
    simp [Visit.events, Tree.leaves, Tree.extend]

end Flattener

theorem rowsOf_map_row (rows : List Row) : rowsOf (rows.map .row) = rows := by
  simp [rowsOf, List.filterMap_map, Function.comp_def, Event.row?]

theorem faultsOf_map_row (rows : List Row) : faultsOf (rows.map .row) = [] := by
  simp [faultsOf, List.filterMap_map, Function.comp_def, Event.fault?]

/-- Flattening what was written from a tree of a known type adds one row for each leaf of the tree, in order, and the
status is good. The key of a row is the dotted path of its leaf, in which empty names in front leave no dots behind, and
a number of single precision has become the double that it is. -/
theorem flatten_encode (schema : Schema) (maxDepth : Nat) {typeName : String} {m : MessageDecl}
    (hm : schema.find? typeName = some m) {tree : Tree} (hc : Conforms schema maxDepth m tree)
    (hl : tree.encode.length < 2 ^ 64) (t : Table) :
    let f : Flattener := ⟨schema, maxDepth, Assoc.empty, Assoc.empty⟩
    f.flatten tree.encode typeName none t =
        (.ok (), { t with rows := t.rows ++ (tree.leaves [] []).map Leaf.row }) ∧
      (∀ l ∈ tree.leaves [] [], (∀ s, l.path.head? = some s → s.name ≠ "") →
        l.row.key = ⟨".".intercalate (l.path.map Segment.name), ".".intercalate (l.path.map Segment.text)⟩) ∧
      ∀ l ∈ tree.leaves [] [], ∀ x, l.scalar = .float x → ∃ y, l.row.value = .real y ∧ Binary64.Widens x y := by
  intro f
  refine ⟨?_, fun l _ => Key.ofPath_eq_intercalate, ?_⟩
  · have hm' : f.schema.find? typeName = some m := hm
    have hevents : (f.walk t.interned? none m tree.encode t.indices) =
        ⟨((tree.leaves [] []).map Leaf.row).map .row, t.indices⟩ := by
      rw [Flattener.walk_eq rfl, Flattener.visits, Flattener.messageVisits_eq (hc.fields_encode hl), ← Key.ofPath_nil,
        Flattener.pieceEvents_tree rfl hc 0 (Nat.zero_add _) hl, List.map_map]
      rfl
    simp only [Flattener.flatten, hm', hevents, rowsOf_map_row, faultsOf_map_row]
    rfl
  · intro l _ x hx
    exact ⟨Binary64.ofSingle x.bits, by rw [Leaf.row, hx, Scalar.value], Binary64.widens_ofSingle x⟩

/-! ### A message with packed numbers in a nested one -/

def numbersDecl : FieldDecl := ⟨"a", 1, .sint32, none, true, false⟩

def insideDecl : FieldDecl := ⟨"s", 2, .message, some ".T", true, false⟩

def sampleDecl : MessageDecl := (MessageDecl.named "T").addAll [numbersDecl, insideDecl]

def sampleTree : Tree :=
  .scalar numbersDecl (.sint32 (-1)) <|
    .message insideDecl (.packed numbersDecl [.sint32 2, .sint32 3] .nil) <| .scalar numbersDecl (.sint32 4) .nil

theorem conforms_sample : Conforms (Schema.empty.declare sampleDecl) 1 sampleDecl sampleTree := by
  have hn : Declares sampleDecl numbersDecl := ⟨rfl, by decide, by decide⟩
  have hi : Declares sampleDecl insideDecl := ⟨rfl, by decide, by decide⟩
  refine .scalar hn rfl (.message hi rfl rfl rfl (.packed hn rfl rfl ?_ .nil) (.scalar hn rfl .nil))
  simp [Scalar.type, numbersDecl]

theorem flatten_encode_sample :
    Conforms (Schema.empty.declare sampleDecl) 1 sampleDecl sampleTree ∧
      ((⟨Schema.empty.declare sampleDecl, 1, Assoc.empty, Assoc.empty⟩ : Flattener).flatten
        sampleTree.encode "T" none .empty).2.rows =
          [⟨⟨"a", "a[0]"⟩, .int (-1)⟩, ⟨⟨"s.a", "s[0].a[0]"⟩, .int 2⟩, ⟨⟨"s.a", "s[0].a[1]"⟩, .int 3⟩,
           ⟨⟨"a", "a[1]"⟩, .int 4⟩] := by
  refine ⟨conforms_sample, ?_⟩
  have hm : (Schema.empty.declare sampleDecl).find? "T" = some sampleDecl := rfl
  have hl : sampleTree.encode.length < 2 ^ 64 := by
    have he : sampleTree.encode.length = 10 := by cbv
    omega
  rw [(flatten_encode _ 1 hm conforms_sample hl .empty).1]
  cbv

/-! ### A message in a field without a name -/

def unnamedDecl : FieldDecl := ⟨"", 1, .message, some ".T", false, false⟩

def unnamedMessage : MessageDecl := (MessageDecl.named "U").addAll [unnamedDecl]

def unnamedSchema : Schema := (Schema.empty.declare sampleDecl).declare unnamedMessage

def unnamedTree : Tree := .message unnamedDecl (.scalar numbersDecl (.sint32 1) .nil) .nil

/-- The dotted path of the only leaf starts with a dot, which both keys of its row leave out. -/
theorem flatten_encode_unnamed :
    unnamedSchema.find? "U" = some unnamedMessage ∧ Conforms unnamedSchema 1 unnamedMessage unnamedTree ∧
      ((⟨unnamedSchema, 1, Assoc.empty, Assoc.empty⟩ : Flattener).flatten unnamedTree.encode "U" none .empty).2.rows =
        [⟨⟨"a", "a[0]"⟩, .int 1⟩] ∧
      (unnamedTree.leaves [] []).map (fun l => ".".intercalate (l.path.map Segment.name)) = [".a"] ∧
      (unnamedTree.leaves [] []).map (fun l => ".".intercalate (l.path.map Segment.text)) = [".a[0]"] := by
  have hu : Declares unnamedMessage unnamedDecl := ⟨rfl, by decide, by decide⟩
  have hn : Declares sampleDecl numbersDecl := ⟨rfl, by decide, by decide⟩
  refine ⟨rfl, .message hu rfl rfl rfl (.scalar hn rfl .nil) .nil, ?_, ?_, ?_⟩ <;> cbv

end TraceTables.Arguments
