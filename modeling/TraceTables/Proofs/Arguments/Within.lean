import TraceTables.Arguments.Flattener
import TraceTables.Proofs.Arguments.Path
import TraceTables.Proofs.Arguments.Pieces
import TraceTables.Proofs.Wire.Grammar

/-! Two messages that are alike but for one place, at any depth. The messages around the place have their own lengths on
each side. What the walk does up to the place and behind it is the same on both sides. -/

namespace TraceTables.Wire

/-- Behind the fields `fs` the one has the fields `left` and the other the fields `right`. What follows is the same and
need not be readable. -/
inductive Exchange (fs left right : List Field) : List UInt8 → List UInt8 → Prop
  | mk {front a b rest : List UInt8} :
      MessageForm fs front → MessageForm left a → MessageForm right b →
        Exchange fs left right (front ++ (a ++ rest)) (front ++ (b ++ rest))

theorem Exchange.fields {fs left right : List Field} {a b : List UInt8} (h : Exchange fs left right a b) :
    ∃ tail : Reading Field, Wire.fields a = ⟨fs ++ (left ++ tail.values), tail.fault?⟩ ∧
      Wire.fields b = ⟨fs ++ (right ++ tail.values), tail.fault?⟩ := by
  obtain ⟨hf, ha, hb⟩ := h
  rename_i front a b rest
  refine ⟨Wire.fields rest, ?_, ?_⟩
  · rw [fields_append_of_form hf, fields_append_of_form ha]
  · rw [fields_append_of_form hf, fields_append_of_form hb]

theorem exchange_of_fields {fs left right : List Field} {front a b : List UInt8} (hf : Wire.fields front = ⟨fs, none⟩)
    (ha : Wire.fields a = ⟨left, none⟩) (hb : Wire.fields b = ⟨right, none⟩) (rest : List UInt8) :
    Exchange fs left right (front ++ (a ++ rest)) (front ++ (b ++ rest)) :=
  .mk (form_of_fields_eq hf) (form_of_fields_eq ha) (form_of_fields_eq hb)

end TraceTables.Wire

namespace TraceTables.Arguments

open Schema (FieldDecl MessageDecl)

/-- The step of a path to a field that stands behind the fields `fs` of its message. -/
def segment (fs : List Wire.Field) (decl : FieldDecl) : Segment :=
  ⟨decl.name, if decl.repeated then some (fs.countP (·.number = decl.number)) else none⟩

/-- Two payloads of one message type at a path. -/
structure Spot where
  decl : MessageDecl
  path : List Segment
  left : List UInt8
  right : List UInt8

/-- Both sides of the outer spot are the same but for those of the inner one, which is a message somewhere inside, be
it with its length in front or as a group. The fields around it have no overrides. -/
inductive Flattener.Within (f : Flattener) (inner : Spot) : Spot → Prop
  | here : f.Within inner inner
  | inside {m sub : MessageDecl} {path : List Segment} {fs : List Wire.Field} {decl : FieldDecl}
      {wrap : List UInt8 → Wire.Value} {left right outerLeft outerRight : List UInt8} :
      m.field? decl.number = some decl → decl.type.isMessageLike = true →
        f.schema.find? (decl.typeName?.getD "") = some sub → (wrap = .bytes ∨ wrap = .group) →
        f.overrides.get? (Key.ofPath (path ++ [segment fs decl])).flat = none →
        Wire.Exchange fs [⟨decl.number, wrap left⟩] [⟨decl.number, wrap right⟩] outerLeft outerRight →
        f.Within inner ⟨sub, path ++ [segment fs decl], left, right⟩ →
          f.Within inner ⟨m, path, outerLeft, outerRight⟩

/-! ## The occurrences around a field -/

theorem ofPath_segment (path : List Segment) (fs : List Wire.Field) (decl : FieldDecl) :
    Key.ofPath (path ++ [segment fs decl]) = (Key.ofPath path).field decl.name (segment fs decl).index :=
  Key.ofPath_concat path decl.name _

theorem packing?_of_isMessageLike {decl : FieldDecl} (h : decl.type.isMessageLike = true) : decl.packing? = none := by
  rw [FieldDecl.packing?]
  cases ht : decl.type <;> simp_all [Schema.FieldType.isMessageLike, Schema.FieldType.packing?]

/-- A field that is not packed has one occurrence at most, and those around it do not depend on its value. -/
theorem occurrences_around {m : MessageDecl} {decl : FieldDecl} (hd : m.field? decl.number = some decl)
    (hp : decl.packing? = none) (allowed : Option (List Nat)) (fs gs : List Wire.Field) :
    ∃ before after, ∀ value,
      occurrences m allowed Assoc.empty (fs ++ ([⟨decl.number, value⟩] ++ gs)) =
        before ++ ((if lets allowed decl then [.value decl (segment fs decl).index ⟨decl.number, value⟩] else []) ++
          after) := by
  have hsplit (value : Wire.Value) : (fs ++ ([(⟨decl.number, value⟩ : Wire.Field)] ++ gs)).flatMap (pieces m allowed) =
      fs.flatMap (pieces m allowed) ++ ((if lets allowed decl then [.value decl ⟨decl.number, value⟩] else []) ++
        gs.flatMap (pieces m allowed)) := by
    rw [List.flatMap_append, List.flatMap_append, List.flatMap_singleton,
      pieces_of_single (f := ⟨decl.number, value⟩) hd (Or.inl hp)]
  simp only [occurrences_eq_placed m allowed _ (Counts.track_empty m), hsplit, placed_append]
  cases hl : lets allowed decl with
  | false =>
    simp only [Bool.false_eq_true, if_false, placed, passed]
    exact ⟨_, _, fun _ => rfl⟩
  | true =>
    have hplace : place (passed [] (fs.flatMap (pieces m allowed))) decl = (segment fs decl).index := by
      rw [place, segment, count_passed, countP_carries_pieces hd hp hl, List.count_nil, Nat.zero_add]
    simp only [if_true, placed, passed, hplace]
    exact ⟨_, _, fun _ => rfl⟩

/-! ## The walk around a place -/

namespace Flattener

variable {f : Flattener} {store : Option InternedStore}

theorem walkMessage_congr {m : MessageDecl} {allowed : Option (List Nat)} {left right : List UInt8}
    (hv : occurrences m allowed Assoc.empty (Wire.fields left).values =
      occurrences m allowed Assoc.empty (Wire.fields right).values)
    (hf : (Wire.fields left).fault? = (Wire.fields right).fault?) (descend : Option Descent) (key : Key)
    (indices : ArrayIndices) :
    f.walkMessage store descend allowed m key left indices =
      f.walkMessage store descend allowed m key right indices := by
  simp only [walkMessage, hv, hf]

/-- If a value may take the place of another one at an occurrence, so it may in the message. -/
theorem walkMessage_exchange {m : MessageDecl} {decl : FieldDecl} (hd : m.field? decl.number = some decl)
    (hp : decl.packing? = none) {fs : List Wire.Field} {v w : Wire.Value} {left right : List UInt8}
    (hx : Wire.Exchange fs [⟨decl.number, v⟩] [⟨decl.number, w⟩] left right) {descend : Option Descent} {key : Key}
    (hvisit : ∀ indices, f.visitValue store descend decl (key.field decl.name (segment fs decl).index)
        ⟨decl.number, v⟩ indices =
      f.visitValue store descend decl (key.field decl.name (segment fs decl).index) ⟨decl.number, w⟩ indices)
    (allowed : Option (List Nat)) (indices : ArrayIndices) :
    f.walkMessage store descend allowed m key left indices =
      f.walkMessage store descend allowed m key right indices := by
  obtain ⟨tail, hleft, hright⟩ := hx.fields
  obtain ⟨before, after, hocc⟩ := occurrences_around hd hp allowed fs tail.values
  have hmid : Progress.inTurn (f.visit store descend key)
        (if lets allowed decl then [.value decl (segment fs decl).index ⟨decl.number, v⟩] else []) =
      Progress.inTurn (f.visit store descend key)
        (if lets allowed decl then [.value decl (segment fs decl).index ⟨decl.number, w⟩] else []) := by
    funext indices
    split
    · simp only [Progress.inTurn, Progress.andThen, visit, hvisit]
    · rfl
  simp only [walkMessage, hleft, hright, hocc, Progress.inTurn_append, hmid, Progress.andThen]

/-- Of a message field without an override the walk sees nothing but the message, or that it cannot be entered. -/
theorem visitValue_wrap {decl : FieldDecl} {key : Key} {sub : MessageDecl} {left right : List UInt8}
    {wrap : List UInt8 → Wire.Value} (ho : f.overrides.get? key.flat = none) (ht : decl.type.isMessageLike = true)
    (hs : f.schema.find? (decl.typeName?.getD "") = some sub) (hwrap : wrap = .bytes ∨ wrap = .group)
    {descend : Option Descent}
    (h : ∀ walk, descend = some walk → ∀ indices, walk sub key left indices = walk sub key right indices)
    (n : Nat) (indices : ArrayIndices) :
    f.visitValue store descend decl key ⟨n, wrap left⟩ indices =
      f.visitValue store descend decl key ⟨n, wrap right⟩ indices := by
  simp only [visitValue, ho, generic]
  cases f.references.get? key.flat with
  | some ref => rcases hwrap with rfl | rfl <;> rfl
  | none =>
    simp only [interpret]
    cases hty : decl.type with
    | message =>
      rcases hwrap with rfl | rfl
      · simp only [Wire.Field.bytes?, enter, hs]
        cases descend with
        | none => rfl
        | some walk => exact h walk rfl indices
      · rfl
    | group => rfl
    | _ => simp [hty, Schema.FieldType.isMessageLike] at ht

/-- The walk goes through both sides of a spot alike, at any depth. -/
def Alike (f : Flattener) (store : Option InternedStore) (s : Spot) : Prop :=
  ∀ levels allowed indices,
    f.walkMessage store (f.below store levels) allowed s.decl (Key.ofPath s.path) s.left indices =
      f.walkMessage store (f.below store levels) allowed s.decl (Key.ofPath s.path) s.right indices

theorem alike_within {inner outer : Spot} (hw : f.Within inner outer) (h : f.Alike store inner) :
    f.Alike store outer := by
  induction hw with
  | here => exact h
  | inside hd ht hs hwrap ho hx _ ih =>
    intro levels allowed indices
    refine walkMessage_exchange hd (packing?_of_isMessageLike ht) hx ?_ allowed indices
    rw [ofPath_segment] at ho
    refine visitValue_wrap ho ht hs hwrap ?_ _
    intro walk hwalk indices
    cases levels with
    | zero => cases hwalk
    | succ levels =>
      cases hwalk
      simpa only [ofPath_segment] using ih levels none indices

/-- Flattening does not tell messages apart that differ in a spot which the walk goes through alike. -/
theorem flatten_within {typeName : String} {m : MessageDecl} (hm : f.schema.find? typeName = some m) {spot : Spot}
    {left right : List UInt8} (hw : f.Within spot ⟨m, [], left, right⟩) {t : Table}
    (h : f.Alike t.interned? spot) (allowed : Option (List Nat)) :
    f.flatten left typeName allowed t = f.flatten right typeName allowed t := by
  have hwalk := alike_within hw h f.maxDepth allowed t.indices
  rw [Key.ofPath_nil] at hwalk
  simp only [flatten, hm, walk, hwalk]

end Flattener

end TraceTables.Arguments
