import Mathlib.Data.List.Basic
import TraceTables.Proofs.Arguments.Flattening
import TraceTables.Proofs.Arguments.Within
import TraceTables.Proofs.Wire.Writer

/-! The values of a repeated field may come packed or each under its own key. Both ways give the same occurrences with
the same places, and so the same walk. -/

namespace TraceTables.Arguments

open Schema (FieldDecl MessageDecl)

section Fields

variable {m : MessageDecl} {decl : FieldDecl} {packing : Wire.Packing} {payload : List UInt8} {vs : List Wire.Value}
variable (hd : m.field? decl.number = some decl) (hr : decl.repeated = true) (hp : decl.packing? = some packing)
  (hv : packing.values payload = ⟨vs, none⟩)
include hd hr hp hv

/-- A packed payload carries what its values carry one by one. -/
theorem pieces_packed_eq (allowed : Option (List Nat)) :
    pieces m allowed ⟨decl.number, .bytes payload⟩ =
      (vs.map fun v => (⟨decl.number, v⟩ : Wire.Field)).flatMap (pieces m allowed) := by
  have hsingle : ∀ v ∈ vs, pieces m allowed ⟨decl.number, v⟩ =
      if lets allowed decl then [.value decl ⟨decl.number, v⟩] else [] := by
    intro v hm
    refine pieces_of_single (f := ⟨decl.number, v⟩) hd (Or.inr ?_) allowed
    rintro bytes rfl
    have hmem : .bytes bytes ∈ (packing.values payload).values := by rwa [hv]
    have hw := Wire.Packing.wireType_of_mem_values hmem
    cases packing <;> cases hw
  rw [List.flatMap_map, List.flatMap_congr hsingle,
    pieces_of_packed (f := ⟨decl.number, .bytes payload⟩) hd hr hp rfl hv]
  cases lets allowed decl with
  | true => simp [← List.map_eq_flatMap]
  | false => simp

theorem occurrences_unpacked (allowed : Option (List Nat)) (fs gs : List Wire.Field) :
    occurrences m allowed Assoc.empty (fs ++ ([⟨decl.number, .bytes payload⟩] ++ gs)) =
      occurrences m allowed Assoc.empty (fs ++ ((vs.map fun v => ⟨decl.number, v⟩) ++ gs)) := by
  simp only [occurrences_eq_placed m allowed _ (Counts.track_empty m), List.flatMap_append, List.flatMap_singleton,
    pieces_packed_eq hd hr hp hv]

end Fields

/-- One packed payload that can be split into its values may be exchanged for fields that carry them one by one, in the
message or anywhere inside it. The result is the same, whatever the overrides of the field do. -/
theorem flatten_unpacked (f : Flattener) {typeName : String} {m : MessageDecl}
    (hm : f.schema.find? typeName = some m) {spot : Spot} {packed unpacked : List UInt8}
    (hw : f.Within spot ⟨m, [], packed, unpacked⟩) {decl : FieldDecl}
    (hd : spot.decl.field? decl.number = some decl) (hr : decl.repeated = true) {packing : Wire.Packing}
    (hp : decl.packing? = some packing) {payload : List UInt8} {vs : List Wire.Value}
    (hv : packing.values payload = ⟨vs, none⟩) {fs : List Wire.Field}
    (hx : Wire.Exchange fs [⟨decl.number, .bytes payload⟩] (vs.map fun v => ⟨decl.number, v⟩) spot.left spot.right)
    (allowed : Option (List Nat)) (t : Table) :
    f.flatten packed typeName allowed t = f.flatten unpacked typeName allowed t := by
  obtain ⟨tail, hleft, hright⟩ := hx.fields
  refine Flattener.flatten_within hm hw (fun levels allowed indices => ?_) allowed
  refine Flattener.walkMessage_congr ?_ ?_ _ _ indices
  · rw [hleft, hright]
    exact occurrences_unpacked hd hr hp hv allowed fs tail.values
  · rw [hleft, hright]

/-! ### Packed numbers in a nested message -/

/-- Counts the values that it sees and leaves them to the walk. -/
def counting : Override := fun _ key t => (.declined, (t.increment key.flat).2)

theorem flatten_unpacked_nested :
    let f := (Flattener.new (Schema.empty.declare sampleDecl)).override "s.a" counting
    let r := f.flatten [0x12, 7, 0x08, 2, 0x0A, 3, 4, 6, 5, 0x08, 8] "T" none .empty
    r = f.flatten [0x12, 8, 0x08, 2, 0x08, 4, 0x08, 6, 0x08, 5, 0x08, 8] "T" none .empty ∧
      r.2.rows = [⟨⟨"s.a", "s[0].a[0]"⟩, .int 1⟩, ⟨⟨"s.a", "s[0].a[1]"⟩, .int 2⟩, ⟨⟨"s.a", "s[0].a[2]"⟩, .int 3⟩,
        ⟨⟨"s.a", "s[0].a[3]"⟩, .int (-3)⟩, ⟨⟨"a", "a[0]"⟩, .int 4⟩] ∧
      r.2.index "s.a" = 4 := by
  intro f r
  have hm : f.schema.find? "T" = some sampleDecl := rfl
  have hi : sampleDecl.field? insideDecl.number = some insideDecl := rfl
  have hn : sampleDecl.field? numbersDecl.number = some numbersDecl := rfl
  have hv : Wire.Packing.varint.values [4, 6, 5] = ⟨[.varint 4, .varint 6, .varint 5], none⟩ := by cbv
  have hx : Wire.Exchange [⟨1, .varint 2⟩] [⟨1, .bytes [4, 6, 5]⟩]
      [⟨1, .varint 4⟩, ⟨1, .varint 6⟩, ⟨1, .varint 5⟩] [0x08, 2, 0x0A, 3, 4, 6, 5]
      [0x08, 2, 0x08, 4, 0x08, 6, 0x08, 5] :=
    @Wire.exchange_of_fields _ _ _ [0x08, 2] [0x0A, 3, 4, 6, 5] [0x08, 4, 0x08, 6, 0x08, 5] (by cbv) (by cbv) (by cbv)
      []
  have houter : Wire.Exchange [] [⟨2, .bytes [0x08, 2, 0x0A, 3, 4, 6, 5]⟩]
      [⟨2, .bytes [0x08, 2, 0x08, 4, 0x08, 6, 0x08, 5]⟩] [0x12, 7, 0x08, 2, 0x0A, 3, 4, 6, 5, 0x08, 8]
      [0x12, 8, 0x08, 2, 0x08, 4, 0x08, 6, 0x08, 5, 0x08, 8] :=
    @Wire.exchange_of_fields _ _ _ [] [0x12, 7, 0x08, 2, 0x0A, 3, 4, 6, 5]
      [0x12, 8, 0x08, 2, 0x08, 4, 0x08, 6, 0x08, 5] (by cbv) (by cbv) (by cbv) [0x08, 8]
  have ho : f.overrides.get? (Key.ofPath ([] ++ [segment [] insideDecl])).flat = none := by cbv
  have hw : f.Within ⟨sampleDecl, [segment [] insideDecl], _, _⟩ ⟨sampleDecl, [], _, _⟩ :=
    .inside hi rfl rfl (Or.inl rfl) ho houter .here
  refine ⟨flatten_unpacked f hm hw hn rfl rfl hv hx none .empty, ?_, ?_⟩ <;> cbv

end TraceTables.Arguments
