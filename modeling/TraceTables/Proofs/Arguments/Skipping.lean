import TraceTables.Proofs.Arguments.Unpacking

/-! Fields that a message does not declare. The walk has no occurrences for them, so they may stand between any two
fields of the message without a trace, whatever they hold. -/

namespace TraceTables.Arguments

open Schema (FieldDecl MessageDecl)

/-- Fields that the message does not have. -/
def Foreign (m : MessageDecl) (fs : List Wire.Field) : Prop := ∀ f ∈ fs, m.field? f.number = none

theorem pieces_of_foreign {m : MessageDecl} {fs : List Wire.Field} (h : Foreign m fs) (allowed : Option (List Nat)) :
    fs.flatMap (pieces m allowed) = [] := by
  rw [List.flatMap_eq_nil_iff]
  intro f hf
  simp only [pieces, h f hf]

theorem occurrences_skip {m : MessageDecl} {gs : List Wire.Field} (h : Foreign m gs) (allowed : Option (List Nat))
    (fs hs : List Wire.Field) :
    occurrences m allowed Assoc.empty (fs ++ (gs ++ hs)) = occurrences m allowed Assoc.empty (fs ++ hs) := by
  simp only [occurrences_eq_placed m allowed _ (Counts.track_empty m), List.flatMap_append, pieces_of_foreign h,
    List.nil_append]

/-- Fields that a message does not have may be put between any two of its fields, in the whole message or anywhere
inside it. The result is the same. -/
theorem flatten_skips (f : Flattener) {typeName : String} {m : MessageDecl} (hm : f.schema.find? typeName = some m)
    {spot : Spot} {without within : List UInt8} (hw : f.Within spot ⟨m, [], without, within⟩)
    {fs gs : List Wire.Field} (hg : Foreign spot.decl gs) (hx : Wire.Exchange fs [] gs spot.left spot.right)
    (allowed : Option (List Nat)) (t : Table) :
    f.flatten within typeName allowed t = f.flatten without typeName allowed t := by
  obtain ⟨tail, hleft, hright⟩ := hx.fields
  refine (Flattener.flatten_within hm hw (fun levels allowed indices => ?_) allowed).symm
  refine Flattener.walkMessage_congr ?_ ?_ _ _ indices
  · rw [hleft, hright, List.nil_append, occurrences_skip hg]
  · rw [hleft, hright]

/-! ### Unknown fields between repeated ones, in a message that breaks off -/

theorem flatten_skips_nested :
    let f := (Flattener.new (Schema.empty.declare sampleDecl)).override "s.a" counting
    let r := f.flatten [0x12, 10, 0x08, 2, 0x1A, 2, 0x08, 4, 0x08, 6, 0x08, 0x80, 0x08, 8] "T" none .empty
    Foreign sampleDecl [⟨3, .bytes [0x08, 4]⟩] ∧
      r = f.flatten [0x12, 6, 0x08, 2, 0x08, 6, 0x08, 0x80, 0x08, 8] "T" none .empty ∧
      r.2.rows = [⟨⟨"s.a", "s[0].a[0]"⟩, .int 1⟩, ⟨⟨"s.a", "s[0].a[1]"⟩, .int 3⟩, ⟨⟨"a", "a[0]"⟩, .int 4⟩] ∧
      r.1 = .error (.malformed ".T" "s[0]" .badVarint) := by
  intro f r
  have hm : f.schema.find? "T" = some sampleDecl := rfl
  have hi : sampleDecl.field? insideDecl.number = some insideDecl := rfl
  have hg : Foreign sampleDecl [⟨3, .bytes [0x08, 4]⟩] := by
    intro g hg
    rw [List.mem_singleton.1 hg]
    rfl
  have hx : Wire.Exchange [⟨1, .varint 2⟩] [] [⟨3, .bytes [0x08, 4]⟩] [0x08, 2, 0x08, 6, 0x08, 0x80]
      [0x08, 2, 0x1A, 2, 0x08, 4, 0x08, 6, 0x08, 0x80] :=
    @Wire.exchange_of_fields _ _ _ [0x08, 2] [] [0x1A, 2, 0x08, 4] (by cbv) (by cbv) (by cbv) [0x08, 6, 0x08, 0x80]
  have houter : Wire.Exchange [] [⟨2, .bytes [0x08, 2, 0x08, 6, 0x08, 0x80]⟩]
      [⟨2, .bytes [0x08, 2, 0x1A, 2, 0x08, 4, 0x08, 6, 0x08, 0x80]⟩]
      [0x12, 6, 0x08, 2, 0x08, 6, 0x08, 0x80, 0x08, 8]
      [0x12, 10, 0x08, 2, 0x1A, 2, 0x08, 4, 0x08, 6, 0x08, 0x80, 0x08, 8] :=
    @Wire.exchange_of_fields _ _ _ [] [0x12, 6, 0x08, 2, 0x08, 6, 0x08, 0x80]
      [0x12, 10, 0x08, 2, 0x1A, 2, 0x08, 4, 0x08, 6, 0x08, 0x80] (by cbv) (by cbv) (by cbv) [0x08, 8]
  have ho : f.overrides.get? (Key.ofPath ([] ++ [segment [] insideDecl])).flat = none := by cbv
  have hw : f.Within ⟨sampleDecl, [segment [] insideDecl], _, _⟩ ⟨sampleDecl, [], _, _⟩ :=
    .inside hi rfl rfl (Or.inl rfl) ho houter .here
  refine ⟨hg, flatten_skips f hm hw hg hx none .empty, ?_, ?_⟩ <;> cbv

end TraceTables.Arguments
