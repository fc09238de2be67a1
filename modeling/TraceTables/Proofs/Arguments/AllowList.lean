import TraceTables.Proofs.Arguments.Extension

/-! The list of allowed numbers. It takes away occurrences of the whole message's own fields. Those that are left keep
their indices, and what the walk comes by at each of them is the same, at any depth. -/

namespace TraceTables.Arguments

open Schema (FieldDecl MessageDecl)

/-- A list of allowed numbers leaves the pieces of the fields that it lets through. -/
theorem pieces_some (m : MessageDecl) (numbers : List Nat) (g : Wire.Field) :
    pieces m (some numbers) g = (pieces m none g).filter fun p => lets (some numbers) p.decl := by
  cases hd : m.field? g.number with
  | none => simp only [pieces, hd, List.filter_nil]
  | some decl =>
    have hdecl : ∀ p ∈ pieces m none g, lets (some numbers) p.decl = lets (some numbers) decl := by
      intro p hp
      rw [Option.some.inj ((field?_of_mem_pieces hp).symm.trans hd)]
    rw [filter_eq_ite hdecl]
    cases hl : lets (some numbers) decl with
    | true => rw [pieces_of_found hd hl, @pieces_of_found m none g decl hd rfl, if_pos rfl]
    | false => simp [pieces, hd, hl]

/-- The occurrences that are left are as they are without the list. -/
theorem placed_some (m : MessageDecl) (numbers : List Nat) (fs : List Wire.Field) :
    placed [] (fs.flatMap (pieces m (some numbers))) =
      (placed [] (fs.flatMap (pieces m none))).filter fun o => lets (some numbers) o.decl := by
  -- in one message a number stands for one declaration, and numbers are what places are counted by
  let keep (n : Nat) : Bool := (m.field? n).any (lets (some numbers))
  have hkeep {decl : FieldDecl} (hd : m.field? decl.number = some decl) :
      keep decl.number = lets (some numbers) decl := by
    simp [keep, hd]
  have hpieces : fs.flatMap (pieces m (some numbers)) =
      (fs.flatMap (pieces m none)).filter fun p => keep p.decl.number := by
    rw [List.filter_flatMap]
    refine List.flatMap_congr fun g _ => ?_
    rw [pieces_some]
    refine List.filter_congr fun p hp => (hkeep ?_).symm
    have hd := field?_of_mem_pieces hp
    rwa [m.filed hd]
  rw [hpieces, placed_filter keep _ fun _ _ => rfl]
  exact List.filter_congr fun o ho => hkeep (field?_of_mem_placed ho)

namespace Flattener

variable {f : Flattener}

/-- What the walk comes by in a whole message: its occurrences, one after the other, and the fault at its end. -/
theorem run_eq_flatMap (hf : f.overrides = Assoc.empty) {typeName : String} {m : MessageDecl}
    (hm : f.schema.find? typeName = some m) (bytes : List UInt8) (allowed : Option (List Nat)) (t : Table) :
    f.run bytes typeName allowed t =
      ⟨(occurrences m allowed Assoc.empty (Wire.fields bytes).values).flatMap (fun o =>
          (f.visit t.interned? (f.below t.interned? f.maxDepth) Key.root o t.indices).events) ++
        malformedEnd m Key.root (Wire.fields bytes).fault?, t.indices⟩ := by
  have hvisit (o : Occurrence) (indices : ArrayIndices) :
      f.visit t.interned? (f.below t.interned? f.maxDepth) Key.root o indices =
        ⟨(f.visit t.interned? (f.below t.interned? f.maxDepth) Key.root o t.indices).events, indices⟩ := by
    have hfollow : f.Follows t.interned? (f.below t.interned? f.maxDepth) 0 := follows_below hf 0
    rw [visit_eq hfollow, visit_eq hfollow]
  rw [run_of_find? bytes allowed t hm, walk, walkMessage]
  simp only [Progress.inTurn_eq_flatMap hvisit, Progress.andThen]

end Flattener

/-- Under a list of allowed numbers the walk comes by the occurrences in the whole message that have such a number or
are of an extension, and at each of them by the same rows and faults as without the list. A fault at the end of the
message is there in both cases. -/
theorem allow_list_filters {f : Flattener} (hf : f.overrides = Assoc.empty) {typeName : String} {m : MessageDecl}
    (hm : f.schema.find? typeName = some m) (bytes : List UInt8) (numbers : List Nat) (t : Table) :
    let r := Wire.fields bytes
    let all := occurrences m none Assoc.empty r.values
    let kept := all.filter fun o => o.decl.extension || numbers.contains o.decl.number
    let own (o : Occurrence) : List Event :=
      (f.visit t.interned? (f.below t.interned? f.maxDepth) Key.root o t.indices).events
    let torn := (r.fault?.map (Fault.malformed m.fullName Key.root.full)).toList
    f.emitted bytes typeName none t = rowsOf (all.flatMap own) ∧
      f.recorded bytes typeName none t = faultsOf (all.flatMap own) ++ torn ∧
      f.emitted bytes typeName (some numbers) t = rowsOf (kept.flatMap own) ∧
      f.recorded bytes typeName (some numbers) t = faultsOf (kept.flatMap own) ++ torn ∧
      ∀ allowed, f.flatten bytes typeName allowed t =
        (Fault.status (f.recorded bytes typeName allowed t),
          { t with rows := t.rows ++ f.emitted bytes typeName allowed t }) := by
  intro r all kept own torn
  have hkept : occurrences m (some numbers) Assoc.empty r.values = kept := by
    simp only [kept, all, occurrences_eq_placed m _ _ (Counts.track_empty m)]
    exact placed_some m numbers r.values
  have hrun (allowed : Option (List Nat)) : f.run bytes typeName allowed t =
      ⟨(occurrences m allowed Assoc.empty r.values).flatMap own ++ Flattener.malformedEnd m Key.root r.fault?,
        t.indices⟩ :=
    Flattener.run_eq_flatMap hf hm bytes allowed t
  have hrows (allowed : Option (List Nat)) : f.emitted bytes typeName allowed t =
      rowsOf ((occurrences m allowed Assoc.empty r.values).flatMap own) := by
    rw [Flattener.emitted, hrun, rowsOf_append, rowsOf_malformedEnd, List.append_nil]
  have hfaults (allowed : Option (List Nat)) : f.recorded bytes typeName allowed t =
      faultsOf ((occurrences m allowed Assoc.empty r.values).flatMap own) ++ torn := by
    rw [Flattener.recorded, hrun, faultsOf_append, faultsOf_malformedEnd]
  refine ⟨hrows none, hfaults none, ?_, ?_, fun allowed => ?_⟩
  · rw [hrows, hkept]
  · rw [hfaults, hkept]
  · rw [Flattener.flatten_eq_run, hrun]

/-! ### A number that nested messages use too -/

/-- The list names the field of the nested message alone. The numbers inside of it are not on the list, and its rows are
kept. The extension stands in the message although the list does not name it. -/
theorem allow_list_filters_nested :
    let f := extendedSample
    f.schema.find? "T" = some (sampleDecl.add { linkDecl with extension := true }) ∧
      f.emitted extendedBytes "T" none .empty =
        [⟨⟨"a", "a[0]"⟩, .int 1⟩, ⟨⟨"x.a", "x[0].a[0]"⟩, .int 4⟩, ⟨⟨"s.a", "s[0].a[0]"⟩, .int 2⟩,
          ⟨⟨"s.x.a", "s[0].x[0].a[0]"⟩, .int 3⟩] ∧
      f.emitted extendedBytes "T" (some [2]) .empty =
        [⟨⟨"x.a", "x[0].a[0]"⟩, .int 4⟩, ⟨⟨"s.a", "s[0].a[0]"⟩, .int 2⟩, ⟨⟨"s.x.a", "s[0].x[0].a[0]"⟩, .int 3⟩] ∧
      f.recorded extendedBytes "T" (some [2]) .empty =
        [.malformed ".T" "x[0]" .badVarint, .malformed ".T" "" .badVarint] := by
  intro f
  have hm : f.schema.find? "T" = some (sampleDecl.add { linkDecl with extension := true }) := rfl
  obtain ⟨hall, -, hkept, hfaults, -⟩ := allow_list_filters rfl hm extendedBytes [2] .empty
  refine ⟨hm, hall.trans ?_, hkept.trans ?_, hfaults.trans ?_⟩ <;> cbv

end TraceTables.Arguments
