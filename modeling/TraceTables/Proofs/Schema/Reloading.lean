import TraceTables.Proofs.Schema.Passes

/-! Loading a set a second time changes nothing, however far the first load came. The names that are known stay the
same, so the second load files what the first one has filed, and what is filed last has counted before. -/

namespace TraceTables.Schema

/-- A load brings in no names but those that were known to it. -/
theorem knownWith_load (s : Schema) (files : List FileEntry) :
    (s.load files).1.knownWith files = s.knownWith files := by
  funext name
  rw [Bool.eq_iff_iff, knownWith_iff, knownWith_iff, contains_eq, contains_eq, fullName?_load, Option.isSome_or,
    Bool.or_eq_true, or_assoc]
  refine or_congr_right ⟨?_, Or.inr⟩
  rintro (h | h)
  · split at h
    · rename_i hn
      exact mem_setNames_of_declaredBy hn
    · cases h
  · exact h

theorem same_load_load (s : Schema) (files : List FileEntry) :
    Same ((s.load files).1.load files).1 (s.load files).1 where
  names name := by
    rw [fullName?_load (s := (s.load files).1), knownWith_load, fullName?_load (s := s), Option.or_assoc,
      Option.or_self]
  fields name number := by
    rw [field?_load (s := (s.load files).1), knownWith_load, field?_load (s := s), ← Option.or_assoc, Option.or_self]

/-- Loading the same bytes twice in a row ends the second time as it did the first time, with the same fault if there is
one, and leaves the schema that one load leaves. -/
theorem loadBytes_again (s : Schema) (bytes : List UInt8) :
    let once := s.loadBytes bytes
    let twice := once.1.loadBytes bytes
    twice.2 = once.2 ∧ Same twice.1 once.1 := by
  intro once twice
  unfold twice once loadBytes
  cases decodeSet bytes with
  | none => exact ⟨rfl, fun _ => rfl, fun _ _ => rfl⟩
  | some files =>
    refine ⟨?_, same_load_load s files⟩
    rw [snd_load, knownWith_load, ← snd_load]

end TraceTables.Schema
