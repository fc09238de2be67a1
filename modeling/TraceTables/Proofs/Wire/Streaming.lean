import TraceTables.Proofs.Wire.Grammar

/-! Fields are read as they come. One that has been read is the same whatever follows, so the fields in the front of a
message are the first of its fields, and the front can be read to its end exactly if it ends between two of them. -/

namespace TraceTables.Wire

/-- The front ends between two fields of a message, or at one of its ends. -/
def Boundary (front rest : List UInt8) : Prop := ∃ fs gs, MessageForm fs front ∧ MessageForm gs rest

theorem readField_append {f : Field} {bytes rest : List UInt8} (h : readField bytes = .ok (f, rest))
    (more : List UInt8) : readField (bytes ++ more) = .ok (f, rest ++ more) := by
  rcases readField_eq_ok_iff.1 h with ⟨p, hp, rfl⟩ | ⟨n, inner, start, body, tag, hs, hb, ht, rfl, rfl⟩
  · exact readField_eq_ok_iff.2 (Or.inl ⟨p, hp, List.append_assoc ..⟩)
  · exact readField_eq_ok_iff.2 (Or.inr ⟨n, inner, start, body, tag, hs, hb, ht, rfl, by simp⟩)

/-- The fields in the front of a message are the first of its fields. -/
theorem fields_prefix (front rest : List UInt8) : (fields front).values <+: (fields (front ++ rest)).values := by
  unfold fields
  induction front using fieldReader.all_induction with
  | nil => simp
  | fault hb hr =>
    rw [fieldReader.all_of_error hb hr]
    exact List.nil_prefix
  | value hr ih =>
    rw [fieldReader.all_of_ok hr, fieldReader.all_of_ok (readField_append hr rest)]
    exact List.cons_prefix_cons.2 ⟨rfl, ih⟩

/-- The front of a readable message is readable itself exactly if no field is cut in two. -/
theorem fault?_eq_none_iff_boundary {front rest : List UInt8} (h : (fields (front ++ rest)).fault? = none) :
    (fields front).fault? = none ↔ Boundary front rest := by
  refine ⟨?_, ?_⟩
  · intro hf
    have hfront : MessageForm (fields front).values front := form_of_fields_eq (by rw [← hf])
    have hrest : (fields rest).fault? = none := by
      rwa [fields_append_of_form hfront] at h
    exact ⟨_, _, hfront, form_of_fields_eq (by rw [← hrest])⟩
  · rintro ⟨fs, gs, hfront, -⟩
    rw [fields_eq_of_form hfront]

end TraceTables.Wire
