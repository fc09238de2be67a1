import TraceTables.Proofs.Schema.Scopes

/-! What stands in a set of files: message types at any depth, each in the scope of those around it, with their fields
and the extensions inside them. The lists that a load goes through have just these. -/

namespace TraceTables.Schema

/-- A message type in a scope is, or has nested in it, one with this layout and these extensions. -/
inductive Declares : String → MessageEntry → Layout → List FieldEntry → Prop where
  | itself {scope name : String} {fields extensions : List FieldEntry} {inner : List MessageEntry} :
      Declares scope (.mk name fields inner extensions) ⟨scope ++ "." ++ name, fields⟩ extensions
  | nested {scope name : String} {fields extensions : List FieldEntry} {inner : List MessageEntry} {m : MessageEntry}
      {l : Layout} {xs : List FieldEntry} (hm : m ∈ inner) (h : Declares (scope ++ "." ++ name) m l xs) :
      Declares scope (.mk name fields inner extensions) l xs

mutual

theorem mem_layouts {l : Layout} :
    ∀ (scope : String) (m : MessageEntry), l ∈ m.layouts scope ↔ ∃ xs, Declares scope m l xs
  | scope, .mk name fields inner extensions => by
    rw [MessageEntry.layouts, List.mem_append, mem_layoutsAll, List.mem_singleton]
    constructor
    · rintro (⟨m, hm, xs, h⟩ | rfl)
      · exact ⟨xs, .nested hm h⟩
      · exact ⟨extensions, .itself⟩
    · rintro ⟨xs, h⟩
      cases h with
      | itself => exact Or.inr rfl
      | nested hm h => exact Or.inl ⟨_, hm, xs, h⟩

theorem mem_layoutsAll {l : Layout} :
    ∀ (scope : String) (ms : List MessageEntry), l ∈ layoutsAll scope ms ↔ ∃ m ∈ ms, ∃ xs, Declares scope m l xs
  | scope, [] => by simp [layoutsAll]
  | scope, m :: ms => by
    rw [layoutsAll, List.mem_append, mem_layouts, mem_layoutsAll, List.exists_mem_cons_iff]

end

mutual

theorem mem_scopedExtensions {x : Scoped FieldEntry} :
    ∀ (scope : String) (m : MessageEntry),
      x ∈ m.scopedExtensions scope ↔ ∃ l xs, Declares scope m l xs ∧ x.scope = l.fullName ∧ x.entry ∈ xs
  | scope, .mk name fields inner extensions => by
    rw [MessageEntry.scopedExtensions, List.mem_append, mem_scopedExtensionsAll, List.mem_map]
    constructor
    · rintro (⟨m, hm, l, xs, h, hx⟩ | ⟨f, hf, rfl⟩)
      · exact ⟨l, xs, .nested hm h, hx⟩
      · exact ⟨_, extensions, .itself, rfl, hf⟩
    · rintro ⟨l, xs, h, hs, hx⟩
      cases h with
      | itself => exact Or.inr ⟨x.entry, hx, congrArg (Scoped.mk · x.entry) hs.symm⟩
      | nested hm h => exact Or.inl ⟨_, hm, l, xs, h, hs, hx⟩

theorem mem_scopedExtensionsAll {x : Scoped FieldEntry} :
    ∀ (scope : String) (ms : List MessageEntry),
      x ∈ scopedExtensionsAll scope ms ↔
        ∃ m ∈ ms, ∃ l xs, Declares scope m l xs ∧ x.scope = l.fullName ∧ x.entry ∈ xs
  | scope, [] => by simp [scopedExtensionsAll]
  | scope, m :: ms => by
    rw [scopedExtensionsAll, List.mem_append, mem_scopedExtensions, mem_scopedExtensionsAll,
      List.exists_mem_cons_iff]

end

/-- One of the files has the message type. -/
def InSet (files : List FileEntry) (l : Layout) (xs : List FieldEntry) : Prop :=
  ∃ file ∈ files, ∃ m ∈ file.messages, Declares file.scope m l xs

theorem mem_layouts_iff {files : List FileEntry} {l : Layout} : l ∈ layouts files ↔ ∃ xs, InSet files l xs := by
  simp only [layouts, List.mem_flatMap, mem_layoutsAll, InSet]
  constructor
  · rintro ⟨file, hfile, m, hm, xs, h⟩
    exact ⟨xs, file, hfile, m, hm, h⟩
  · rintro ⟨xs, file, hfile, m, hm, h⟩
    exact ⟨file, hfile, m, hm, xs, h⟩

/-- Extensions stand in a message type of the set or at the top of a file. -/
theorem mem_extensions_iff {files : List FileEntry} {x : Scoped FieldEntry} :
    x ∈ extensions files ↔
      (∃ l xs, InSet files l xs ∧ x.scope = l.fullName ∧ x.entry ∈ xs) ∨
        ∃ file ∈ files, x.scope = file.scope ∧ x.entry ∈ file.extensions := by
  simp only [extensions, List.mem_flatMap, List.mem_append, mem_scopedExtensionsAll, List.mem_map]
  constructor
  · rintro ⟨file, hfile, ⟨m, hm, l, xs, h, hx⟩ | ⟨f, hf, rfl⟩⟩
    · exact Or.inl ⟨l, xs, ⟨file, hfile, m, hm, h⟩, hx⟩
    · exact Or.inr ⟨file, hfile, rfl, hf⟩
  · rintro (⟨l, xs, ⟨file, hfile, m, hm, h⟩, hx⟩ | ⟨file, hfile, hs, hx⟩)
    · exact ⟨file, hfile, Or.inl ⟨m, hm, l, xs, h, hx⟩⟩
    · exact ⟨file, hfile, Or.inr ⟨x.entry, hx, congrArg (Scoped.mk · x.entry) hs.symm⟩⟩

/-! ## Full names -/

theorem Declares.head?_fullName {scope : String} {m : MessageEntry} {l : Layout} {xs : List FieldEntry}
    (h : Declares scope m l xs) (hs : IsScope scope) : l.fullName.toList.head? = some '.' := by
  induction h with
  | itself => exact hs.head?_append _
  | nested _ _ ih => exact ih (Or.inr (hs.head?_append _))

theorem InSet.head?_fullName {files : List FileEntry} {l : Layout} {xs : List FieldEntry} (h : InSet files l xs) :
    l.fullName.toList.head? = some '.' := by
  obtain ⟨file, -, m, -, hm⟩ := h
  exact hm.head?_fullName file.isScope

theorem qualify_fullName {files : List FileEntry} {l : Layout} (h : l ∈ layouts files) :
    qualify l.fullName = l.fullName := by
  obtain ⟨xs, hl⟩ := mem_layouts_iff.1 h
  exact qualify_of_head? hl.head?_fullName

theorem isScope_of_mem_extensions {files : List FileEntry} {x : Scoped FieldEntry} (h : x ∈ extensions files) :
    IsScope x.scope := by
  rcases mem_extensions_iff.1 h with ⟨l, xs, hl, hs, -⟩ | ⟨file, -, hs, -⟩
  · rw [hs]
    exact Or.inr hl.head?_fullName
  · rw [hs]
    exact file.isScope

end TraceTables.Schema
