import TraceTables.Proofs.Schema.Passes

/-! What the names in a set come to stand for. A load looks up the names of message types that fields and extensions
state. If it succeeds, each stands for a message type by the innermost scope that knows it, or is kept if it is full
already, and the fields that are filed carry what their names stand for. -/

namespace TraceTables.Schema

/-- A message type of the name is in the schema or anywhere in the files. -/
def IsKnown (s : Schema) (files : List FileEntry) (name : String) : Prop :=
  s.messages.contains name = true ∨ ∃ l xs, InSet files l xs ∧ l.fullName = name

theorem isKnown_eq (s : Schema) (files : List FileEntry) : IsKnown s files = (s.knownWith files · = true) := by
  funext name
  rw [knownWith_iff, setNames, List.mem_map]
  refine propext (or_congr_right ?_)
  constructor
  · rintro ⟨l, xs, h, rfl⟩
    exact ⟨l, mem_layouts_iff.2 ⟨xs, h⟩, rfl⟩
  · rintro ⟨l, hl, rfl⟩
    obtain ⟨xs, h⟩ := mem_layouts_iff.1 hl
    exact ⟨l, xs, h, rfl⟩

/-- A field that a set defines, in the scope where it stands: in a message type, or as an extension. -/
structure Definition where
  scope : String
  entry : FieldEntry
  isExtension : Bool

def Layout.definitions (l : Layout) : List Definition := l.fields.map (⟨l.fullName, ·, false⟩)

/-- All fields that a set defines, those of message types first. Of two in one place the later one counts. -/
def definitions (files : List FileEntry) : List Definition :=
  (layouts files).flatMap Layout.definitions ++ (extensions files).map fun x => ⟨x.scope, x.entry, true⟩

theorem mem_definitions_iff {files : List FileEntry} {d : Definition} :
    d ∈ definitions files ↔
      (∃ l ∈ layouts files, ∃ f ∈ l.fields, (⟨l.fullName, f, false⟩ : Definition) = d) ∨
        ∃ x ∈ extensions files, (⟨x.scope, x.entry, true⟩ : Definition) = d := by
  simp only [definitions, Layout.definitions, List.mem_append, List.mem_flatMap, List.mem_map]

/-- The files define the field: in a message type of theirs, however deep it is nested, or as an extension that stands
in one or at the top of a file. -/
inductive Definition.Stands (files : List FileEntry) : Definition → Prop
  | field {l : Layout} {xs : List FieldEntry} {f : FieldEntry} : InSet files l xs → f ∈ l.fields →
    Stands files ⟨l.fullName, f, false⟩
  | nested {l : Layout} {xs : List FieldEntry} {f : FieldEntry} : InSet files l xs → f ∈ xs →
    Stands files ⟨l.fullName, f, true⟩
  | top {file : FileEntry} {f : FieldEntry} : file ∈ files → f ∈ file.extensions → Stands files ⟨file.scope, f, true⟩

theorem mem_definitions_iff_stands {files : List FileEntry} {d : Definition} :
    d ∈ definitions files ↔ d.Stands files := by
  rw [mem_definitions_iff]
  constructor
  · rintro (⟨l, hl, f, hf, rfl⟩ | ⟨⟨scope, f⟩, hx, rfl⟩)
    · obtain ⟨xs, h⟩ := mem_layouts_iff.1 hl
      exact .field h hf
    · obtain ⟨l, xs, h, rfl, hf⟩ | ⟨file, hfile, rfl, hf⟩ := mem_extensions_iff.1 hx
      · exact .nested h hf
      · exact .top hfile hf
  · rintro (⟨h, hf⟩ | ⟨h, hf⟩ | ⟨hfile, hf⟩)
    · exact .inl ⟨_, mem_layouts_iff.2 ⟨_, h⟩, _, hf, rfl⟩
    · exact .inr ⟨⟨_, _⟩, mem_extensions_iff.2 (.inl ⟨_, _, h, rfl, hf⟩), rfl⟩
    · exact .inr ⟨⟨_, _⟩, mem_extensions_iff.2 (.inr ⟨_, hfile, rfl, hf⟩), rfl⟩

namespace Definition

/-- The names of message types that are looked up. -/
def lookups (d : Definition) : List String :=
  (if d.isExtension then [d.entry.extendee] else []) ++ if d.entry.type.isMessageLike then [d.entry.typeName] else []

/-- The field belongs to that message type: the one it stands in, or the one that an extension names. -/
def Into (known : String → Prop) (d : Definition) (target : String) : Prop :=
  if d.isExtension then Means known d.scope d.entry.extendee target else target = d.scope

/-- The field as it is filed. It has the full name of its message type, if it has one. -/
structure Makes (known : String → Prop) (d : Definition) (f : FieldDecl) : Prop where
  name : f.name = d.entry.name
  number : (f.number : Int) = d.entry.number
  type : f.type = d.entry.type
  repeated : f.repeated = d.entry.repeated
  extension : f.extension = d.isExtension
  typeName? : if d.entry.type.isMessageLike then
      ∃ full, Means known d.scope d.entry.typeName full ∧ f.typeName? = some full
    else f.typeName? = none

end Definition

/-! ## What definitions file -/

def Definition.target? (known : String → Bool) (d : Definition) : Option String :=
  if d.isExtension then (resolve known d.scope d.entry.extendee).map qualify else some (qualify d.scope)

/-- What is filed for a definition, unless a name cannot be resolved or its number is not valid. -/
def Definition.filing? (known : String → Bool) (d : Definition) : Option Filing :=
  (d.target? known).bind fun target =>
    (d.entry.declare known d.scope).toOption.map fun f => ⟨target, { f with extension := d.isExtension }⟩

/-- A field that is declared is no extension yet. -/
theorem filing?_of_field (known : String → Bool) (scope : String) (f : FieldEntry) :
    Definition.filing? known ⟨scope, f, false⟩ = (f.declare known scope).toOption.map (⟨qualify scope, ·⟩) := by
  cases hf : f.declare known scope with
  | error e => simp [Definition.filing?, Definition.target?, hf, Except.toOption]
  | ok g =>
    have hg : { g with extension := false } = g := by
      obtain ⟨-, typeName?, rfl, -⟩ := FieldEntry.exists_of_declare hf
      rfl
    simp [Definition.filing?, Definition.target?, hf, Except.toOption, hg]

theorem Layout.filterMap_definitions {known : String → Bool} {l : Layout} {d : Scoped (List FieldDecl)}
    (h : l.declared known = .ok d) :
    l.definitions.filterMap (Definition.filing? known) = d.entry.map (⟨qualify d.scope, ·⟩) := by
  rw [(exists_of_declared h).2, definitions, List.filterMap_map, List.map_filterMap]
  exact List.filterMap_congr fun f _ => filing?_of_field known l.fullName f

theorem filings_layouts {known : String → Bool} {ls : List Layout}
    (h : ∀ l ∈ ls, ∃ d, l.declared known = .ok d) :
    filings (ls.filterMap fun l => (l.declared known).toOption) =
      (ls.flatMap Layout.definitions).filterMap (Definition.filing? known) := by
  induction ls with
  | nil => rfl
  | cons l ls ih =>
    rw [List.forall_mem_cons] at h
    obtain ⟨⟨d, hd⟩, hls⟩ := h
    rw [List.filterMap_cons, hd, List.flatMap_cons, List.filterMap_append, Layout.filterMap_definitions hd, ← ih hls]
    exact filings_cons d _

theorem Scoped.filing?_eq {known : String → Bool} {x : Scoped FieldEntry} {filing : Filing}
    (h : x.filing known = .ok filing) : Definition.filing? known ⟨x.scope, x.entry, true⟩ = some filing := by
  obtain ⟨extendee, f, hr, hf, -, rfl⟩ := exists_of_filing h
  simp [Definition.filing?, Definition.target?, hr, hf, Except.toOption]

section Load

variable {s : Schema} {files : List FileEntry} (hok : (s.load files).2 = none)
include hok

/-- A load that succeeds files all definitions in their order. -/
theorem filedIn_eq :
    filedIn (s.knownWith files) files = (definitions files).filterMap (Definition.filing? (s.knownWith files)) := by
  obtain ⟨hd, he⟩ := load_eq_none_iff.1 hok
  have hlayouts : filings (declaredBy (s.knownWith files) files).1 =
      ((layouts files).flatMap Layout.definitions).filterMap (Definition.filing? (s.knownWith files)) := by
    rw [declaredBy, upTo_eq_filterMap hd]
    exact filings_layouts (upTo_eq_none_iff.1 hd)
  have hextensions : (filedBy (s.knownWith files) files).1 =
      ((extensions files).map fun x => ⟨x.scope, x.entry, true⟩).filterMap
        (Definition.filing? (s.knownWith files)) := by
    rw [filedBy, upTo_eq_filterMap he, List.filterMap_map]
    refine List.filterMap_congr fun x hx => ?_
    obtain ⟨filing, hf⟩ := upTo_eq_none_iff.1 he x hx
    rw [toOption_eq_some_iff.2 hf]
    exact (Scoped.filing?_eq hf).symm
  rw [filedIn, hd, Option.isNone_none, if_pos rfl, definitions, List.filterMap_append, hlayouts, hextensions]

theorem exists_filing {d : Definition} (hd : d ∈ definitions files) :
    ∃ filing, d.filing? (s.knownWith files) = some filing := by
  obtain ⟨hl, he⟩ := load_eq_none_iff.1 hok
  rcases mem_definitions_iff.1 hd with ⟨l, hlm, f, hf, rfl⟩ | ⟨x, hx, rfl⟩
  · obtain ⟨ds, hds⟩ := upTo_eq_none_iff.1 hl l hlm
    obtain ⟨g, hg⟩ := (Layout.exists_of_declared hds).1 f hf
    exact ⟨⟨qualify l.fullName, g⟩, by rw [filing?_of_field, hg]; rfl⟩
  · obtain ⟨filing, hf⟩ := upTo_eq_none_iff.1 he x hx
    exact ⟨filing, Scoped.filing?_eq hf⟩

end Load

theorem isScope_of_mem_definitions {files : List FileEntry} {d : Definition} (h : d ∈ definitions files) :
    IsScope d.scope := by
  rcases mem_definitions_iff.1 h with ⟨l, hl, f, -, rfl⟩ | ⟨x, hx, rfl⟩
  · obtain ⟨xs, hm⟩ := mem_layouts_iff.1 hl
    exact Or.inr hm.head?_fullName
  · exact isScope_of_mem_extensions hx

theorem qualify_scope {files : List FileEntry} {d : Definition} (h : d ∈ definitions files)
    (he : d.isExtension = false) : qualify d.scope = d.scope := by
  rcases mem_definitions_iff.1 h with ⟨l, hl, f, -, rfl⟩ | ⟨x, -, rfl⟩
  · exact qualify_fullName hl
  · cases he

namespace Definition

variable {files : List FileEntry} {d : Definition}

theorem Into.qualify_eq {known : String → Prop} {target : String} (h : d.Into known target)
    (hd : d ∈ definitions files) : qualify target = target := by
  unfold Into at h
  by_cases he : d.isExtension = true
  · rw [if_pos he] at h
    exact qualify_of_head? (h.head?_full (isScope_of_mem_definitions hd))
  · rw [if_neg he] at h
    rw [h]
    exact qualify_scope hd (by simpa using he)

/-- Where a definition is filed and what is filed for it tell what all its names stand for. -/
theorem exists_means {known : String → Prop} {target : String} {f : FieldDecl} (hi : d.Into known target)
    (hm : d.Makes known f) : ∀ name ∈ d.lookups, ∃ full, Means known d.scope name full := by
  unfold Into at hi
  have ht := hm.typeName?
  intro name hname
  rcases List.mem_append.1 hname with hname | hname
  · split at hname
    · rename_i he
      rw [if_pos he] at hi
      rw [List.mem_singleton.1 hname]
      exact ⟨target, hi⟩
    · cases hname
  · split at hname
    · rename_i he
      rw [if_pos he] at ht
      obtain ⟨full, hfull, -⟩ := ht
      rw [List.mem_singleton.1 hname]
      exact ⟨full, hfull⟩
    · cases hname

variable {known : String → Bool}

theorem into_of_target? (hd : d ∈ definitions files) {target : String} (h : d.target? known = some target) :
    d.Into (known · = true) target := by
  unfold target? at h
  unfold Into
  by_cases he : d.isExtension = true
  · rw [if_pos he] at h ⊢
    obtain ⟨full, hr, rfl⟩ := Option.map_eq_some_iff.1 h
    rw [qualify_resolve (isScope_of_mem_definitions hd) hr]
    exact resolve_eq_some_iff.1 hr
  · rw [if_neg he] at h ⊢
    rw [← Option.some.inj h]
    exact qualify_scope hd (by simpa using he)

theorem makes_of_declare (hd : d ∈ definitions files) {f : FieldDecl} (h : d.entry.declare known d.scope = .ok f) :
    d.Makes (known · = true) { f with extension := d.isExtension } := by
  obtain ⟨hn, typeName?, rfl, ht⟩ := FieldEntry.exists_of_declare h
  refine ⟨rfl, Int.toNat_of_nonneg (Int.le_of_lt hn), rfl, rfl, rfl, ?_⟩
  split at ht
  · rename_i hm
    obtain ⟨full, hr, hfull⟩ := ht
    rw [if_pos hm]
    exact ⟨full, resolve_eq_some_iff.1 hr, by rw [hfull, qualify_resolve (isScope_of_mem_definitions hd) hr]⟩
  · rename_i hm
    rw [if_neg hm]
    exact ht

theorem filed_of_filing? (hd : d ∈ definitions files) {filing : Filing} (h : d.filing? known = some filing) :
    d.Into (known · = true) filing.message ∧ d.Makes (known · = true) filing.field := by
  obtain ⟨target, ht, hf⟩ := Option.bind_eq_some_iff.1 h
  obtain ⟨f, hdeclare, rfl⟩ := Option.map_eq_some_iff.1 hf
  exact ⟨into_of_target? hd ht, makes_of_declare hd (toOption_eq_some_iff.1 hdeclare)⟩

end Definition

/-! ## What is found after the load -/

theorem latest_of_last {xs ys : List Filing} {x : Filing}
    (h : ∀ y ∈ ys, y.message = x.message → y.field.number ≠ x.field.number) :
    latest (xs ++ x :: ys) x.message x.field.number = some x.field := by
  have hys : latest ys x.message x.field.number = none := by
    unfold latest
    have hnone : (ys.filter fun y => y.message = x.message ∧ y.field.number = x.field.number) = [] := by
      rw [List.filter_eq_nil_iff]
      intro y hy
      simpa using h y hy
    rw [hnone]
    rfl
  have hx : latest [x] x.message x.field.number = some x.field := by
    rw [latest_singleton, if_pos ⟨rfl, rfl⟩]
  rw [latest_append, ← List.singleton_append, latest_append, hys, hx]
  rfl

section Load

variable {s : Schema} {files : List FileEntry} (hok : (s.load files).2 = none)
include hok

theorem find?_of_relative {scope name full : String} (hs : IsScope scope) (hr : name.toList.head? ≠ some '.')
    (h : Means (s.knownWith files · = true) scope name full) : ∃ m, (s.load files).1.find? full = some m := by
  have hq : qualify full = full := qualify_of_head? (h.head?_full hs)
  cases h with
  | absolute h => exact absurd h hr
  | relative _ _ h =>
    have hknown := h.isKnown
    rw [← contains_load hok] at hknown
    rw [find?, hq]
    exact Option.isSome_iff_exists.1 hknown

/-- What the last definition in a place files is there after the load. -/
theorem find?_of_last {before after : List Definition} {d : Definition}
    (hsplit : definitions files = before ++ d :: after) {filing : Filing}
    (hf : d.filing? (s.knownWith files) = some filing)
    (hlast : ∀ d' ∈ after, d'.Into (s.knownWith files · = true) filing.message → d'.entry.number ≠ d.entry.number) :
    ∃ m, (s.load files).1.find? filing.message = some m ∧ m.field? filing.field.number = some filing.field := by
  have hmem : ∀ d' ∈ d :: after, d' ∈ definitions files := by
    intro d' hd'
    rw [hsplit]
    exact List.mem_append_right before hd'
  obtain ⟨hinto, hmakes⟩ := Definition.filed_of_filing? (hmem d List.mem_cons_self) hf
  have hstored : (s.load files).1.field? filing.message filing.field.number = some filing.field := by
    rw [field?_load, filedIn_eq hok, hsplit, List.filterMap_append, List.filterMap_cons, hf, latest_of_last,
      Option.some_or]
    intro y hy hmessage hnumber
    obtain ⟨d', hd', hy⟩ := List.mem_filterMap.1 hy
    obtain ⟨hinto', hmakes'⟩ := Definition.filed_of_filing? (hmem d' (List.mem_cons_of_mem d hd')) hy
    refine hlast d' hd' (hmessage ▸ hinto') ?_
    rw [← hmakes.number, ← hmakes'.number, hnumber]
  have hq : qualify filing.message = filing.message := hinto.qualify_eq (hmem d List.mem_cons_self)
  obtain ⟨m, hm, hfield⟩ := Option.bind_eq_some_iff.1 hstored
  refine ⟨m, ?_, hfield⟩
  rw [find?, hq]
  exact hm

end Load

/-- The definitions of a set are all fields that its files define. If a load succeeds, the names of message types in
it stand for what they mean: a full name for itself, and a relative one for the message type of the innermost scope,
around the place where it stands, that has one of that name in the schema or anywhere in the set. What a relative name
stands for is found after the load. Each field is filed as it is defined, with the name that its type stands for, in
its message type or that which an extension means, and is found there unless a later definition takes its place. A load
with a name that means nothing fails. -/
theorem names_bind_innermost (s : Schema) (files : List FileEntry) :
    let known := IsKnown s files
    let loaded := (s.load files).1
    (∀ d, d ∈ definitions files ↔ d.Stands files) ∧
    ((s.load files).2 = none →
      ∀ before d after, definitions files = before ++ d :: after →
        (∀ name ∈ d.lookups, ∃ full, Means known d.scope name full ∧
          (name.toList.head? ≠ some '.' → ∃ m, loaded.find? full = some m)) ∧
        ∃ target f, d.Into known target ∧ d.Makes known f ∧
          ((∀ d' ∈ after, d'.Into known target → d'.entry.number ≠ d.entry.number) →
            ∃ m, loaded.find? target = some m ∧ m.field? f.number = some f)) ∧
      ∀ d ∈ definitions files, ∀ name ∈ d.lookups, (∀ full, ¬ Means known d.scope name full) →
        ∃ e, (s.load files).2 = some e := by
  intro known loaded
  have hknown : known = (s.knownWith files · = true) := isKnown_eq s files
  rw [hknown]
  refine ⟨fun _ => mem_definitions_iff_stands, fun hok before d after hsplit => ?_,
    fun d hd name hname hno => ?_⟩
  · have hd : d ∈ definitions files := by
      rw [hsplit]
      simp
    obtain ⟨filing, hf⟩ := exists_filing hok hd
    obtain ⟨hinto, hmakes⟩ := Definition.filed_of_filing? hd hf
    refine ⟨fun name hname => ?_, filing.message, filing.field, hinto, hmakes, fun hlast => ?_⟩
    · obtain ⟨full, hfull⟩ := Definition.exists_means hinto hmakes name hname
      exact ⟨full, hfull, fun hr => find?_of_relative hok (isScope_of_mem_definitions hd) hr hfull⟩
    · exact find?_of_last hok hsplit hf hlast
  · cases hok : (s.load files).2 with
    | some e => exact ⟨e, rfl⟩
    | none =>
      obtain ⟨filing, hf⟩ := exists_filing hok hd
      obtain ⟨hinto, hmakes⟩ := Definition.filed_of_filing? hd hf
      obtain ⟨full, hfull⟩ := Definition.exists_means hinto hmakes name hname
      exact absurd hfull (hno full)

end TraceTables.Schema
