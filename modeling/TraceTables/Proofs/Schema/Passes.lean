import TraceTables.Proofs.Schema.Declared
import TraceTables.Proofs.Schema.Filing

/-! A set is loaded in two passes, message types first and then extensions. What an item of a pass gives, or why it
fails, is told by the names that are known when the load starts, and not by what the pass has done so far. So a load is
told by the lists of what the items give, up to the first that fails. -/

namespace TraceTables.Schema

/-! ## One pass -/

section Pass

variable {α β : Type}

/-- What the items of a pass give up to the first that fails, and its fault. -/
def upTo (f : α → Except Fault β) : List α → List β × Option Fault
  | [] => ([], none)
  | a :: as =>
    match f a with
    | .error e => ([], some e)
    | .ok b => (b :: (upTo f as).1, (upTo f as).2)

theorem steps_eq (inv : Schema → Prop) {step : Schema → α → Except Fault Schema} {f : α → Except Fault β}
    {add : Schema → β → Schema} (hstep : ∀ s a, inv s → step s a = (f a).map (add s))
    (hadd : ∀ s b, inv s → inv (add s b)) {s : Schema} (hs : inv s) (as : List α) :
    steps step s as = ((upTo f as).1.foldl add s, (upTo f as).2) := by
  induction as generalizing s with
  | nil => rfl
  | cons a as ih =>
    rw [steps, hstep s a hs, upTo]
    cases f a with
    | error e => rfl
    | ok b => exact ih (hadd s b hs)

variable {f : α → Except Fault β} {as : List α}

theorem exists_of_mem_upTo {b : β} (h : b ∈ (upTo f as).1) : ∃ a ∈ as, f a = .ok b := by
  induction as with
  | nil => cases h
  | cons a as ih =>
    rw [upTo] at h
    cases hf : f a with
    | error e =>
      rw [hf] at h
      cases h
    | ok c =>
      rw [hf] at h
      rcases List.mem_cons.1 h with rfl | h
      · exact ⟨a, List.mem_cons_self, hf⟩
      · obtain ⟨a', ha', hb⟩ := ih h
        exact ⟨a', List.mem_cons_of_mem a ha', hb⟩

theorem upTo_eq_none_iff : (upTo f as).2 = none ↔ ∀ a ∈ as, ∃ b, f a = .ok b := by
  induction as with
  | nil => simp [upTo]
  | cons a as ih =>
    rw [upTo, List.forall_mem_cons]
    cases f a with
    | error e => simp
    | ok b => simpa using ih

theorem toOption_eq_some_iff {r : Except Fault β} {b : β} : r.toOption = some b ↔ r = .ok b := by
  cases r <;> simp [Except.toOption]

/-- A pass that does not fail has what all its items give. -/
theorem upTo_eq_filterMap (h : (upTo f as).2 = none) : (upTo f as).1 = as.filterMap fun a => (f a).toOption := by
  induction as with
  | nil => rfl
  | cons a as ih =>
    rw [upTo] at h ⊢
    cases hf : f a with
    | error e =>
      rw [hf] at h
      cases h
    | ok b =>
      rw [hf] at h
      rw [List.filterMap_cons, hf]
      exact congrArg (b :: ·) (ih h)

theorem upTo_of_mapM {bs : List β} (h : as.mapM f = .ok bs) : upTo f as = (bs, none) := by
  induction as generalizing bs with
  | nil =>
    cases h
    rfl
  | cons a as ih =>
    rw [List.mapM_cons] at h
    cases hf : f a with
    | error e =>
      rw [hf] at h
      cases h
    | ok b =>
      cases hs : as.mapM f with
      | error e =>
        rw [hf, hs] at h
        cases h
      | ok rest =>
        rw [hf, hs] at h
        cases h
        rw [upTo, hf, ih hs]

end Pass

/-! ## The names of a set -/

/-- The full names of the message types of a set. -/
def setNames (files : List FileEntry) : List String := (layouts files).map Layout.fullName

/-- The names that are known while the set is loaded. -/
def knownWith (s : Schema) (files : List FileEntry) : String → Bool := s.knows (setNames files)

theorem knownWith_iff {s : Schema} {files : List FileEntry} {name : String} :
    s.knownWith files name = true ↔ s.messages.contains name = true ∨ name ∈ setNames files := by
  simp [knownWith, knows]

/-! ## What the items give -/

/-- The fields that a layout declares, under its full name. -/
def Layout.declared (known : String → Bool) (l : Layout) : Except Fault (Scoped (List FieldDecl)) :=
  (l.fields.mapM (FieldEntry.declare known l.fullName)).map (⟨l.fullName, ·⟩)

theorem addLayout_eq (known : String → Bool) (s : Schema) (l : Layout) :
    addLayout known s l = (l.declared known).map fun d => s.declareFields d.scope d.entry := by
  unfold addLayout Layout.declared
  cases l.fields.mapM (FieldEntry.declare known l.fullName) <;> rfl

/-- A layout that can be declared has all its fields declared, in order. -/
theorem Layout.exists_of_declared {known : String → Bool} {l : Layout} {d : Scoped (List FieldDecl)}
    (h : l.declared known = .ok d) :
    (∀ f ∈ l.fields, ∃ g, f.declare known l.fullName = .ok g) ∧
      d = ⟨l.fullName, l.fields.filterMap fun f => (f.declare known l.fullName).toOption⟩ := by
  unfold declared at h
  cases hf : l.fields.mapM (FieldEntry.declare known l.fullName) with
  | error e =>
    rw [hf] at h
    cases h
  | ok fs =>
    have hu := upTo_of_mapM hf
    have hnone : (upTo (FieldEntry.declare known l.fullName) l.fields).2 = none := by rw [hu]
    have hfs := upTo_eq_filterMap hnone
    rw [hu] at hfs
    rw [hf] at h
    cases h
    exact ⟨upTo_eq_none_iff.1 hnone, by rw [← hfs]⟩

theorem Layout.scope_of_declared {known : String → Bool} {l : Layout} {d : Scoped (List FieldDecl)}
    (h : l.declared known = .ok d) : d.scope = l.fullName := by
  rw [(exists_of_declared h).2]

/-- What an extension files with the message type that it names. -/
def Scoped.filing (known : String → Bool) (x : Scoped FieldEntry) : Except Fault Filing :=
  match resolve known x.scope x.entry.extendee with
  | none => .error (.unknownExtendee x.entry.name x.entry.extendee)
  | some extendee =>
    match x.entry.declare known x.scope with
    | .error e => .error e
    | .ok f =>
      if known (qualify extendee) then .ok ⟨qualify extendee, { f with extension := true }⟩
      else .error (.unknownExtendee f.name (qualify extendee))

theorem addExtension_eq {known : String → Bool} {s : Schema} (hs : s.messages.contains = known)
    (x : Scoped FieldEntry) : addExtension known s x = (x.filing known).map s.file := by
  unfold addExtension Scoped.filing
  cases resolve known x.scope x.entry.extendee with
  | none => rfl
  | some extendee =>
    cases x.entry.declare known x.scope with
    | error e => rfl
    | ok f =>
      simp only [extend_eq, hs]
      split <;> rfl

theorem Scoped.exists_of_filing {known : String → Bool} {x : Scoped FieldEntry} {filing : Filing}
    (h : x.filing known = .ok filing) :
    ∃ extendee f, resolve known x.scope x.entry.extendee = some extendee ∧
      x.entry.declare known x.scope = .ok f ∧ known (qualify extendee) = true ∧
      filing = ⟨qualify extendee, { f with extension := true }⟩ := by
  unfold Scoped.filing at h
  split at h
  · cases h
  · rename_i extendee hr
    split at h
    · cases h
    · rename_i f hf
      split at h
      · rename_i hk
        cases h
        exact ⟨extendee, f, hr, hf, hk, rfl⟩
      · cases h

theorem Scoped.known_of_filing {known : String → Bool} {x : Scoped FieldEntry} {filing : Filing}
    (h : x.filing known = .ok filing) : known filing.message = true := by
  obtain ⟨extendee, f, -, -, hk, rfl⟩ := exists_of_filing h
  exact hk

/-- All that a field which can be declared is declared with. -/
theorem FieldEntry.exists_of_declare {known : String → Bool} {scope : String} {f : FieldEntry} {d : FieldDecl}
    (h : f.declare known scope = .ok d) :
    0 < f.number ∧ ∃ typeName?, d = ⟨f.name, f.number.toNat, f.type, typeName?, f.repeated, false⟩ ∧
      if f.type.isMessageLike then
        ∃ full, resolve known scope f.typeName = some full ∧ typeName? = some (qualify full)
      else typeName? = none := by
  unfold declare at h
  split at h
  · cases h
  · rename_i hn
    refine ⟨Int.not_le.1 hn, ?_⟩
    split at h
    · rename_i ht
      split at h
      · cases h
      · rename_i full hr
        cases h
        exact ⟨_, rfl, by rw [if_pos ht]; exact ⟨full, hr, rfl⟩⟩
    · rename_i ht
      cases h
      exact ⟨_, rfl, by rw [if_neg ht]⟩

theorem FieldEntry.number_of_declare {known : String → Bool} {scope : String} {f : FieldEntry} {d : FieldDecl}
    (h : f.declare known scope = .ok d) : (d.number : Int) = f.number := by
  obtain ⟨hn, -, rfl, -⟩ := exists_of_declare h
  exact Int.toNat_of_nonneg (Int.le_of_lt hn)

/-! ## What a pass leaves -/

/-- The filings of the fields that layouts declare. -/
def filings (ds : List (Scoped (List FieldDecl))) : List Filing :=
  ds.flatMap fun d => d.entry.map (⟨qualify d.scope, ·⟩)

theorem filings_cons (d : Scoped (List FieldDecl)) (ds : List (Scoped (List FieldDecl))) :
    filings (d :: ds) = d.entry.map (⟨qualify d.scope, ·⟩) ++ filings ds := rfl

def declareAll (s : Schema) (ds : List (Scoped (List FieldDecl))) : Schema :=
  ds.foldl (fun s d => s.declareFields d.scope d.entry) s

def fileAll (s : Schema) (xs : List Filing) : Schema := xs.foldl file s

theorem fullName?_declareAll (s : Schema) (ds : List (Scoped (List FieldDecl))) (name : String) :
    (s.declareAll ds).fullName? name =
      (s.fullName? name).or (if name ∈ ds.map (fun d => qualify d.scope) then some name else none) := by
  induction ds generalizing s with
  | nil => simp [declareAll]
  | cons d ds ih =>
    have h := ih (s.declareFields d.scope d.entry)
    unfold declareAll at h ⊢
    rw [List.foldl_cons, h, fullName?_declareFields, Option.or_assoc]
    by_cases hd : qualify d.scope = name
    · simp [hd]
    · simp [hd, Ne.symm hd]

theorem field?_declareAll (s : Schema) (ds : List (Scoped (List FieldDecl))) (name : String) (number : Nat) :
    (s.declareAll ds).field? name number = (latest (filings ds) name number).or (s.field? name number) := by
  induction ds generalizing s with
  | nil => rfl
  | cons d ds ih =>
    have h := ih (s.declareFields d.scope d.entry)
    unfold declareAll at h ⊢
    rw [List.foldl_cons, h, field?_declareFields, ← Option.or_assoc, ← latest_append]
    rfl

theorem fullName?_fileAll (s : Schema) (xs : List Filing) (name : String) :
    (s.fileAll xs).fullName? name = s.fullName? name := by
  induction xs generalizing s with
  | nil => rfl
  | cons x xs ih =>
    have h := ih (s.file x)
    unfold fileAll at h ⊢
    rw [List.foldl_cons, h, fullName?_file]

theorem field?_fileAll {s : Schema} {xs : List Filing} (hx : ∀ x ∈ xs, s.messages.contains x.message = true)
    (name : String) (number : Nat) :
    (s.fileAll xs).field? name number = (latest xs name number).or (s.field? name number) := by
  induction xs generalizing s with
  | nil => rfl
  | cons x xs ih =>
    rw [List.forall_mem_cons] at hx
    have hxs : ∀ y ∈ xs, (s.file x).messages.contains y.message = true := by
      intro y hy
      rw [contains_eq, fullName?_file, ← contains_eq]
      exact hx.2 y hy
    have h := ih hxs
    unfold fileAll at h ⊢
    rw [List.foldl_cons, h, field?_file hx.1, ← Option.or_assoc, ← latest_append]
    rfl

/-! ## The load -/

/-- The first pass: what the layouts of a set declare. -/
def declaredBy (known : String → Bool) (files : List FileEntry) : List (Scoped (List FieldDecl)) × Option Fault :=
  upTo (Layout.declared known) (layouts files)

/-- The second pass: what the extensions of a set file. -/
def filedBy (known : String → Bool) (files : List FileEntry) : List Filing × Option Fault :=
  upTo (Scoped.filing known) (extensions files)

theorem mem_setNames_of_declaredBy {known : String → Bool} {files : List FileEntry} {name : String}
    (h : name ∈ (declaredBy known files).1.map fun d => qualify d.scope) : name ∈ setNames files := by
  obtain ⟨d, hd, rfl⟩ := List.mem_map.1 h
  obtain ⟨l, hl, hdl⟩ := exists_of_mem_upTo hd
  rw [Layout.scope_of_declared hdl, qualify_fullName hl]
  exact List.mem_map_of_mem hl

/-- Layouts declare under their own names. -/
theorem map_scope_declaredBy {known : String → Bool} {files : List FileEntry}
    (h : (declaredBy known files).2 = none) :
    (declaredBy known files).1.map (fun d => qualify d.scope) = setNames files := by
  have hall := upTo_eq_none_iff.1 h
  rw [declaredBy, upTo_eq_filterMap h, List.map_filterMap, setNames, ← List.filterMap_eq_map]
  refine List.filterMap_congr fun l hl => ?_
  obtain ⟨d, hd⟩ := hall l hl
  simp only [hd, Except.toOption, Option.map_some, Function.comp_apply, Layout.scope_of_declared hd,
    qualify_fullName hl]

/-- When the first pass is over, the names that are known are those of the schema. -/
theorem contains_declareAll {s : Schema} {files : List FileEntry}
    (hok : (declaredBy (s.knownWith files) files).2 = none) :
    (s.declareAll (declaredBy (s.knownWith files) files).1).messages.contains = s.knownWith files := by
  funext name
  rw [Bool.eq_iff_iff, knownWith_iff, contains_eq, contains_eq, fullName?_declareAll, map_scope_declaredBy hok,
    Option.isSome_or, Bool.or_eq_true]
  refine or_congr_right ?_
  by_cases hn : name ∈ setNames files <;> simp [hn]

section Load

variable (s : Schema) (files : List FileEntry)

theorem steps_addLayout :
    steps (addLayout (s.knownWith files)) s (layouts files) =
      (s.declareAll (declaredBy (s.knownWith files) files).1, (declaredBy (s.knownWith files) files).2) :=
  steps_eq (fun _ => True) (fun s l _ => addLayout_eq _ s l) (fun _ _ _ => trivial) trivial _

theorem load_eq_steps :
    s.load files =
      match steps (addLayout (s.knownWith files)) s (layouts files) with
      | (s', some e) => (s', some e)
      | (s', none) => steps (addExtension (s.knownWith files)) s' (extensions files) := rfl

variable {s files}

theorem load_of_some {e : Fault} (h : (declaredBy (s.knownWith files) files).2 = some e) :
    s.load files = (s.declareAll (declaredBy (s.knownWith files) files).1, some e) := by
  rw [load_eq_steps, steps_addLayout, h]

theorem load_of_none (h : (declaredBy (s.knownWith files) files).2 = none) :
    s.load files =
      ((s.declareAll (declaredBy (s.knownWith files) files).1).fileAll (filedBy (s.knownWith files) files).1,
        (filedBy (s.knownWith files) files).2) := by
  rw [load_eq_steps, steps_addLayout, h]
  refine steps_eq (fun s' => s'.messages.contains = s.knownWith files) (fun s' x hs => addExtension_eq hs x) ?_
    (contains_declareAll h) _
  intro s' x hs
  rw [← hs]
  funext name
  rw [contains_eq, contains_eq, fullName?_file]

theorem fullName?_load (name : String) :
    (s.load files).1.fullName? name =
      (s.fullName? name).or
        (if name ∈ (declaredBy (s.knownWith files) files).1.map (fun d => qualify d.scope) then some name
          else none) := by
  cases h : (declaredBy (s.knownWith files) files).2 with
  | some e => rw [load_of_some h, fullName?_declareAll]
  | none => rw [load_of_none h, fullName?_fileAll, fullName?_declareAll]

/-- All that a load files, in order. -/
def filedIn (known : String → Bool) (files : List FileEntry) : List Filing :=
  filings (declaredBy known files).1 ++ if (declaredBy known files).2.isNone then (filedBy known files).1 else []

theorem field?_load (name : String) (number : Nat) :
    (s.load files).1.field? name number =
      (latest (filedIn (s.knownWith files) files) name number).or (s.field? name number) := by
  unfold filedIn
  cases h : (declaredBy (s.knownWith files) files).2 with
  | some e => rw [load_of_some h, field?_declareAll, Option.isNone_some, if_neg Bool.false_ne_true, List.append_nil]
  | none =>
    have hthere : ∀ x ∈ (filedBy (s.knownWith files) files).1,
        (s.declareAll (declaredBy (s.knownWith files) files).1).messages.contains x.message = true := by
      intro x hx
      obtain ⟨y, -, hy⟩ := exists_of_mem_upTo hx
      rw [contains_declareAll h]
      exact Scoped.known_of_filing hy
    rw [load_of_none h, field?_fileAll hthere, field?_declareAll, Option.isNone_none, if_pos rfl, latest_append,
      Option.or_assoc]

/-- Why a load stops is told by the set and the names that are known. -/
theorem snd_load :
    (s.load files).2 =
      (declaredBy (s.knownWith files) files).2.or (filedBy (s.knownWith files) files).2 := by
  cases h : (declaredBy (s.knownWith files) files).2 with
  | some e => rw [load_of_some h, Option.some_or]
  | none => rw [load_of_none h, Option.none_or]

theorem load_eq_none_iff :
    (s.load files).2 = none ↔
      (declaredBy (s.knownWith files) files).2 = none ∧ (filedBy (s.knownWith files) files).2 = none := by
  rw [snd_load, Option.or_eq_none_iff]

/-- A load that succeeds leaves a schema with all the names that were known to it. -/
theorem contains_load (h : (s.load files).2 = none) : (s.load files).1.messages.contains = s.knownWith files := by
  have hd := (load_eq_none_iff.1 h).1
  refine Eq.trans ?_ (contains_declareAll hd)
  funext name
  rw [load_of_none hd, contains_eq, contains_eq, fullName?_fileAll]

end Load

end TraceTables.Schema
