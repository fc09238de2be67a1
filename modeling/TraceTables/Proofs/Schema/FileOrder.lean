import Mathlib.Data.List.Nodup
import Mathlib.Data.List.Perm.Basic
import TraceTables.Proofs.Schema.Passes

/-! The files of a set may come in any order. All names of the set are known from the start and all message types are
there before the first extension, so the order could only decide between two filings in one place, and if the names of
the message types are distinct and extensions do not clash there are none in different files. -/

namespace TraceTables.Schema

/-- Two extensions of the same message type with the same number. -/
def Clash (known : String → Bool) (x y : Scoped FieldEntry) : Prop :=
  x.entry.number = y.entry.number ∧
    ∃ extendee, resolve known x.scope x.entry.extendee = some extendee ∧
      resolve known y.scope y.entry.extendee = some extendee

instance (known : String → Bool) (x y : Scoped FieldEntry) : Decidable (Clash known x y) :=
  decidable_of_iff (x.entry.number = y.entry.number ∧ (resolve known x.scope x.entry.extendee).isSome ∧
      resolve known y.scope y.entry.extendee = resolve known x.scope x.entry.extendee) <| by
    refine and_congr_right fun _ => ?_
    cases resolve known x.scope x.entry.extendee <;> simp

section Keys

variable {α κ : Type} [DecidableEq κ] {key : α → κ}

/-- If keys are distinct, there is no order among the items of one key. -/
theorem filter_key_eq_of_perm {l l' : List α} (hp : l.Perm l') (hn : (l.map key).Nodup) (k : κ) :
    l.filter (key · = k) = l'.filter (key · = k) := by
  have hf : (l.filter (key · = k)).Perm (l'.filter (key · = k)) := hp.filter _
  have hkeys : ((l.filter (key · = k)).map key).Nodup := hn.sublist (List.filter_sublist.map key)
  have hk : ∀ a ∈ l.filter (key · = k), key a = k := fun a ha => by simpa using (List.mem_filter.1 ha).2
  cases hl : l.filter (key · = k) with
  | nil =>
    rw [hl] at hf
    exact (List.nil_perm.1 hf).symm
  | cons a rest =>
    cases rest with
    | nil =>
      rw [hl] at hf
      exact List.singleton_perm.1 hf
    | cons b rest =>
      rw [hl] at hkeys hk
      have hab : key a = key b := (hk a (by simp)).trans (hk b (by simp)).symm
      simp [hab] at hkeys

end Keys

/-! ## Filings in another order -/

theorem latest_perm {xs ys : List Filing} (hp : xs.Perm ys)
    (hn : (xs.map fun x => (x.message, x.field.number)).Nodup) (name : String) (number : Nat) :
    latest xs name number = latest ys name number := by
  have h := filter_key_eq_of_perm hp hn (name, number)
  simp only [Prod.mk.injEq] at h
  unfold latest
  rw [h]

/-- What layouts declare for a name is told by those of that name. -/
theorem latest_filings (ds : List (Scoped (List FieldDecl))) (name : String) (number : Nat) :
    latest (filings ds) name number = latest (filings (ds.filter (qualify ·.scope = name))) name number := by
  induction ds with
  | nil => rfl
  | cons d ds ih =>
    by_cases hd : qualify d.scope = name
    · rw [List.filter_cons_of_pos (by simpa using hd), filings_cons, filings_cons, latest_append, latest_append, ih]
    · have hnone : latest (d.entry.map (⟨qualify d.scope, ·⟩)) name number = none := by
        simp [latest, List.filter_map, Function.comp_def, hd]
      rw [List.filter_cons_of_neg (by simpa using hd), filings_cons, latest_append, ih, hnone, Option.or_none]

theorem latest_filings_perm {ds ds' : List (Scoped (List FieldDecl))} (hp : ds.Perm ds')
    (hn : (ds.map fun d => qualify d.scope).Nodup) (name : String) (number : Nat) :
    latest (filings ds) name number = latest (filings ds') name number := by
  rw [latest_filings, latest_filings ds', filter_key_eq_of_perm hp hn]

/-! ## The passes in another order -/

section Perm

variable {α β : Type} {f : α → Except Fault β} {as as' : List α}

theorem upTo_perm_none (hp : as.Perm as') : (upTo f as).2 = none ↔ (upTo f as').2 = none := by
  rw [upTo_eq_none_iff, upTo_eq_none_iff]
  simp only [hp.mem_iff]

theorem upTo_perm (hp : as.Perm as') (h : (upTo f as).2 = none) : (upTo f as).1.Perm (upTo f as').1 := by
  rw [upTo_eq_filterMap h, upTo_eq_filterMap ((upTo_perm_none hp).1 h)]
  exact hp.filterMap _

end Perm

theorem layouts_perm {files files' : List FileEntry} (hp : files.Perm files') :
    (layouts files).Perm (layouts files') := hp.flatMap_right _

theorem extensions_perm {files files' : List FileEntry} (hp : files.Perm files') :
    (extensions files).Perm (extensions files') := hp.flatMap_right _

theorem knownWith_perm (s : Schema) {files files' : List FileEntry} (hp : files.Perm files') :
    s.knownWith files = s.knownWith files' := by
  funext name
  rw [Bool.eq_iff_iff, knownWith_iff, knownWith_iff]
  exact or_congr_right ((layouts_perm hp).map Layout.fullName).mem_iff

/-- Extensions that do not clash file in different places. -/
theorem nodup_filedBy {known : String → Bool} {files : List FileEntry} (h : (filedBy known files).2 = none)
    (hx : (extensions files).Pairwise fun x y => ¬ Clash known x y) :
    ((filedBy known files).1.map fun x => (x.message, x.field.number)).Nodup := by
  rw [filedBy, upTo_eq_filterMap h, List.Nodup, List.pairwise_map, List.pairwise_filterMap]
  refine hx.imp_of_mem ?_
  intro x y hxm hym hclash a ha b hb hab
  have hfa : x.filing known = .ok a := toOption_eq_some_iff.1 ha
  have hfb : y.filing known = .ok b := toOption_eq_some_iff.1 hb
  obtain ⟨extendee, f, hra, hf, -, rfl⟩ := Scoped.exists_of_filing hfa
  obtain ⟨other, g, hrb, hg, -, rfl⟩ := Scoped.exists_of_filing hfb
  obtain ⟨hmessage, hnumber⟩ := Prod.mk.inj hab
  have hsame : other = extendee := by
    rw [← qualify_resolve (isScope_of_mem_extensions hxm) hra, ← qualify_resolve (isScope_of_mem_extensions hym) hrb]
    exact hmessage.symm
  refine hclash ⟨?_, extendee, hra, hsame ▸ hrb⟩
  rw [← FieldEntry.number_of_declare hf, ← FieldEntry.number_of_declare hg]
  exact congrArg Nat.cast hnumber

/-- If the full names of its message types are distinct and no two of its extensions clash, a set may be loaded with its
files in any order. Either all orders fail or all succeed, and then they leave the same message types with the same
fields. -/
theorem load_perm (s : Schema) {files files' : List FileEntry} (hp : files.Perm files')
    (hn : (setNames files).Nodup)
    (hx : (extensions files).Pairwise fun x y => ¬ Clash (s.knownWith files) x y) :
    ((s.load files).2 = none ↔ (s.load files').2 = none) ∧
      ((s.load files).2 = none → Same (s.load files).1 (s.load files').1) := by
  have hknown : s.knownWith files' = s.knownWith files := (knownWith_perm s hp).symm
  refine ⟨?_, fun hok => ?_⟩
  · rw [load_eq_none_iff, load_eq_none_iff, hknown]
    exact and_congr (upTo_perm_none (layouts_perm hp)) (upTo_perm_none (extensions_perm hp))
  obtain ⟨hd, he⟩ := load_eq_none_iff.1 hok
  have hd' : (declaredBy (s.knownWith files) files').2 = none := (upTo_perm_none (layouts_perm hp)).1 hd
  refine ⟨fun name => ?_, fun name number => ?_⟩
  · have hmem : name ∈ setNames files ↔ name ∈ setNames files' := ((layouts_perm hp).map Layout.fullName).mem_iff
    rw [fullName?_load, fullName?_load, hknown, map_scope_declaredBy hd, map_scope_declaredBy hd']
    exact congrArg _ (if_congr hmem rfl rfl)
  · have hlayouts : latest (filings (declaredBy (s.knownWith files) files).1) name number =
        latest (filings (declaredBy (s.knownWith files) files').1) name number := by
      refine latest_filings_perm (upTo_perm (layouts_perm hp) hd) ?_ name number
      rw [← declaredBy, map_scope_declaredBy hd]
      exact hn
    have hextensions : latest (filedBy (s.knownWith files) files).1 name number =
        latest (filedBy (s.knownWith files) files').1 name number :=
      latest_perm (upTo_perm (extensions_perm hp) he) (nodup_filedBy he hx) name number
    rw [field?_load, field?_load, hknown]
    simp only [filedIn, hd, hd', Option.isNone_none, if_true, latest_append, hlayouts, hextensions]

/-- A schema with one of the message types of `crossedFiles`. -/
def crossedSchema : Schema :=
  Schema.empty.declare ((MessageDecl.named "p.A").add ⟨"old", 4, .int32, none, false, false⟩)

/-- Each file names a message type of the other, and an extension has the number of a field. -/
def crossedFiles : List FileEntry :=
  [⟨"p", [.mk "A" [⟨"b", "", 1, false, .message, "q.B"⟩] [] []], [⟨"ext", "q.B", 2, false, .string, ""⟩]⟩,
   ⟨"q", [.mk "B" [⟨"a", "", 1, true, .message, "p.A"⟩, ⟨"c", "", 2, false, .message, "C"⟩]
     [.mk "C" [] [] []] [⟨"more", "B.C", 2, false, .bytes, ""⟩]], []⟩]

theorem load_perm_crossed :
    (crossedSchema.load crossedFiles.reverse).2 = none ∧
      Same (crossedSchema.load crossedFiles).1 (crossedSchema.load crossedFiles.reverse).1 ∧
      (crossedSchema.load crossedFiles).1.field? ".q.B" 2 = some ⟨"ext", 2, .string, none, false, true⟩ ∧
      (crossedSchema.load crossedFiles).1.field? ".p.A" 4 = some ⟨"old", 4, .int32, none, false, false⟩ := by
  have hn : (setNames crossedFiles).Nodup := by decide +kernel
  have hx : (extensions crossedFiles).Pairwise fun x y => ¬ Clash (crossedSchema.knownWith crossedFiles) x y := by
    decide +kernel
  have hok : (crossedSchema.load crossedFiles).2 = none := by decide +kernel
  obtain ⟨hiff, hsame⟩ := load_perm crossedSchema (List.reverse_perm crossedFiles).symm hn hx
  exact ⟨hiff.1 hok, hsame hok, by decide +kernel, by decide +kernel⟩

end TraceTables.Schema
