import TraceTables.Json.Double
import TraceTables.Proofs.Json.Reading
import TraceTables.Proofs.Settings.Sections
import TraceTables.Proofs.Text.Utf8
import TraceTables.Settings.Load

/-! Where each setting comes from. A file sets what it says; of the command line, the overlay, the profile and the
defaults the first that sets a setting decides it, for every setting on its own. Nothing of this can fail but the files
that are asked for and a depth of zero. -/

namespace TraceTables.Settings

open Json (Written)

theorem run_bind {ε α β : Type} (x : ExceptT ε Id α) (f : α → ExceptT ε Id β) :
    (x >>= f).run.run = x.run.run.bind fun a => (f a).run.run := by
  change (ExceptT.bindCont f x.run.run : Id _).run = _
  cases x.run.run <;> rfl

/-! ## What the layers come to -/

/-- The file can be read, is a text of a document, and that says what the layer sets. -/
def FileSays [Json.Reals] (disk : Disk Id) (path : String) (l : Layer) : Prop :=
  ∃ text w, (disk.read? path).run = some (Text.Utf8.encode text) ∧ Written.Text w text ∧ DocumentSays w l

/-- The first of some layers that sets it decides a setting. -/
def firstSet {α : Type} (default : α) (layers : List (Option α)) : α := (layers.findSome? id).getD default

/-- The profile, if it is there. -/
def profile? (disk : Disk Id) (s : Surroundings) : Option String :=
  (s.home?.map profilePath).filter fun path => (disk.present path).run

/-- The file named on the command line, else the local one if it is there. -/
def overlay? (disk : Disk Id) (s : Surroundings) (o : Options) : Option String :=
  match o.config? with
  | some text => some (expand s text)
  | none => if (disk.present fileName).run then some fileName else none

/-- The files that a load consults, the higher layer first. -/
def consulted (disk : Disk Id) (s : Surroundings) (o : Options) : List String :=
  (overlay? disk s o).toList ++ (profile? disk s).toList

/-- Is the file there that the command line names? -/
def NamedPresent (disk : Disk Id) (s : Surroundings) (o : Options) : Prop :=
  ∀ text, o.config? = some text → (disk.present (expand s text)).run = true

/-- The settings of a command line above those of files. -/
def settingsOf (s : Surroundings) (o : Options) (ls : List Layer) : Effective where
  maxDepth := firstSet 64 (o.maxDepth? :: ls.map Layer.maxDepth?)
  descriptorSets :=
    (firstSet [] ((if o.descriptorSets = [] then none else some o.descriptorSets) ::
      ls.map Layer.descriptorSets?)).map (expand s)
  pretty := firstSet false (o.pretty? :: ls.map Layer.pretty?)

section Layers

variable {disk : Disk Id} {s : Surroundings} {o : Options} {path : String} {path? : Option String} {l : Layer}

/-- The layer that layers make together, the higher ones given first. -/
def together (ls : List Layer) : Layer := ls.foldr Layer.above .empty

theorem together_singleton (l : Layer) : together [l] = l := l.above_empty

theorem together_append (ls ms : List Layer) : together (ls ++ ms) = (together ls).above (together ms) := by
  induction ls with
  | nil => exact (Layer.empty_above _).symm
  | cons l ls ih =>
    calc together (l :: ls ++ ms) = l.above (together (ls ++ ms)) := rfl
      _ = l.above ((together ls).above (together ms)) := by rw [ih]
      _ = (together (l :: ls)).above (together ms) := (Layer.above_assoc _ _ _).symm

theorem together_eq (ls : List Layer) :
    together ls = ⟨(ls.map Layer.maxDepth?).findSome? id, (ls.map Layer.descriptorSets?).findSome? id,
      (ls.map Layer.pretty?).findSome? id⟩ := by
  have hfirst {α : Type} (a? : Option α) (as : List (Option α)) :
      (a? :: as).findSome? id = a?.or (as.findSome? id) := by cases a? <;> rfl
  induction ls with
  | nil => rfl
  | cons l ls ih =>
    have hcons : together (l :: ls) = l.above (together ls) := rfl
    rw [hcons, ih, Layer.above, List.map_cons, List.map_cons, List.map_cons, hfirst, hfirst, hfirst]

theorem settingsOf_eq (ls : List Layer) :
    settingsOf s o ls =
      ⟨(o.layer.above (together ls)).maxDepth?.getD 64,
        ((o.layer.above (together ls)).descriptorSets?.getD []).map (expand s),
        (o.layer.above (together ls)).pretty?.getD false⟩ := by
  have hsets : o.layer.descriptorSets? = if o.descriptorSets = [] then none else some o.descriptorSets := by
    simp [Options.layer, List.isEmpty_iff]
  have hfirst {α : Type} (default : α) (own : Option α) (files : List (Option α)) :
      firstSet default (own :: files) = (own.or (files.findSome? id)).getD default := by
    cases own <;> rfl
  simp only [settingsOf, hfirst, ← hsets, together_eq]
  rfl

theorem settle_together (ls ms : List Layer) (e : Effective) :
    settle s o (together ms) (together ls) = .ok e ↔ e = settingsOf s o (ls ++ ms) ∧ e.maxDepth ≠ 0 := by
  simp only [settle, ← together_append, settingsOf_eq]
  split
  · rename_i hzero
    simp only [reduceCtorEq, false_iff, not_and, not_not]
    rintro rfl
    exact hzero
  · rename_i hpos
    simp only [Except.ok.injEq]
    constructor
    · rintro rfl
      exact ⟨rfl, hpos⟩
    · rintro ⟨rfl, -⟩
      rfl

end Layers

/-! ## What is loaded -/

section Files

variable [Json.Reals] {disk : Disk Id} {s : Surroundings} {o : Options} {path : String} {path? : Option String}
  {l : Layer}

/-- The layer that is read from a file. -/
def fileLayer? (disk : Disk Id) (path : String) : Option Layer :=
  ((disk.read? path).run.bind Text.Utf8.decode?).bind Layer.read?

theorem fileSays_iff : FileSays disk path l ↔ fileLayer? disk path = some l := by
  simp only [FileSays, fileLayer?, Layer.read?, Option.bind_eq_some_iff, Text.Utf8.decode?_eq_some_iff,
    Written.read?_eq_some_iff, ofWritten?_eq_some_iff]
  constructor
  · rintro ⟨text, w, hread, hw, hl⟩
    exact ⟨text, ⟨_, hread, rfl⟩, w, hw, hl⟩
  · rintro ⟨text, ⟨_, hread, rfl⟩, w, hw, hl⟩
    exact ⟨text, w, hread, hw, hl⟩

theorem forall₂_fileSays_iff {paths : List String} {ls : List Layer} :
    List.Forall₂ (FileSays disk) paths ls ↔ paths.mapM (fileLayer? disk) = some ls := by
  simp only [mapM_eq_some_iff, ← fileSays_iff]

theorem loadLayer_eq_ok_iff : (loadLayer disk path).run.run = .ok l ↔ fileLayer? disk path = some l := by
  obtain ⟨content, hcontent⟩ : ∃ content : Option (List UInt8), disk.read? path = content := ⟨_, rfl⟩
  unfold loadLayer fileLayer?
  rw [hcontent, run_bind]
  change Except.bind (.ok content) _ = _ ↔ _
  simp only [Except.bind, show Id.run content = content from rfl]
  cases htext : content.bind Text.Utf8.decode? with
  | none => simp
  | some text => cases hl : Layer.read? text <;> simp [hl]

/-- The layer of a file that is consulted, else the one that sets nothing. -/
def layerAt (disk : Disk Id) : Option String → Except Fault Layer
  | none => .ok .empty
  | some path => (loadLayer disk path).run.run

theorem layerAt_eq_ok_iff :
    layerAt disk path? = .ok l ↔ ∃ ls, path?.toList.mapM (fileLayer? disk) = some ls ∧ l = together ls := by
  cases path? with
  | none => simp [layerAt, eq_comm, together]
  | some path =>
    rw [layerAt, loadLayer_eq_ok_iff]
    cases hl : fileLayer? disk path <;> simp [hl, together_singleton, eq_comm]

theorem loadIfPresent_eq :
    (loadIfPresent disk path).run.run = layerAt disk (if (disk.present path).run then some path else none) := by
  have hload : (loadIfPresent disk path).run.run =
      (if (disk.present path).run then loadLayer disk path else pure .empty).run.run := rfl
  rw [hload]
  split <;> rfl

theorem loadOverlay_eq_ok_iff :
    (loadOverlay disk s o.config?).run.run = .ok l ↔
      NamedPresent disk s o ∧ layerAt disk (overlay? disk s o) = .ok l := by
  unfold NamedPresent overlay?
  cases o.config? with
  | none => simp [loadOverlay, loadIfPresent_eq]
  | some text =>
    have hload : (loadOverlay disk s (some text)).run.run =
        (if (disk.present (expand s text)).run then loadLayer disk (expand s text)
          else throw (.notFound (expand s text))).run.run := rfl
    rw [hload]
    cases hpresent : (disk.present (expand s text)).run <;> simp [hpresent, layerAt]

theorem load_eq_ok_iff {e : Effective} :
    (load disk s o).run.run = .ok e ↔ NamedPresent disk s o ∧ ∃ profile overlay,
      layerAt disk (profile? disk s) = .ok profile ∧ layerAt disk (overlay? disk s o) = .ok overlay ∧
        settle s o profile overlay = .ok e := by
  have hload : (load disk s o).run.run = (layerAt disk (profile? disk s)).bind fun profile =>
      (loadOverlay disk s o.config?).run.run.bind fun overlay => settle s o profile overlay := by
    unfold load profile?
    cases s.home? with
    | none => simp only [run_bind]; rfl
    | some home => simp only [run_bind, loadIfPresent_eq]; rfl
  have hbind {α β : Type} (r : Except Fault α) (f : α → Except Fault β) (b : β) :
      r.bind f = .ok b ↔ ∃ a, r = .ok a ∧ f a = .ok b := by
    cases r <;> simp [Except.bind]
  simp only [hload, hbind, loadOverlay_eq_ok_iff]
  constructor
  · rintro ⟨profile, hprofile, overlay, ⟨hnamed, hoverlay⟩, he⟩
    exact ⟨hnamed, profile, overlay, hprofile, hoverlay, he⟩
  · rintro ⟨hnamed, profile, overlay, hprofile, hoverlay, he⟩
    exact ⟨profile, hprofile, overlay, ⟨hnamed, hoverlay⟩, he⟩

theorem load_eq_ok_iff_settingsOf {e : Effective} :
    (load disk s o).run.run = .ok e ↔
      NamedPresent disk s o ∧ ∃ ls, List.Forall₂ (FileSays disk) (consulted disk s o) ls ∧ e = settingsOf s o ls ∧
        e.maxDepth ≠ 0 := by
  simp only [load_eq_ok_iff, layerAt_eq_ok_iff, consulted, forall₂_fileSays_iff, List.mapM_append,
    Option.bind_eq_bind, Option.pure_def, Option.bind_eq_some_iff, Option.some.injEq]
  -- the overlay stands in front of the profile, though the profile is read first
  refine and_congr_right fun _ => ⟨?_, ?_⟩
  · rintro ⟨_, _, ⟨ms, hms, rfl⟩, ⟨ls, hls, rfl⟩, he⟩
    exact ⟨ls ++ ms, ⟨ls, hls, ms, hms, rfl⟩, (settle_together ls ms e).1 he⟩
  · rintro ⟨_, ⟨ls, hls, ms, hms, rfl⟩, he⟩
    exact ⟨_, _, ⟨ms, hms, rfl⟩, ⟨ls, hls, rfl⟩, (settle_together ls ms e).2 he⟩

end Files

/-- A load succeeds if and only if a file named on the command line is there, the files that it consults say something,
and the depth comes out positive. Each setting is then that of the first layer that sets it. -/
theorem load_outcome [Json.Reals] (disk : Disk Id) (s : Surroundings) (o : Options) :
    (∀ e, (load disk s o).run.run = .ok e ↔
      NamedPresent disk s o ∧ ∃ ls, List.Forall₂ (FileSays disk) (consulted disk s o) ls ∧ e = settingsOf s o ls ∧
        e.maxDepth ≠ 0) ∧
    ((∃ fault, (load disk s o).run.run = .error fault) ↔
      ¬ NamedPresent disk s o ∨ (∃ path ∈ consulted disk s o, ∀ l, ¬ FileSays disk path l) ∨
        ∃ ls, List.Forall₂ (FileSays disk) (consulted disk s o) ls ∧ (settingsOf s o ls).maxDepth = 0) := by
  refine ⟨fun e => load_eq_ok_iff_settingsOf, ?_⟩
  have hfail : (∃ fault, (load disk s o).run.run = .error fault) ↔ ∀ e, (load disk s o).run.run ≠ .ok e := by
    cases (load disk s o).run.run <;> simp
  rw [hfail]
  simp only [ne_eq, load_eq_ok_iff_settingsOf, forall₂_fileSays_iff, fileSays_iff, ← Option.eq_none_iff_forall_ne_some,
    ← mapM_eq_none_iff]
  by_cases hnamed : NamedPresent disk s o
  · cases hlayers : (consulted disk s o).mapM (fileLayer? disk) with
    | none => simp
    | some ls => simp [hnamed]
  · simp [hnamed]

def profileText : String :=
  "\x7b\"args\": \x7b\"max_depth\": 0, \"descriptor_sets\": [\"p.pb\"]\x7d, \"output\": \x7b\"pretty\": true\x7d\x7d"

def localText : String := "\x7b\"args\": [8, [\"~/a.pb\", \"b.pb\"]], \"output\": null, \"notes\": [1.5]\x7d"

/-- The local file sets the depth and the paths, and the profile beneath it these and how the output looks. -/
theorem load_outcome_layered :
    let disk := (FileTree.mk [] [(["home", "u", ".trace-ingest", "trace-ingest.json"], Text.Utf8.encode profileText),
      (["run", "trace-ingest.json"], Text.Utf8.encode localText)]).disk "/run"
    FileSays disk "trace-ingest.json" ⟨some 8, some ["~/a.pb", "b.pb"], none⟩ ∧
    FileSays disk "/home/u/.trace-ingest/trace-ingest.json" ⟨some 0, some ["p.pb"], some true⟩ ∧
    (load disk ⟨some "/home/u", some "/run"⟩ ⟨none, none, [], none⟩).run.run =
      .ok ⟨8, ["/home/u/a.pb", "/run/b.pb"], true⟩ := by
  intro disk
  have hpaths : consulted disk ⟨some "/home/u", some "/run"⟩ ⟨none, none, [], none⟩ =
      ["trace-ingest.json", "/home/u/.trace-ingest/trace-ingest.json"] := by decide +kernel
  have hlocal : FileSays disk "trace-ingest.json" ⟨some 8, some ["~/a.pb", "b.pb"], none⟩ :=
    fileSays_iff.2 (by decide +kernel)
  have hprofile : FileSays disk "/home/u/.trace-ingest/trace-ingest.json" ⟨some 0, some ["p.pb"], some true⟩ :=
    fileSays_iff.2 (by decide +kernel)
  have hlayers : List.Forall₂ (FileSays disk) (consulted disk ⟨some "/home/u", some "/run"⟩ ⟨none, none, [], none⟩)
      [⟨some 8, some ["~/a.pb", "b.pb"], none⟩, ⟨some 0, some ["p.pb"], some true⟩] := by
    rw [hpaths]
    exact .cons hlocal (.cons hprofile .nil)
  exact ⟨hlocal, hprofile, ((load_outcome _ _ _).1 _).2
    ⟨fun _ h => (nomatch h), _, hlayers, by decide +kernel, by decide⟩⟩

end TraceTables.Settings
