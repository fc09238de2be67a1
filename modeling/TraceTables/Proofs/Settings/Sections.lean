import Mathlib.Data.List.Forall2
import TraceTables.Settings.Layer

/-! What a settings file says, by its document alone. It is an object of two sections, each an object of its fields or
an array of all of them; whatever else it has only needs to have a value. A section or a field that is missing or
`null` says nothing. -/

namespace TraceTables.Settings

open Json (Written)

/-! ## Documents -/

/-- An object whose names all have values. -/
def namedObject (members : List (String × Written)) : Written := .object (members.map (Prod.map some id))

/-- With so many levels to go, the document has a value. -/
inductive Valued : Nat → Written → Prop
  | scalar {n : Nat} {s : Json.Scalar} : Valued n (.scalar (some s))
  | array {n : Nat} {items : List Written} : (∀ w ∈ items, Valued n w) → Valued (n + 1) (.array items)
  | object {n : Nat} {members : List (String × Written)} : (∀ m ∈ members, Valued n m.2) →
    Valued (n + 1) (namedObject members)

/-- The only member with the name, if there is one. -/
def Found (members : List (String × Written)) (name : String) (found : Option Written) : Prop :=
  (members.filter fun m => m.1 = name).map Prod.snd = found.toList

/-- The fields of a section in the order of their names. Other members do not matter, other items are not there. -/
inductive Fields (names : List String) : Written → List (Option Written) → Prop
  | byName {members : List (String × Written)} {found : List (Option Written)} :
    List.Forall₂ (Found members) names found → Fields names (namedObject members) found
  | byPlace {items : List Written} : items.length = names.length → Fields names (.array items) (items.map some)

/-! ## Settings -/

/-- What a field says whose value is written like that. -/
inductive Says {α : Type} (Writes : α → Written → Prop) : Option Written → Option α → Prop
  | missing : Says Writes none none
  | null : Says Writes (some (.scalar (some .null))) none
  | given {a : α} {w : Written} : Writes a w → Says Writes (some w) (some a)

def WritesDepth (depth : Nat) (w : Written) : Prop :=
  depth < 2 ^ 64 ∧ w = .scalar (some (.number (.integer depth)))

def WritesPaths (paths : List String) (w : Written) : Prop :=
  w = .array (paths.map fun path => .scalar (some (.string path)))

def WritesFlag (flag : Bool) (w : Written) : Prop := w = .scalar (some (.bool flag))

/-- What a section says, by what its fields do. -/
inductive SectionSays (names : List String) (FieldsSay : List (Option Written) → Layer → Prop) :
    Option Written → Layer → Prop
  | missing : SectionSays names FieldsSay none .empty
  | null : SectionSays names FieldsSay (some (.scalar (some .null))) .empty
  | fields {w : Written} {found : List (Option Written)} {l : Layer} : Fields names w found → FieldsSay found l →
    SectionSays names FieldsSay (some w) l

inductive ArgumentsSay : List (Option Written) → Layer → Prop
  | mk {depth sets : Option Written} {depth? : Option Nat} {sets? : Option (List String)} :
    Says WritesDepth depth depth? → Says WritesPaths sets sets? → ArgumentsSay [depth, sets] ⟨depth?, sets?, none⟩

inductive OutputSays : List (Option Written) → Layer → Prop
  | mk {pretty : Option Written} {pretty? : Option Bool} : Says WritesFlag pretty pretty? →
    OutputSays [pretty] ⟨none, none, pretty?⟩

/-- The document of a settings file. Its sections set different settings. -/
inductive DocumentSays : Written → Layer → Prop
  | mk {members : List (String × Written)} {arguments output : Option Written} {a o : Layer} :
    (∀ m ∈ members, m.1 ≠ "args" → m.1 ≠ "output" → Valued (Json.maxOpen - 1) m.2) →
    Found members "args" arguments → Found members "output" output →
    SectionSays ["max_depth", "descriptor_sets"] ArgumentsSay arguments a →
    SectionSays ["pretty"] OutputSays output o →
    DocumentSays (namedObject members) ⟨a.maxDepth?, a.descriptorSets?, o.pretty?⟩

/-! ## What is read -/

theorem mapM_eq_some_iff {α β : Type} {f : α → Option β} {as : List α} {bs : List β} :
    as.mapM f = some bs ↔ List.Forall₂ (fun a b => f a = some b) as bs := by
  induction as generalizing bs with
  | nil => cases bs <;> simp
  | cons a as ih =>
    simp only [List.mapM_cons, Option.bind_eq_bind, Option.pure_def, Option.bind_eq_some_iff, Option.some.injEq, ih,
      List.forall₂_cons_left_iff]
    exact ⟨fun ⟨b, hb, bs, hbs, h⟩ => ⟨b, bs, hb, hbs, h.symm⟩, fun ⟨b, bs, hb, hbs, h⟩ => ⟨b, hb, bs, hbs, h.symm⟩⟩

theorem mapM_eq_none_iff {α β : Type} {f : α → Option β} {as : List α} :
    as.mapM f = none ↔ ∃ a ∈ as, f a = none := by
  induction as with
  | nil => simp
  | cons a as ih =>
    rw [List.mapM_cons, List.exists_mem_cons_iff, ← ih]
    cases f a <;> cases as.mapM f <;> simp

theorem isSome_mapM_iff {α β : Type} {f : α → Option β} {as : List α} :
    (as.mapM f).isSome ↔ ∀ a ∈ as, (f a).isSome := by
  simp only [Option.isSome_iff_ne_none, ne_eq, mapM_eq_none_iff, not_exists, not_and]

theorem members?_eq_some_iff {w : Written} {members : List (String × Written)} :
    w.members? = some members ↔ w = namedObject members := by
  have hmember (m : Option String × Written) (n : String × Written) :
      (do return (← m.1, m.2) : Option (String × Written)) = some n ↔ m = Prod.map some id n := by
    obtain ⟨v, w⟩ := m
    cases v <;> simp [Prod.ext_iff, eq_comm]
  cases w with
  | scalar | array => simp [Written.members?, namedObject]
  | object ms =>
    simp only [Written.members?, mapM_eq_some_iff, hmember, namedObject, Written.object.injEq]
    rw [← List.forall₂_map_right_iff, List.forall₂_eq_eq_eq]

theorem found_iff {members : List (String × Written)} {name : String} {found : Option Written} :
    Found members name found ↔ Json.repeats name members = false ∧ found = valueAt name members := by
  unfold Found Json.repeats
  induction members with
  | nil => cases found <;> simp [valueAt]
  | cons m members ih =>
    by_cases hm : m.1 = name
    · -- the first one is the only one if no other is left
      cases found with
      | none => simp [valueAt, hm]
      | some w =>
        have hnil : (members.filter fun m => m.1 = name) = [] ↔ (members.filter fun m => m.1 = name).length = 0 :=
          List.length_eq_zero_iff.symm
        simp only [valueAt, hm, decide_true, List.filter_cons_of_pos, List.map_cons, Option.toList_some,
          List.cons.injEq, List.map_eq_nil_iff, hnil, List.length_cons, if_true, Option.some.injEq,
          decide_eq_false_iff_not]
        rw [and_comm, eq_comm (a := w)]
        exact and_congr_left' (by omega)
    · simpa [valueAt, hm] using ih

theorem byName_eq_some_iff {names : List String} {members : List (String × Written)} {found : List (Option Written)} :
    Json.byName names members = some found ↔ List.Forall₂ (Found members) names found := by
  have hfound : List.Forall₂ (Found members) names found ↔
      (∀ name ∈ names, Json.repeats name members = false) ∧ found = names.map fun name => valueAt name members := by
    induction names generalizing found with
    | nil => cases found <;> simp
    | cons name names ih =>
      cases found with
      | nil => simp
      | cons entry found => simp [found_iff, ih, and_assoc, and_left_comm]
  rw [hfound, Json.byName, Option.ite_none_left_eq_some, Option.some.injEq, eq_comm (a := found)]
  simp

theorem isSome_of_valued {n : Nat} {w : Written} (h : Valued n w) : (w.value? n).isSome := by
  induction h with
  | scalar => rw [Written.value?]; rfl
  | array _ ih => rw [Written.value?, Option.isSome_map, isSome_mapM_iff]; exact ih
  | object _ ih =>
    rw [namedObject, Written.value?, Option.isSome_map, isSome_mapM_iff]
    rintro _ hm
    obtain ⟨m, hmem, rfl⟩ := List.mem_map.1 hm
    obtain ⟨j, hj⟩ := Option.isSome_iff_exists.1 (ih m hmem)
    simp [hj]

theorem valued_of_isSome {n : Nat} {w : Written} (h : (w.value? n).isSome) : Valued n w := by
  have hscalar {n : Nat} {v : Option Json.Scalar} (h : ((Written.scalar v).value? n).isSome) :
      Valued n (.scalar v) := by
    rw [Written.value?, Option.isSome_map] at h
    obtain ⟨s, rfl⟩ := Option.isSome_iff_exists.1 h
    exact .scalar
  induction n generalizing w with
  | zero =>
    cases w with
    | scalar v => exact hscalar h
    | array | object => simp [Written.value?] at h
  | succ n ih =>
    cases w with
    | scalar v => exact hscalar h
    | array items =>
      rw [Written.value?, Option.isSome_map, isSome_mapM_iff] at h
      exact .array fun w hw => ih (h w hw)
    | object ms =>
      rw [Written.value?, Option.isSome_map, isSome_mapM_iff] at h
      have hmember (m : Option String × Written) (hm : m ∈ ms) : m.1.isSome ∧ (m.2.value? n).isSome := by
        have hv := h m hm
        cases hname : m.1 with
        | none => simp [hname] at hv
        | some name => cases hj : m.2.value? n <;> simp [hname, hj] at hv ⊢
      have hnames : (Written.object ms).members?.isSome := isSome_mapM_iff.2 fun m hm => by
        obtain ⟨name, hname⟩ := Option.isSome_iff_exists.1 (hmember m hm).1
        simp [hname]
      obtain ⟨members, hmembers⟩ := Option.isSome_iff_exists.1 hnames
      obtain rfl := Written.object.inj (members?_eq_some_iff.1 hmembers)
      exact .object fun m hm => ih (hmember _ (List.mem_map_of_mem hm)).2

theorem valued_iff {n : Nat} {w : Written} : Valued n w ↔ (w.value? n).isSome := ⟨isSome_of_valued, valued_of_isSome⟩

/-! ## Sections -/

/-- The value of a field that is there. -/
def entryValue? : Option Written → Option (Option Json)
  | none => some none
  | some field => (field.value? Json.maxOpen).map some

theorem entryValue?_some {w : Written} {j : Json} (h : w.value? Json.maxOpen = some j) :
    entryValue? (some w) = some (some j) := by rw [entryValue?, h, Option.map_some]

/-- The fields of a section before they are read. -/
def entries? (names : List String) : Written → Option (List (Option Written))
  | .array items => if items.length = names.length then Json.byPlace names items else none
  | w => w.members?.bind (Json.byName names)

theorem entries?_eq_some_iff {names : List String} {w : Written} {found : List (Option Written)} :
    entries? names w = some found ↔ Fields names w found := by
  constructor
  · intro h
    cases w with
    | scalar v => cases h
    | array items =>
      obtain ⟨hlen, hplace⟩ := Option.ite_none_right_eq_some.1 h
      obtain rfl : items.map some = found := by simpa [Json.byPlace, hlen] using hplace
      exact .byPlace hlen
    | object ms =>
      obtain ⟨members, hmembers, hname⟩ := Option.bind_eq_some_iff.1 h
      rw [members?_eq_some_iff.1 hmembers]
      exact .byName (byName_eq_some_iff.1 hname)
  · rintro (⟨hfound⟩ | ⟨hlen⟩)
    · exact Option.bind_eq_some_iff.2 ⟨_, members?_eq_some_iff.2 rfl, byName_eq_some_iff.2 hfound⟩
    · simp [entries?, hlen, Json.byPlace]

theorem sectionFields?_eq (names : List String) (w : Written) :
    Layer.sectionFields? names w = (entries? names w).bind fun found => found.mapM entryValue? := by
  have hread : (fun
      | none => some none
      | some field => (Written.value? Json.maxOpen field).map some) = entryValue? := by
    funext entry
    cases entry <;> rfl
  unfold Layer.sectionFields?
  cases w with
  | scalar v => rfl
  | array items =>
    by_cases hlen : items.length = names.length
    · simp only [entries?, hlen, if_true]
      rw [← hread]
      rfl
    · simp only [entries?, hlen, if_false]
      rfl
  | object ms =>
    rw [← hread]
    exact (Option.bind_assoc _ _ _).symm

/-- The values of the fields that a section has. -/
theorem sectionFields?_eq_some_iff {names : List String} {w : Written} {values : List (Option Json)} :
    Layer.sectionFields? names w = some values ↔
      ∃ found, Fields names w found ∧
        List.Forall₂ (fun entry value => entryValue? entry = some value) found values := by
  simp only [sectionFields?_eq, Option.bind_eq_some_iff, entries?_eq_some_iff, mapM_eq_some_iff]

theorem optional_some {α : Type} {read : Json → Option α} {j : Json} (hj : j ≠ .null) :
    Json.optional read (some j) = (read j).map some := by
  cases j with
  | null => exact absurd rfl hj
  | bool | number | string | array | object => rfl

theorem value?_eq_scalar_iff {n : Nat} {w : Written} {s : Json.Scalar} :
    w.value? n = some s.value ↔ w = .scalar (some s) := by
  cases w with
  | scalar v =>
    rw [Written.value?, Option.map_eq_some_iff, Written.scalar.injEq]
    constructor
    · rintro ⟨t, rfl, ht⟩
      cases s <;> cases t <;> simp_all [Json.Scalar.value]
    · rintro rfl
      exact ⟨s, rfl, rfl⟩
  | array | object => cases n <;> cases s <;> simp [Written.value?, Json.Scalar.value]

/-- A field is read as what it says, if its value is read as what is written. -/
theorem says_iff {α : Type} {Writes : α → Written → Prop} {read : Json → Option α} (hnull : read .null = none)
    (hread : ∀ w a, (w.value? Json.maxOpen).bind read = some a ↔ Writes a w) {entry : Option Written}
    {a? : Option α} :
    (∃ value, entryValue? entry = some value ∧ Json.optional read value = some a?) ↔ Says Writes entry a? := by
  constructor
  · rintro ⟨value, hvalue, ha⟩
    cases entry with
    | none =>
      cases hvalue
      cases ha
      exact .missing
    | some w =>
      obtain ⟨j, hj, rfl⟩ := Option.map_eq_some_iff.1 hvalue
      by_cases hn : j = .null
      · subst hn
        cases ha
        rw [value?_eq_scalar_iff (s := .null) |>.1 hj]
        exact .null
      · rw [optional_some hn] at ha
        obtain ⟨a, hr, rfl⟩ := Option.map_eq_some_iff.1 ha
        exact .given ((hread w a).1 (Option.bind_eq_some_iff.2 ⟨j, hj, hr⟩))
  · rintro (_ | _ | hw)
    · exact ⟨none, rfl, rfl⟩
    · exact ⟨some .null, entryValue?_some (value?_eq_scalar_iff (s := .null) |>.2 rfl), rfl⟩
    · obtain ⟨j, hj, hr⟩ := Option.bind_eq_some_iff.1 ((hread _ _).2 hw)
      have hn : j ≠ .null := by
        rintro rfl
        cases hnull.symm.trans hr
      exact ⟨some j, entryValue?_some hj, by rw [optional_some hn, hr, Option.map_some]⟩

theorem writesDepth_iff (w : Written) (depth : Nat) :
    (w.value? Json.maxOpen).bind (Json.natBelow? (2 ^ 64)) = some depth ↔ WritesDepth depth w := by
  have hread (j : Json) :
      j.natBelow? (2 ^ 64) = some depth ↔ depth < 2 ^ 64 ∧ j = (Json.Scalar.number (.integer depth)).value := by
    cases j with
    | number x =>
      cases x with
      | integer z =>
        simp only [Json.natBelow?, Json.intWithin?, Json.Scalar.value, Option.map_eq_some_iff,
          Option.ite_none_right_eq_some, Json.number.injEq, Json.Number.integer.injEq, Option.some.injEq]
        constructor
        · rintro ⟨_, ⟨hz, rfl⟩, rfl⟩
          omega
        · rintro ⟨hlt, rfl⟩
          exact ⟨_, ⟨by omega, rfl⟩, by omega⟩
      | real x => simp [Json.natBelow?, Json.intWithin?, Json.Scalar.value]
    | null | bool | string | array | object => simp [Json.natBelow?, Json.intWithin?, Json.Scalar.value]
  simp only [Option.bind_eq_some_iff, hread, WritesDepth, ← value?_eq_scalar_iff (n := Json.maxOpen)]
  exact ⟨fun ⟨j, hj, hlt, he⟩ => ⟨hlt, he ▸ hj⟩, fun ⟨hlt, hj⟩ => ⟨_, hj, hlt, rfl⟩⟩

theorem writesPaths_iff (w : Written) (paths : List String) :
    (w.value? Json.maxOpen).bind Layer.strings? = some paths ↔ WritesPaths paths w := by
  have hread (j : Json) :
      Layer.strings? j = some paths ↔ j = .array (paths.map fun path => (Json.Scalar.string path).value) := by
    have hitem (i : Json) (path : String) : i.string? = some path ↔ i = (Json.Scalar.string path).value := by
      cases i <;> simp [Json.string?, Json.Scalar.value]
    cases j with
    | array items =>
      simp only [Layer.strings?, mapM_eq_some_iff, hitem, Json.array.injEq]
      rw [← List.forall₂_map_right_iff, List.forall₂_eq_eq_eq]
    | null | bool | number | string | object => simp [Layer.strings?]
  simp only [Option.bind_eq_some_iff, hread, exists_eq_right]
  cases w with
  | scalar v =>
    cases v with
    | none => simp [Written.value?, WritesPaths]
    | some s => cases s <;> simp [Written.value?, WritesPaths, Json.Scalar.value]
  | array items =>
    have hopen : (Written.array items).value? Json.maxOpen =
        (items.mapM (Written.value? (Json.maxOpen - 1))).map .array := rfl
    simp only [hopen, Option.map_eq_some_iff, Json.array.injEq, exists_eq_right, WritesPaths, Written.array.injEq,
      mapM_eq_some_iff, List.forall₂_map_right_iff, value?_eq_scalar_iff]
    rw [← List.forall₂_map_right_iff, List.forall₂_eq_eq_eq]
  | object ms => simp [Json.maxOpen, Written.value?, WritesPaths]

theorem writesFlag_iff (w : Written) (flag : Bool) :
    (w.value? Json.maxOpen).bind Json.bool? = some flag ↔ WritesFlag flag w := by
  have hread (j : Json) : j.bool? = some flag ↔ j = (Json.Scalar.bool flag).value := by
    cases j <;> simp [Json.bool?, Json.Scalar.value]
  simp only [Option.bind_eq_some_iff, hread, exists_eq_right, value?_eq_scalar_iff, WritesFlag]

theorem argumentsSection?_eq_some_iff (w : Written) (l : Layer) :
    Layer.argumentsSection? w = some l ↔
      ∃ found, Fields ["max_depth", "descriptor_sets"] w found ∧ ArgumentsSay found l := by
  constructor
  · intro h
    unfold Layer.argumentsSection? at h
    split at h
    · rename_i depth sets hfields
      obtain ⟨_, hfound, _ | ⟨hdepth, _ | ⟨hsets, ⟨⟩⟩⟩⟩ := sectionFields?_eq_some_iff.1 hfields
      obtain ⟨depth?, hd, h⟩ := Option.bind_eq_some_iff.1 h
      obtain ⟨sets?, hs, h⟩ := Option.bind_eq_some_iff.1 h
      cases h
      exact ⟨_, hfound, .mk ((says_iff rfl writesDepth_iff).1 ⟨depth, hdepth, hd⟩)
        ((says_iff rfl writesPaths_iff).1 ⟨sets, hsets, hs⟩)⟩
    · cases h
  · rintro ⟨_, hfound, ⟨hdepth, hsets⟩⟩
    obtain ⟨depth, hdepth, hd⟩ := (says_iff rfl writesDepth_iff).2 hdepth
    obtain ⟨sets, hsets, hs⟩ := (says_iff rfl writesPaths_iff).2 hsets
    have hfields : Layer.sectionFields? ["max_depth", "descriptor_sets"] w = some [depth, sets] :=
      sectionFields?_eq_some_iff.2 ⟨_, hfound, .cons hdepth (.cons hsets .nil)⟩
    simp only [Layer.argumentsSection?, hfields, hd, hs, bind, Option.bind_some]
    rfl

theorem outputSection?_eq_some_iff (w : Written) (l : Layer) :
    Layer.outputSection? w = some l ↔ ∃ found, Fields ["pretty"] w found ∧ OutputSays found l := by
  constructor
  · intro h
    unfold Layer.outputSection? at h
    split at h
    · rename_i pretty hfields
      obtain ⟨_, hfound, _ | ⟨hpretty, ⟨⟩⟩⟩ := sectionFields?_eq_some_iff.1 hfields
      obtain ⟨pretty?, hp, h⟩ := Option.bind_eq_some_iff.1 h
      cases h
      exact ⟨_, hfound, .mk ((says_iff rfl writesFlag_iff).1 ⟨pretty, hpretty, hp⟩)⟩
    · cases h
  · rintro ⟨_, hfound, ⟨hpretty⟩⟩
    obtain ⟨pretty, hpretty, hp⟩ := (says_iff rfl writesFlag_iff).2 hpretty
    have hfields : Layer.sectionFields? ["pretty"] w = some [pretty] :=
      sectionFields?_eq_some_iff.2 ⟨_, hfound, .cons hpretty .nil⟩
    simp [Layer.outputSection?, hfields, hp]

theorem optionalSection?_eq_some_iff {names : List String} {FieldsSay : List (Option Written) → Layer → Prop}
    {read : Written → Option Layer}
    (hread : ∀ w l, read w = some l ↔ ∃ found, Fields names w found ∧ FieldsSay found l) {entry : Option Written}
    {l : Layer} :
    Layer.optionalSection? read entry = some l ↔ SectionSays names FieldsSay entry l := by
  constructor
  · intro h
    cases entry with
    | none =>
      cases h
      exact .missing
    | some w =>
      rw [Layer.optionalSection?] at h
      split at h
      · rename_i hnull
        cases h
        obtain rfl : w = .scalar (some .null) := by
          unfold Written.isNull at hnull
          split at hnull
          · rfl
          · cases hnull
        exact .null
      · obtain ⟨found, hfound, hsay⟩ := (hread w l).1 h
        exact .fields hfound hsay
  · rintro (_ | _ | ⟨hfound, hsay⟩)
    · rfl
    · rfl
    · rw [Layer.optionalSection?, if_neg (by rcases hfound <;> simp [Written.isNull, namedObject])]
      exact (hread _ l).2 ⟨_, hfound, hsay⟩

/-- The sections leave each other's settings open. -/
theorem above_eq {arguments output : Option Written} {names outputNames : List String} {a o : Layer}
    (ha : SectionSays names ArgumentsSay arguments a) (ho : SectionSays outputNames OutputSays output o) :
    a.above o = ⟨a.maxDepth?, a.descriptorSets?, o.pretty?⟩ := by
  have hpretty : a.pretty? = none := by
    obtain _ | _ | ⟨-, ⟨-, -⟩⟩ := ha <;> rfl
  have hothers : o.maxDepth? = none ∧ o.descriptorSets? = none := by
    obtain _ | _ | ⟨-, ⟨-⟩⟩ := ho <;> exact ⟨rfl, rfl⟩
  simp [Layer.above, hpretty, hothers]

/-- A document is read as what it says. -/
theorem ofWritten?_eq_some_iff {w : Written} {l : Layer} : Layer.ofWritten? w = some l ↔ DocumentSays w l := by
  have hvalued (members : List (String × Written)) :
      (members.all fun m => Layer.sectionNames.contains m.1 || (m.2.value? (Json.maxOpen - 1)).isSome) = true ↔
        ∀ m ∈ members, m.1 ≠ "args" → m.1 ≠ "output" → Valued (Json.maxOpen - 1) m.2 := by
    rw [List.all_eq_true]
    refine forall₂_congr fun m _ => ?_
    simp only [Layer.sectionNames, valued_iff]
    simp [Classical.or_iff_not_imp_left]
  constructor
  · intro h
    obtain ⟨members, hmembers, h⟩ := Option.bind_eq_some_iff.1 h
    obtain ⟨hall, h⟩ := Option.ite_none_right_eq_some.1 h
    obtain ⟨found, hfound, h⟩ := Option.bind_eq_some_iff.1 h
    obtain _ | ⟨hargs, _ | ⟨hout, ⟨⟩⟩⟩ := byName_eq_some_iff.1 hfound
    obtain ⟨a, ha, h⟩ := Option.bind_eq_some_iff.1 h
    obtain ⟨o, ho, h⟩ := Option.bind_eq_some_iff.1 h
    cases h
    have hargsSay := (optionalSection?_eq_some_iff argumentsSection?_eq_some_iff).1 ha
    have houtSays := (optionalSection?_eq_some_iff outputSection?_eq_some_iff).1 ho
    rw [members?_eq_some_iff.1 hmembers, above_eq hargsSay houtSays]
    exact .mk ((hvalued members).1 hall) hargs hout hargsSay houtSays
  · rintro ⟨hothers, hargs, hout, hargsSay, houtSays⟩
    rename_i members arguments output a o
    have hmembers : (namedObject members).members? = some members := members?_eq_some_iff.2 rfl
    have hfound : Json.byName Layer.sectionNames members = some [arguments, output] :=
      byName_eq_some_iff.2 (.cons hargs (.cons hout .nil))
    have ha := (optionalSection?_eq_some_iff argumentsSection?_eq_some_iff).2 hargsSay
    have ho := (optionalSection?_eq_some_iff outputSection?_eq_some_iff).2 houtSays
    have hall := (hvalued members).2 hothers
    rw [← above_eq hargsSay houtSays]
    simp only [Layer.ofWritten?, hmembers, hfound, hall, ha, ho, bind, pure, Option.bind_some, if_true]

/-- An empty list is a setting, `null` and a section without the field are none. -/
example :
    Layer.ofWritten? (namedObject [("args", namedObject [("max_depth", .scalar (some .null)),
      ("descriptor_sets", .array [])]), ("output", .array [.scalar (some .null)])]) = some ⟨none, some [], none⟩ := by
  decide

end TraceTables.Settings
