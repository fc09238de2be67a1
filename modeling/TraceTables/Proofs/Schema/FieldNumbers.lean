import TraceTables.Proofs.Schema.Resolving
import TraceTables.Proofs.Wire.Writer

/-! Which field numbers a load admits, and which of them messages can have. A load stops at the first definition that
cannot be filed, and of the numbers it refuses those that are not positive. A key leaves room for numbers below
`2 ^ 29` only, so what a set defines above that is admitted and never met. -/

namespace TraceTables.Wire

theorem KeyForm.number_lt {n : Nat} {w : WireType} {bytes : List UInt8} (h : KeyForm n w bytes) :
    n ≠ 0 ∧ n < 2 ^ 29 := by
  obtain ⟨key, -, hlt, hkey, hn⟩ := h
  unfold joinKey at hkey
  exact ⟨hn, by omega⟩

theorem number_of_readField {f : Field} {bytes rest : List UInt8} (h : readField bytes = .ok (f, rest)) :
    f.number ≠ 0 ∧ f.number < 2 ^ 29 := by
  rcases readField_eq_ok_iff.1 h with ⟨p, hp, -⟩ | ⟨n, _, _, _, _, hstart, -, -, rfl, -⟩
  · cases hp with
    | varint hk _ | fixed64 hk _ | fixed32 hk _ | bytes hk _ _ => exact hk.number_lt
  · exact hstart.number_lt

/-- The numbers that fields of messages have. -/
theorem exists_field_iff {n : Nat} :
    (∃ bytes, ∃ f ∈ (fields bytes).values, f.number = n) ↔ n ≠ 0 ∧ n < 2 ^ 29 := by
  constructor
  · rintro ⟨bytes, f, hf, rfl⟩
    obtain ⟨front, rest, hr⟩ := fieldReader.exists_read_of_mem hf
    exact number_of_readField hr
  · rintro ⟨h0, hn⟩
    let f : Field := ⟨n, .varint 0⟩
    have hw : f.Writable := ⟨h0, hn, by rintro _ ⟨⟩, by rintro _ ⟨⟩⟩
    have hread : fields ([f].flatMap Field.write) = ⟨[f], none⟩ := fields_write (by simpa using hw)
    exact ⟨_, f, by rw [hread]; exact List.mem_singleton_self f, rfl⟩

end TraceTables.Wire

namespace TraceTables.Schema

/-! ## The first fault -/

section First

variable {α β γ : Type}

def faultOf : Except Fault β → Option Fault
  | .error e => some e
  | .ok _ => none

theorem faultOf_eq_some_iff {r : Except Fault β} {e : Fault} : faultOf r = some e ↔ r = .error e := by
  cases r <;> simp [faultOf]

theorem faultOf_map (g : β → γ) (r : Except Fault β) : faultOf (r.map g) = faultOf r := by
  cases r <;> rfl

theorem snd_upTo (f : α → Except Fault β) (as : List α) : (upTo f as).2 = as.findSome? fun a => faultOf (f a) := by
  induction as with
  | nil => rfl
  | cons a as ih =>
    rw [upTo, List.findSome?_cons]
    cases f a with
    | error e => rfl
    | ok b => exact ih

theorem faultOf_mapM (f : α → Except Fault β) (as : List α) :
    faultOf (as.mapM f) = as.findSome? fun a => faultOf (f a) := by
  induction as with
  | nil => rfl
  | cons a as ih =>
    rw [List.mapM_cons, List.findSome?_cons, ← ih]
    cases f a with
    | error e => rfl
    | ok b => cases as.mapM f <;> rfl

end First

/-- Why a field of this scope cannot be declared. Its number is looked at before its type. -/
inductive FieldEntry.Refused (known : String → Prop) (scope : String) (f : FieldEntry) : Fault → Prop where
  | number (h : f.number ≤ 0) : Refused known scope f (.invalidFieldNumber (scope ++ "." ++ f.name) f.number)
  | type (hn : 0 < f.number) (ht : f.type.isMessageLike = true) (h : ∀ full, ¬ Means known scope f.typeName full) :
      Refused known scope f (.unresolvedType (scope ++ "." ++ f.name) f.typeName)

/-- Why a definition stops the load. What an extension names is looked up before its field is looked at, and searched
for in the schema afterwards: a full name may stand for a message type that is not there. -/
inductive Definition.Stops (known : String → Prop) (d : Definition) : Fault → Prop where
  | extendee (hx : d.isExtension = true) (h : ∀ full, ¬ Means known d.scope d.entry.extendee full) :
      Stops known d (.unknownExtendee d.entry.name d.entry.extendee)
  | field {e : Fault} (hx : d.isExtension = true → ∃ full, Means known d.scope d.entry.extendee full)
      (h : d.entry.Refused known d.scope e) : Stops known d e
  | missing {full : String} (hx : d.isExtension = true) (hm : Means known d.scope d.entry.extendee full)
      (h : ∀ e, ¬ d.entry.Refused known d.scope e) (hk : ¬ known full) :
      Stops known d (.unknownExtendee d.entry.name full)

theorem resolve_eq_none_iff {known : String → Bool} {scope name : String} :
    resolve known scope name = none ↔ ∀ full, ¬ Means (known · = true) scope name full := by
  simp only [Option.eq_none_iff_forall_ne_some, ne_eq, resolve_eq_some_iff]

theorem FieldEntry.declare_eq_error_iff {known : String → Bool} {scope : String} {f : FieldEntry} {e : Fault} :
    f.declare known scope = .error e ↔ f.Refused (known · = true) scope e := by
  unfold declare
  constructor
  · intro h
    split at h
    · rename_i hn
      cases h
      exact .number hn
    · rename_i hn
      split at h
      · rename_i ht
        split at h
        · rename_i hr
          cases h
          exact .type (Int.not_le.1 hn) ht (resolve_eq_none_iff.1 hr)
        · cases h
      · cases h
  · intro h
    cases h with
    | number hn => rw [if_pos hn]
    | type hn ht h => rw [if_neg (Int.not_le.2 hn), if_pos ht, resolve_eq_none_iff.2 h]

namespace Definition

/-- The fault at which the load stops if it comes to the definition. -/
def fault? (known : String → Bool) (d : Definition) : Option Fault :=
  if d.isExtension then faultOf (Scoped.filing known ⟨d.scope, d.entry⟩) else faultOf (d.entry.declare known d.scope)

/-- A load fails with the first fault of a definition. -/
theorem snd_load_eq_findSome? (s : Schema) (files : List FileEntry) :
    (s.load files).2 = (definitions files).findSome? (fault? (s.knownWith files)) := by
  have hlayouts (ls : List Layout) : (ls.findSome? fun l => faultOf (l.declared (s.knownWith files))) =
      (ls.flatMap Layout.definitions).findSome? (fault? (s.knownWith files)) := by
    induction ls with
    | nil => rfl
    | cons l ls ih =>
      have hl : faultOf (l.declared (s.knownWith files)) = l.definitions.findSome? (fault? (s.knownWith files)) := by
        rw [Layout.declared, faultOf_map, faultOf_mapM, Layout.definitions, List.findSome?_map]
        rfl
      rw [List.findSome?_cons, List.flatMap_cons, List.findSome?_append, ← ih, ← hl]
      cases faultOf (l.declared (s.knownWith files)) <;> rfl
  rw [snd_load, declaredBy, filedBy, snd_upTo, snd_upTo, hlayouts, definitions, List.findSome?_append,
    List.findSome?_map]
  rfl

variable {files : List FileEntry} {known : String → Bool} {d : Definition}

theorem fault?_eq_some_iff (hd : d ∈ definitions files) {e : Fault} :
    d.fault? known = some e ↔ d.Stops (known · = true) e := by
  unfold fault?
  by_cases hx : d.isExtension = true
  · rw [if_pos hx, faultOf_eq_some_iff, Scoped.filing]
    constructor
    · intro h
      split at h
      · rename_i hr
        cases h
        exact .extendee hx (resolve_eq_none_iff.1 hr)
      · rename_i full hr
        have hm := resolve_eq_some_iff.1 hr
        split at h
        · rename_i hf
          cases h
          exact .field (fun _ => ⟨full, hm⟩) (FieldEntry.declare_eq_error_iff.1 hf)
        · rename_i f hf
          obtain ⟨-, typeName?, rfl, -⟩ := FieldEntry.exists_of_declare hf
          rw [qualify_resolve (isScope_of_mem_definitions hd) hr] at h
          split at h
          · cases h
          · rename_i hk
            cases h
            refine .missing hx hm (fun e' he' => ?_) hk
            rw [FieldEntry.declare_eq_error_iff.2 he'] at hf
            cases hf
    · intro h
      cases h with
      | extendee _ h => rw [resolve_eq_none_iff.2 h]
      | field hm h =>
        obtain ⟨full, hm⟩ := hm hx
        rw [resolve_eq_some_iff.2 hm]
        simp only
        rw [FieldEntry.declare_eq_error_iff.2 h]
      | missing _ hm h hk =>
        have hr := resolve_eq_some_iff.2 hm
        rw [hr]
        cases hf : d.entry.declare known d.scope with
        | error e' => exact absurd (FieldEntry.declare_eq_error_iff.1 hf) (h e')
        | ok f =>
          obtain ⟨-, typeName?, rfl, -⟩ := FieldEntry.exists_of_declare hf
          simp only
          rw [qualify_resolve (isScope_of_mem_definitions hd) hr, if_neg hk]
  · rw [if_neg hx, faultOf_eq_some_iff, FieldEntry.declare_eq_error_iff]
    constructor
    · exact .field fun hx' => absurd hx' hx
    · intro h
      cases h with
      | extendee hx' _ | missing hx' _ _ _ => exact absurd hx' hx
      | field _ h => exact h

/-- A definition does not stop the load if its number is positive and its names mean something that is there. -/
theorem not_stops_iff {known : String → Prop} :
    (∀ e, ¬ d.Stops known e) ↔
      0 < d.entry.number ∧ (∀ name ∈ d.lookups, ∃ full, Means known d.scope name full) ∧
        (d.isExtension = true → ∀ full, Means known d.scope d.entry.extendee full → known full) := by
  have hlookups : (∀ name ∈ d.lookups, ∃ full, Means known d.scope name full) ↔
      (d.isExtension = true → ∃ full, Means known d.scope d.entry.extendee full) ∧
        (d.entry.type.isMessageLike = true → ∃ full, Means known d.scope d.entry.typeName full) := by
    unfold lookups
    by_cases hx : d.isExtension = true <;> by_cases ht : d.entry.type.isMessageLike = true <;> simp [hx, ht]
  rw [hlookups]
  constructor
  · intro h
    have hextendee : d.isExtension = true → ∃ full, Means known d.scope d.entry.extendee full := by
      intro hx
      by_contra hno
      exact h _ (.extendee hx (not_exists.1 hno))
    have hfield : ∀ e, ¬ d.entry.Refused known d.scope e := fun e he => h e (.field hextendee he)
    have hn : 0 < d.entry.number := Int.not_le.1 fun hn => hfield _ (.number hn)
    refine ⟨hn, ⟨hextendee, fun ht => ?_⟩, fun hx full hm => ?_⟩
    · by_contra hno
      exact hfield _ (.type hn ht (not_exists.1 hno))
    · by_contra hk
      exact h _ (.missing hx hm hfield hk)
  · rintro ⟨hn, ⟨hextendee, htype⟩, hthere⟩ e h
    have hfield : ∀ e, ¬ d.entry.Refused known d.scope e := by
      intro e he
      cases he with
      | number hn' => exact absurd hn (Int.not_lt.2 hn')
      | type _ ht hno =>
        obtain ⟨full, hm⟩ := htype ht
        exact hno full hm
    cases h with
    | extendee hx hno =>
      obtain ⟨full, hm⟩ := hextendee hx
      exact hno full hm
    | field _ he => exact hfield e he
    | missing hx hm _ hk => exact hk (hthere hx _ hm)

end Definition

section Load

variable {s : Schema} {files : List FileEntry}

theorem load_succeeds_iff :
    (s.load files).2 = none ↔ ∀ d ∈ definitions files, ∀ e, ¬ d.Stops (IsKnown s files) e := by
  rw [Definition.snd_load_eq_findSome?, List.findSome?_eq_none_iff, isKnown_eq]
  refine forall₂_congr fun d hd => ?_
  rw [Option.eq_none_iff_forall_ne_some]
  exact forall_congr' fun e => not_congr (Definition.fault?_eq_some_iff hd)

theorem exists_stops {e : Fault} (h : (s.load files).2 = some e) :
    ∃ d ∈ definitions files, d.Stops (IsKnown s files) e := by
  rw [Definition.snd_load_eq_findSome?] at h
  obtain ⟨d, hd, he⟩ := List.exists_of_findSome?_eq_some h
  rw [isKnown_eq]
  exact ⟨d, hd, (Definition.fault?_eq_some_iff hd).1 he⟩

/-- At a definition that stops it the load has stopped, there or before. -/
theorem load_stopped {before after : List Definition} {d : Definition} {e : Fault}
    (hsplit : definitions files = before ++ d :: after) (hd : d.Stops (IsKnown s files) e) :
    ∃ e', (s.load files).2 = some e' ∧ (e' = e ∨ ∃ d' ∈ before, d'.Stops (IsKnown s files) e') := by
  have hmem : ∀ d' ∈ before ++ [d], d' ∈ definitions files := by
    intro d' hd'
    rw [hsplit, List.append_cons]
    exact List.mem_append_left after hd'
  rw [isKnown_eq] at hd ⊢
  have hfault := (Definition.fault?_eq_some_iff (hmem d (by simp))).2 hd
  rw [Definition.snd_load_eq_findSome?, hsplit, List.findSome?_append, List.findSome?_cons, hfault]
  cases hbefore : before.findSome? (Definition.fault? (s.knownWith files)) with
  | none => exact ⟨e, rfl, Or.inl rfl⟩
  | some e' =>
    obtain ⟨d', hd', he'⟩ := List.exists_of_findSome?_eq_some hbefore
    have hstop := (Definition.fault?_eq_some_iff (hmem d' (List.mem_append_left [d] hd'))).1 he'
    exact ⟨e', rfl, Or.inr ⟨d', hd', hstop⟩⟩

end Load

/-! ## Numbers -/

/-- Some message has a field of this number. -/
def OnWire (number : Int) : Prop := ∃ bytes, ∃ f ∈ (Wire.fields bytes).values, (f.number : Int) = number

theorem onWire_iff {number : Int} : OnWire number ↔ 0 < number ∧ number < 2 ^ 29 := by
  unfold OnWire
  constructor
  · rintro ⟨bytes, f, hf, rfl⟩
    have h := Wire.exists_field_iff.1 ⟨bytes, f, hf, rfl⟩
    omega
  · rintro ⟨hpos, hlt⟩
    have hrange : number.toNat ≠ 0 ∧ number.toNat < 2 ^ 29 := ⟨by omega, by omega⟩
    obtain ⟨bytes, f, hf, hn⟩ := Wire.exists_field_iff.2 hrange
    exact ⟨bytes, f, hf, by omega⟩

/-- A load succeeds exactly if all fields and extensions of the set have positive numbers, their names mean something,
and what is extended is there. There is no bound above, and of the numbers that are admitted those below `2 ^ 29`, and
no others, can come in a message. A set with a number that is not positive fails with it, unless a definition before it
fails or the name of what it extends means nothing; and no other number is reported as invalid. -/
theorem load_admits_positive (s : Schema) (files : List FileEntry) :
    let known := IsKnown s files
    ((s.load files).2 = none ↔
        ∀ d ∈ definitions files, 0 < d.entry.number ∧
          (∀ name ∈ d.lookups, ∃ full, Means known d.scope name full) ∧
          (d.isExtension = true → ∀ full, Means known d.scope d.entry.extendee full → known full)) ∧
      ((s.load files).2 = none → ∀ d ∈ definitions files, OnWire d.entry.number ↔ d.entry.number < 2 ^ 29) ∧
      (∀ before d after, definitions files = before ++ d :: after → d.entry.number ≤ 0 →
        ∃ e, (s.load files).2 = some e ∧
          (e = .invalidFieldNumber (d.scope ++ "." ++ d.entry.name) d.entry.number ∨
            (d.isExtension = true ∧ e = .unknownExtendee d.entry.name d.entry.extendee) ∨
            ∃ d' ∈ before, d'.Stops known e)) ∧
      ∀ field number, (s.load files).2 = some (.invalidFieldNumber field number) →
        number ≤ 0 ∧ ∃ d ∈ definitions files, d.entry.number = number ∧ field = d.scope ++ "." ++ d.entry.name := by
  intro known
  have hadmits : (s.load files).2 = none ↔ ∀ d ∈ definitions files, 0 < d.entry.number ∧
      (∀ name ∈ d.lookups, ∃ full, Means known d.scope name full) ∧
      (d.isExtension = true → ∀ full, Means known d.scope d.entry.extendee full → known full) :=
    load_succeeds_iff.trans (forall₂_congr fun _ _ => Definition.not_stops_iff)
  refine ⟨hadmits, fun hok d hd => ?_, fun before d after hsplit hn => ?_, fun field number h => ?_⟩
  · rw [onWire_iff]
    exact and_iff_right (hadmits.1 hok d hd).1
  · by_cases hm : d.isExtension = true → ∃ full, Means known d.scope d.entry.extendee full
    · obtain ⟨e, he, h⟩ := load_stopped hsplit (.field hm (.number hn))
      exact ⟨e, he, h.imp_right Or.inr⟩
    · rw [Classical.not_imp, not_exists] at hm
      obtain ⟨e, he, h⟩ := load_stopped hsplit (.extendee hm.1 hm.2)
      exact ⟨e, he, Or.inr (h.imp_left fun h => ⟨hm.1, h⟩)⟩
  · obtain ⟨d, hd, hstop⟩ := exists_stops h
    cases hstop with
    | field _ hrefused =>
      cases hrefused with
      | number hn => exact ⟨hn, d, hd, rfl, rfl⟩

/-- A set with one message type `M`, which has a field `x` of number `2 ^ 29`. -/
def wideSet : List UInt8 :=
  [0x0a, 0x14, 0x22, 0x12, 0x0a, 0x01, 0x4d, 0x12, 0x0d, 0x0a, 0x01, 0x78, 0x18, 0x80, 0x80, 0x80, 0x80, 0x02, 0x20,
    0x01, 0x28, 0x05]

/-- The set is loaded and its field is found, but no message has a field of that number. -/
theorem load_admits_wide :
    (Schema.empty.loadBytes wideSet).2 = none ∧
      (Schema.empty.loadBytes wideSet).1.field? ".M" (2 ^ 29) =
        some ⟨"x", 2 ^ 29, .int32, none, false, false⟩ ∧
      ¬ OnWire (2 ^ 29) := by
  refine ⟨?_, ?_, ?_⟩
  · decide +kernel
  · decide +kernel
  · rw [onWire_iff]
    omega

end TraceTables.Schema
