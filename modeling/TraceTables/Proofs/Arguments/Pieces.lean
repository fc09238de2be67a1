import TraceTables.Arguments.Occurrence

/-! The values in a message, field by field, and their places. The walk keeps one count for each repeated field; the
place of a value is how many values of its field stand before it. -/

namespace TraceTables.Arguments

open Schema (FieldDecl MessageDecl)

/-- A value of a declared field, or the fault at which a packed payload breaks off. -/
inductive Piece where
  | value (decl : FieldDecl) (field : Wire.Field)
  | torn (decl : FieldDecl) (source : Wire.Fault)

/-- Is the field let through? The list of allowed numbers does not speak of extensions. -/
def lets (allowed : Option (List Nat)) (decl : FieldDecl) : Bool :=
  match allowed with
  | none => true
  | some numbers => decl.extension || numbers.contains decl.number

/-- What one field on the wire carries. A packed payload is taken apart. -/
def pieces (m : MessageDecl) (allowed : Option (List Nat)) (f : Wire.Field) : List Piece :=
  match m.field? f.number with
  | none => []
  | some decl =>
    if lets allowed decl then
      match decl.repeated, decl.packing?, f.value with
      | true, some packing, .bytes payload =>
        let r := packing.values payload
        r.values.map (fun v => .value decl ⟨f.number, v⟩) ++ (r.fault?.map (.torn decl)).toList
      | _, _, _ => [.value decl f]
    else []

/-- The place of a value behind those of the given numbers, if its field is repeated. -/
def place (earlier : List Nat) (decl : FieldDecl) : Option Nat :=
  if decl.repeated then some (earlier.count decl.number) else none

def placed : List Nat → List Piece → List Occurrence
  | _, [] => []
  | earlier, .value decl f :: ps => .value decl (place earlier decl) f :: placed (decl.number :: earlier) ps
  | earlier, .torn decl e :: ps => .broken decl e :: placed earlier ps

/-- The numbers of all values up to the end of the pieces. -/
def passed : List Nat → List Piece → List Nat
  | earlier, [] => earlier
  | earlier, .value decl _ :: ps => passed (decl.number :: earlier) ps
  | earlier, .torn _ _ :: ps => passed earlier ps

theorem placed_append (earlier : List Nat) (ps qs : List Piece) :
    placed earlier (ps ++ qs) = placed earlier ps ++ placed (passed earlier ps) qs := by
  induction ps generalizing earlier with
  | nil => rfl
  | cons p ps ih => cases p <;> simp [placed, passed, ih]

theorem passed_append (earlier : List Nat) (ps qs : List Piece) :
    passed earlier (ps ++ qs) = passed (passed earlier ps) qs := by
  induction ps generalizing earlier with
  | nil => rfl
  | cons p ps ih => cases p <;> simp [passed, ih]

/-- Is the piece a value of the field with that number? -/
def Piece.carries (number : Nat) : Piece → Bool
  | value decl _ => decl.number = number
  | torn _ _ => false

theorem count_passed (number : Nat) (ps : List Piece) (earlier : List Nat) :
    (passed earlier ps).count number = earlier.count number + ps.countP (Piece.carries number) := by
  induction ps generalizing earlier with
  | nil => rfl
  | cons p ps ih =>
    cases p with
    | value decl f =>
      rw [passed, ih, List.count_cons, List.countP_cons]
      simp only [Piece.carries, beq_iff_eq, decide_eq_true_eq]
      omega
    | torn decl e =>
      rw [passed, ih, List.countP_cons]
      simp [Piece.carries]

/-- The counts of the repeated fields are those of the numbers that have come. -/
def Counts.Track (m : MessageDecl) (counts : Counts) (earlier : List Nat) : Prop :=
  ∀ decl, m.field? decl.number = some decl → decl.repeated = true →
    (counts.get? decl.number).getD 0 = earlier.count decl.number

theorem Counts.track_empty (m : MessageDecl) : Counts.Track m Assoc.empty [] := by
  intro decl _ _
  simp

theorem Counts.Track.repeated {m : MessageDecl} {counts : Counts} {earlier : List Nat} (decl : FieldDecl)
    (h : Counts.Track m counts earlier) :
    Counts.Track m (counts.insert decl.number ((counts.get? decl.number).getD 0 + 1)) (decl.number :: earlier) := by
  intro d hd' hr'
  rw [Assoc.get?_insert, List.count_cons]
  by_cases hn : decl.number = d.number
  · simp [hn, ← h d hd' hr']
  · simp [hn, h d hd' hr']

/-- A field that is not repeated shares its number with none that is. -/
theorem Counts.Track.single {m : MessageDecl} {counts : Counts} {earlier : List Nat} {decl : FieldDecl}
    (hd : m.field? decl.number = some decl) (hr : decl.repeated = false) (h : Counts.Track m counts earlier) :
    Counts.Track m counts (decl.number :: earlier) := by
  intro d hd' hr'
  have hn : decl.number ≠ d.number := by
    intro he
    rw [he, hd'] at hd
    cases hd
    simp [hr] at hr'
  rw [List.count_cons, h d hd' hr']
  simp [hn]

/-! ## Numbering -/

/-- The index of the next value of a field, if it is repeated. -/
def Counts.index (counts : Counts) (decl : FieldDecl) : Option Nat :=
  if decl.repeated then some ((counts.get? decl.number).getD 0) else none

/-- The counts behind the next value of a field. -/
def Counts.next (counts : Counts) (decl : FieldDecl) : Counts :=
  if decl.repeated then counts.insert decl.number ((counts.get? decl.number).getD 0 + 1) else counts

theorem numbered_cons (decl : FieldDecl) (counts : Counts) (f : Wire.Field) (fs : List Wire.Field) :
    numbered decl counts (f :: fs) =
      (.value decl (counts.index decl) f :: (numbered decl (counts.next decl) fs).1,
        (numbered decl (counts.next decl) fs).2) := by
  unfold Counts.index Counts.next
  rw [numbered]
  split <;> rfl

section Track

variable {m : MessageDecl} {counts : Counts} {earlier : List Nat} {decl : FieldDecl}

theorem Counts.Track.index_eq (h : Counts.Track m counts earlier) (hd : m.field? decl.number = some decl) :
    counts.index decl = place earlier decl := by
  unfold Counts.index place
  split
  · rename_i hr
    rw [h decl hd hr]
  · rfl

theorem Counts.Track.next (h : Counts.Track m counts earlier) (hd : m.field? decl.number = some decl) :
    Counts.Track m (counts.next decl) (decl.number :: earlier) := by
  unfold Counts.next
  split
  · exact h.repeated decl
  · rename_i hr
    exact h.single hd (by simpa using hr)

theorem numbered_eq_placed (hd : m.field? decl.number = some decl) (fs : List Wire.Field)
    (h : Counts.Track m counts earlier) :
    (numbered decl counts fs).1 = placed earlier (fs.map (.value decl)) ∧
      Counts.Track m (numbered decl counts fs).2 (passed earlier (fs.map (.value decl))) := by
  induction fs generalizing counts earlier with
  | nil => exact ⟨rfl, h⟩
  | cons f fs ih =>
    obtain ⟨h1, h2⟩ := ih (h.next hd)
    simp only [numbered_cons, List.map_cons, placed, passed, h.index_eq hd, h1]
    exact ⟨trivial, h2⟩

end Track

/-! ## What a field carries -/

theorem admitted_eq (m : MessageDecl) (allowed : Option (List Nat)) (f : Wire.Field) :
    admitted m allowed f = (m.field? f.number).bind fun decl => if lets allowed decl then some decl else none := by
  unfold admitted
  cases hm : m.field? f.number with
  | none => rfl
  | some decl =>
    have hn : decl.number = f.number := m.filed hm
    cases allowed with
    | none => simp [lets]
    | some numbers => simp [lets, hn]

/-- What a field carries that is let through, by its values. -/
theorem pieces_of_found {m : MessageDecl} {allowed : Option (List Nat)} {f : Wire.Field} {decl : FieldDecl}
    (hd : m.field? f.number = some decl) (hl : lets allowed decl = true) :
    pieces m allowed f =
      (elements decl f).values.map (.value decl) ++ ((elements decl f).fault?.map (.torn decl)).toList := by
  cases hr : decl.repeated with
  | false => simp [pieces, elements, hd, hl, hr]
  | true =>
    cases hp : decl.packing? with
    | none => simp [pieces, elements, hd, hl, hr, hp]
    | some packing =>
      cases hv : f.value with
      | bytes payload => simp [pieces, elements, hd, hl, hr, hp, hv, Function.comp_def]
      | varint | fixed64 | fixed32 | group => simp [pieces, elements, hd, hl, hr, hp, hv]

/-- A field that is not packed is one value. -/
theorem pieces_of_single {m : MessageDecl} {f : Wire.Field} {decl : FieldDecl} (hd : m.field? f.number = some decl)
    (hs : decl.packing? = none ∨ ∀ payload, f.value ≠ .bytes payload) (allowed : Option (List Nat)) :
    pieces m allowed f = if lets allowed decl then [.value decl f] else [] := by
  simp only [pieces, hd]
  split
  · split
    · rename_i payload _ hp hv
      rcases hs with hs | hs
      · rw [hs] at hp
        cases hp
      · exact absurd hv (hs payload)
    · rfl
  · rfl

/-- A packed payload that can be split is its values. -/
theorem pieces_of_packed {m : MessageDecl} {f : Wire.Field} {decl : FieldDecl} (hd : m.field? f.number = some decl)
    (hr : decl.repeated = true) {packing : Wire.Packing} (hp : decl.packing? = some packing) {payload : List UInt8}
    (hf : f.value = .bytes payload) {vs : List Wire.Value} (hv : packing.values payload = ⟨vs, none⟩)
    (allowed : Option (List Nat)) :
    pieces m allowed f = if lets allowed decl then vs.map fun v => .value decl ⟨f.number, v⟩ else [] := by
  simp [pieces, hd, hr, hp, hf, hv]

theorem number_of_mem_pieces {m : MessageDecl} {allowed : Option (List Nat)} {f g : Wire.Field} {decl : FieldDecl}
    (h : .value decl g ∈ pieces m allowed f) : decl.number = f.number := by
  unfold pieces at h
  split at h
  · cases h
  · rename_i d hd
    have hn : d.number = f.number := m.filed hd
    split at h
    · split at h
      · rcases List.mem_append.1 h with h | h
        · obtain ⟨v, -, he⟩ := List.mem_map.1 h
          cases he
          exact hn
        · simp at h
      · cases List.mem_singleton.1 h
        exact hn
    · cases h

/-- Each field with the number of one that is not packed carries one of its values, and no other field does. -/
theorem countP_carries_pieces {m : MessageDecl} {decl : FieldDecl} (hd : m.field? decl.number = some decl)
    (hp : decl.packing? = none) {allowed : Option (List Nat)} (hl : lets allowed decl = true) (fs : List Wire.Field) :
    (fs.flatMap (pieces m allowed)).countP (Piece.carries decl.number) = fs.countP (·.number = decl.number) := by
  induction fs with
  | nil => rfl
  | cons f fs ih =>
    rw [List.flatMap_cons, List.countP_append, ih, List.countP_cons, Nat.add_comm]
    congr 1
    by_cases hn : f.number = decl.number
    · rw [pieces_of_single (hn ▸ hd) (Or.inl hp), if_pos hl]
      simp [Piece.carries, hn]
    · have hnone : ∀ p ∈ pieces m allowed f, ¬ Piece.carries decl.number p = true := by
        intro p hm
        cases p with
        | value d g =>
          have hnumber := number_of_mem_pieces hm
          simp only [Piece.carries, decide_eq_true_eq]
          omega
        | torn d e => simp [Piece.carries]
      rw [List.countP_eq_zero.2 hnone]
      simp [hn]

theorem pieces_eq (m : MessageDecl) (allowed : Option (List Nat)) (f : Wire.Field) :
    pieces m allowed f =
      match admitted m allowed f with
      | none => []
      | some decl =>
        (elements decl f).values.map (.value decl) ++ ((elements decl f).fault?.map (.torn decl)).toList := by
  rw [admitted_eq]
  cases hd : m.field? f.number with
  | none => simp [pieces, hd]
  | some decl =>
    cases hl : lets allowed decl with
    | false => simp [pieces, hd, hl]
    | true => simp [pieces_of_found hd hl, hl]

theorem field?_of_admitted {m : MessageDecl} {allowed : Option (List Nat)} {f : Wire.Field} {decl : FieldDecl}
    (h : admitted m allowed f = some decl) : m.field? decl.number = some decl := by
  rw [admitted_eq] at h
  obtain ⟨d, hm, hd⟩ := Option.bind_eq_some_iff.1 h
  split at hd
  · cases hd
    rwa [m.filed hm]
  · cases hd

/-- The occurrences of a message are its pieces at their places. -/
theorem occurrences_eq_placed (m : MessageDecl) (allowed : Option (List Nat)) (fs : List Wire.Field)
    {counts : Counts} {earlier : List Nat} (h : Counts.Track m counts earlier) :
    occurrences m allowed counts fs = placed earlier (fs.flatMap (pieces m allowed)) := by
  induction fs generalizing counts earlier with
  | nil => rfl
  | cons f fs ih =>
    rw [List.flatMap_cons, placed_append, pieces_eq, occurrences]
    cases ha : admitted m allowed f with
    | none => exact ih h
    | some decl =>
      obtain ⟨h1, h2⟩ := numbered_eq_placed (field?_of_admitted ha) (elements decl f).values h
      simp only [placed_append, passed_append, ← h1]
      rw [ih h2]
      cases (elements decl f).fault? <;> simp [placed, passed, brokenOff]

/-! ## Fields told apart by their numbers -/

def Piece.decl : Piece → FieldDecl
  | value decl _ => decl
  | torn decl _ => decl

def Occurrence.decl : Occurrence → FieldDecl
  | value decl _ _ => decl
  | broken decl _ => decl

@[simp] theorem Piece.decl_value (decl : FieldDecl) (f : Wire.Field) : (value decl f).decl = decl := rfl

@[simp] theorem Piece.decl_torn (decl : FieldDecl) (e : Wire.Fault) : (torn decl e).decl = decl := rfl

@[simp] theorem Occurrence.decl_value (decl : FieldDecl) (index : Option Nat) (f : Wire.Field) :
    (value decl index f).decl = decl := rfl

@[simp] theorem Occurrence.decl_broken (decl : FieldDecl) (e : Wire.Fault) : (broken decl e).decl = decl := rfl

/-- The pieces of a field are of the declaration that the message has for it. -/
theorem field?_of_mem_pieces {m : MessageDecl} {allowed : Option (List Nat)} {f : Wire.Field} {p : Piece}
    (h : p ∈ pieces m allowed f) : m.field? f.number = some p.decl := by
  rw [pieces_eq, admitted_eq] at h
  cases hd : m.field? f.number with
  | none => simp [hd] at h
  | some decl =>
    simp only [hd, Option.bind_some] at h
    split at h
    · cases h
    · rename_i decl' hl
      split at hl
      · cases hl
        simp only [List.mem_append, List.mem_map, Option.mem_toList, Option.map_eq_some_iff] at h
        rcases h with ⟨v, -, rfl⟩ | ⟨e, -, rfl⟩ <;> rfl
      · cases hl

theorem map_decl_placed (earlier : List Nat) (ps : List Piece) :
    (placed earlier ps).map Occurrence.decl = ps.map Piece.decl := by
  induction ps generalizing earlier with
  | nil => rfl
  | cons p ps ih => cases p <;> simp [placed, ih]

/-- The occurrences of a message are of the declarations that it has. -/
theorem field?_of_mem_placed {m : MessageDecl} {allowed : Option (List Nat)} {fs : List Wire.Field}
    {earlier : List Nat} {o : Occurrence} (h : o ∈ placed earlier (fs.flatMap (pieces m allowed))) :
    m.field? o.decl.number = some o.decl := by
  have hmem := List.mem_map_of_mem (f := Occurrence.decl) h
  rw [map_decl_placed] at hmem
  obtain ⟨p, hp, hpo⟩ := List.mem_map.1 hmem
  obtain ⟨g, -, hpg⟩ := List.mem_flatMap.1 hp
  have hdecl := field?_of_mem_pieces hpg
  rwa [hpo, ← m.filed hdecl] at hdecl

/-- The places of some fields' values do not depend on the values of other fields. -/
theorem placed_filter (keep : Nat → Bool) (ps : List Piece) {e e' : List Nat}
    (h : ∀ n, keep n = true → e.count n = e'.count n) :
    placed e (ps.filter fun p => keep p.decl.number) = (placed e' ps).filter fun o => keep o.decl.number := by
  induction ps generalizing e e' with
  | nil => rfl
  | cons p ps ih =>
    cases p with
    | value decl f =>
      by_cases hk : keep decl.number = true
      · have hplace : place e decl = place e' decl := by simp only [place, h decl.number hk]
        have hrest := @ih (decl.number :: e) (decl.number :: e') fun n hn => by
          simp only [List.count_cons, h n hn]
        simp [placed, hk, hplace, hrest]
      · have hrest := @ih e (decl.number :: e') fun n hn => by
          rw [h n hn, List.count_cons_of_ne]
          rintro rfl
          exact hk hn
        simp [placed, hk, hrest]
    | torn decl e => by_cases hk : keep decl.number = true <;> simp [placed, hk, ih h]

end TraceTables.Arguments
