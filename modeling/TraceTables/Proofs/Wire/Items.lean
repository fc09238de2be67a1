import TraceTables.Proofs.Wire.Streaming

/-! What a reader hands out step by step: values, and a fault where it cannot go on. Every step looks at the bytes it
takes and at no others, so the fields in the front of a message come out the same whatever follows, and a message
behind them is read as if it stood alone. A fault about missing bytes counts those that are there. -/

namespace TraceTables.Wire

/-- The values of a reading and the fault behind them. -/
def Reading.items {α : Type} (r : Reading α) : List (Except Fault α) :=
  r.values.map .ok ++ (r.fault?.map .error).toList

/-- The fields of a message and the fault behind them. -/
def items (bytes : List UInt8) : List (Except Fault Field) := (fields bytes).items

/-- How far a reader has come: the bytes in front of it, and whether a fault has stopped it. -/
structure Cursor where
  bytes : List UInt8
  failed : Bool

def Cursor.start (bytes : List UInt8) : Cursor := ⟨bytes, false⟩

namespace Reader

variable {α : Type}

/-- One step. There is none behind a fault or at the end of the bytes. -/
def next (r : Reader α) (c : Cursor) : Option (Except Fault α × Cursor) :=
  if c.failed || c.bytes.isEmpty then none
  else
    match r.read c.bytes with
    | .error e => some (.error e, ⟨c.bytes, true⟩)
    | .ok (a, rest) => some (.ok a, ⟨rest, false⟩)

/-- The items of all steps until there is none. -/
inductive Yields (r : Reader α) : Cursor → List (Except Fault α) → Prop where
  | done {c : Cursor} : r.next c = none → Yields r c []
  | step {c c' : Cursor} {i : Except Fault α} {is : List (Except Fault α)} :
      r.next c = some (i, c') → Yields r c' is → Yields r c (i :: is)

variable {r : Reader α} {bytes rest : List UInt8}

theorem items_of_ok {a : α} (h : r.read bytes = .ok (a, rest)) :
    (r.all bytes).items = .ok a :: (r.all rest).items := by
  rw [r.all_of_ok h]
  rfl

theorem items_of_error {e : Fault} (hne : bytes ≠ []) (h : r.read bytes = .error e) :
    (r.all bytes).items = [.error e] := by
  rw [r.all_of_error hne h]
  rfl

theorem Yields.eq {c : Cursor} {is : List (Except Fault α)} (h : r.Yields c is) :
    is = if c.failed then [] else (r.all c.bytes).items := by
  induction h with
  | @done c hn =>
    unfold next at hn
    split at hn
    · rename_i hend
      rw [Bool.or_eq_true, List.isEmpty_iff] at hend
      rcases hend with hf | hb
      · rw [if_pos hf]
      · rw [hb, r.all_nil]
        exact (ite_self []).symm
    · split at hn <;> cases hn
  | @step c c' i is hn _ ih =>
    unfold next at hn
    split at hn
    · cases hn
    · rename_i hgoes
      simp only [Bool.or_eq_true, not_or, Bool.not_eq_true] at hgoes
      have hne : c.bytes ≠ [] := by
        intro hb
        simp [hb] at hgoes
      rw [hgoes.1]
      split at hn <;> rename_i hr <;> cases hn
      · rw [ih]
        exact (items_of_error hne hr).symm
      · rw [ih]
        exact (items_of_ok hr).symm

theorem yields_all (r : Reader α) (bytes : List UInt8) : r.Yields (.start bytes) (r.all bytes).items := by
  induction bytes using r.all_induction with
  | nil =>
    rw [r.all_nil]
    exact .done rfl
  | @fault bytes e hb hr =>
    have hnext : r.next (.start bytes) = some (.error e, ⟨bytes, true⟩) := by simp [next, Cursor.start, hb, hr]
    rw [items_of_error hb hr]
    exact .step hnext (.done rfl)
  | @value bytes rest a hr ih =>
    have hb : bytes ≠ [] := by
      rintro rfl
      exact absurd (r.shorter hr) (Nat.not_lt_zero _)
    have hnext : r.next (.start bytes) = some (.ok a, .start rest) := by simp [next, Cursor.start, hb, hr]
    rw [items_of_ok hr]
    exact .step hnext ih

/-- Step by step a reader hands out its reading and nothing else. -/
theorem yields_iff {is : List (Except Fault α)} : r.Yields (.start bytes) is ↔ is = (r.all bytes).items := by
  refine ⟨fun h => h.eq, ?_⟩
  rintro rfl
  exact r.yields_all bytes

/-- There are no more items than bytes: a fault has bytes of its own. -/
theorem length_items_all (r : Reader α) (bytes : List UInt8) : (r.all bytes).items.length ≤ bytes.length := by
  induction bytes using r.all_induction with
  | nil => simp [Reading.items]
  | fault hb hr =>
    rw [items_of_error hb hr]
    exact List.length_pos_iff.2 hb
  | value hr ih =>
    have hshort := r.shorter hr
    rw [items_of_ok hr, List.length_cons]
    omega

end Reader

namespace Reading

variable {α : Type} {r : Reading α}

theorem fault?_eq_none_iff : r.fault? = none ↔ ∀ i ∈ r.items, ∃ a, i = .ok a := by
  constructor
  · intro h i hi
    simp only [items, h, Option.map_none, Option.toList_none, List.append_nil, List.mem_map] at hi
    obtain ⟨a, -, rfl⟩ := hi
    exact ⟨a, rfl⟩
  · intro h
    cases hf : r.fault? with
    | none => rfl
    | some e =>
      obtain ⟨a, ha⟩ := h (.error e) (by simp [items, hf])
      cases ha

theorem error_mem_items {e : Fault} : .error e ∈ r.items ↔ r.fault? = some e := by
  cases hf : r.fault? <;> simp [items, hf, eq_comm]

/-- Only the last item can be a fault. -/
theorem items_error {before after : List (Except Fault α)} {e : Fault} (h : r.items = before ++ .error e :: after) :
    after = [] ∧ before = r.values.map .ok := by
  have hf : r.fault? = some e := error_mem_items.1 (by simp [h])
  have hitems : r.items = r.values.map .ok ++ [.error e] := by simp [items, hf]
  rw [hitems] at h
  rcases List.eq_nil_or_concat after with rfl | ⟨after', i, rfl⟩
  · exact ⟨rfl, (List.append_inj' h rfl).1.symm⟩
  · -- then a value of the reading would be a fault
    have hsame : r.values.map .ok ++ [.error e] = (before ++ .error e :: after') ++ [i] := by simpa using h
    have hlast : r.values.map .ok = before ++ .error e :: after' := (List.append_inj' hsame rfl).1
    have hmem : (.error e : Except Fault α) ∈ r.values.map .ok := by simp [hlast]
    obtain ⟨a, -, ha⟩ := List.mem_map.1 hmem
    cases ha

end Reading

/-! ## Missing bytes -/

/-- If the fault says that bytes are missing, there are fewer than needed, and no more than the limit. -/
def Fault.Fits (limit : Nat) (e : Fault) : Prop :=
  ∀ needed remaining, e = .truncated needed remaining → remaining < needed ∧ remaining ≤ limit

theorem Fault.Fits.mono {limit limit' : Nat} {e : Fault} (h : e.Fits limit) (hl : limit ≤ limit') : e.Fits limit' := by
  intro needed remaining he
  obtain ⟨hn, hr⟩ := h needed remaining he
  exact ⟨hn, Nat.le_trans hr hl⟩

theorem map_eq_error {ε α β : Type} {f : α → β} {x : Except ε α} {e : ε} : x.map f = .error e ↔ x = .error e := by
  cases x <;> simp [Except.map]

section Faults

variable {bytes : List UInt8} {e : Fault}

theorem take_eq_error_iff {n : Nat} : take n bytes = .error e ↔ bytes.length < n ∧ e = .truncated n bytes.length := by
  unfold take
  by_cases h : bytes.length < n <;> simp [h, eq_comm]

theorem fits_take {n : Nat} (h : take n bytes = .error e) : e.Fits bytes.length := by
  obtain ⟨hlt, rfl⟩ := take_eq_error_iff.1 h
  rintro _ _ ⟨⟩
  exact ⟨hlt, Nat.le_refl _⟩

theorem fits_varint {limit : Nat} (h : Varint.read bytes = .error e) : e.Fits limit := by
  unfold Varint.read at h
  split at h
  · cases h
    rintro _ _ ⟨⟩
  · split at h
    · cases h
    · cases h
      rintro _ _ ⟨⟩

theorem fits_splitKey {key limit : Nat} (h : splitKey key = .error e) : e.Fits limit := by
  unfold splitKey at h
  split at h
  · cases h
    rintro _ _ ⟨⟩
  · split at h
    · cases h
      rintro _ _ ⟨⟩
    · split at h
      · cases h
        rintro _ _ ⟨⟩
      · cases h

theorem fits_readKey {limit : Nat} (h : readKey bytes = .error e) : e.Fits limit := by
  unfold readKey at h
  split at h
  · rename_i hr
    cases h
    exact fits_varint hr
  · exact fits_splitKey (map_eq_error.1 h)

theorem fits_readFixed {n : Nat} (h : readFixed n bytes = .error e) : e.Fits bytes.length :=
  fits_take (map_eq_error.1 h)

theorem fits_readBytes (h : readBytes bytes = .error e) : e.Fits bytes.length := by
  unfold readBytes at h
  split at h
  · rename_i hr
    cases h
    exact fits_varint hr
  · rename_i hr
    exact (fits_take h).mono (Nat.le_of_lt (Varint.length_read hr))

theorem fits_readToken {number : Nat} {w : WireType} (h : readToken number w bytes = .error e) :
    e.Fits bytes.length := by
  cases w with
  | varint => exact fits_varint (map_eq_error.1 h)
  | fixed64 | fixed32 => exact fits_readFixed (map_eq_error.1 h)
  | lengthDelimited => exact fits_readBytes (map_eq_error.1 h)
  | startGroup | endGroup => cases h

theorem Token.fits_read (h : Token.read bytes = .error e) : e.Fits bytes.length := by
  unfold Token.read at h
  split at h
  · rename_i hk
    cases h
    exact fits_readKey hk
  · rename_i hk
    exact (fits_readToken h).mono (Nat.le_of_lt (length_readKey hk))

theorem fits_findGroupEnd {outermost inner : Nat} {around : List Nat}
    (h : findGroupEnd outermost inner around bytes = .error e) : e.Fits bytes.length := by
  fun_induction findGroupEnd outermost inner around bytes with
  | case1 =>
    cases h
    rintro _ _ ⟨⟩
  | case2 inner around bytes _ e' hr =>
    cases h
    exact Token.fits_read hr
  | case3 inner around bytes _ f rest hr ih => exact (ih h).mono (Nat.le_of_lt (Token.length_read hr))
  | case4 inner around bytes _ n rest hr ih => exact (ih h).mono (Nat.le_of_lt (Token.length_read hr))
  | case5 =>
    cases h
    rintro _ _ ⟨⟩
  | case6 => cases h
  | case7 inner bytes _ n rest hr _ next around ih => exact (ih h).mono (Nat.le_of_lt (Token.length_read hr))

theorem fits_readField (h : readField bytes = .error e) : e.Fits bytes.length := by
  unfold readField at h
  split at h
  · rename_i hr
    cases h
    exact Token.fits_read hr
  · cases h
  · rename_i hr
    have hgroup := map_eq_error.1 (map_eq_error.1 h)
    exact (fits_findGroupEnd hgroup).mono (Nat.le_of_lt (Token.length_read hr))
  · cases h
    rintro _ _ ⟨⟩

/-- A reader whose single readings fault as they should does so as a whole. -/
theorem Reader.fits_all {α : Type} (r : Reader α)
    (hread : ∀ {bytes : List UInt8} {e : Fault}, r.read bytes = .error e → e.Fits bytes.length)
    (h : (r.all bytes).fault? = some e) : e.Fits bytes.length := by
  induction bytes using r.all_induction with
  | nil => simp at h
  | fault hb hr =>
    rw [r.all_of_error hb hr] at h
    cases h
    exact hread hr
  | value hr ih =>
    rw [r.all_of_ok hr] at h
    exact (ih h).mono (Nat.le_of_lt (r.shorter hr))

end Faults

/-! ## The front of a message -/

theorem items_append {front : List UInt8} (h : (fields front).fault? = none) (rest : List UInt8) :
    items (front ++ rest) = items front ++ items rest := by
  have hform : MessageForm (fields front).values front := form_of_fields_eq (by rw [← h])
  have hwhole := fields_append_of_form hform rest
  simp only [items, Reading.items, hwhole, h, List.map_append, List.append_assoc, Option.map_none, Option.toList_none,
    List.append_nil]

/-- A message is read by its items, one step after the other. If those of its front hold no fault, what follows is read
as if it stood alone; and if the front is cut in a field, the fields before that come first in the whole all the same. A
fault is the last item. There are no more items than bytes, and a fault about missing bytes counts fewer that remain
than it needs, and none that the message does not have. -/
theorem items_local (front rest : List UInt8) :
    (∀ is, fieldReader.Yields (.start front) is ↔ is = items front) ∧
      ((∀ i ∈ items front, ∃ f, i = .ok f) → items (front ++ rest) = items front ++ items rest) ∧
      (∀ (fs : List Field) e, items front = fs.map .ok ++ [.error e] → fs.map .ok <+: items (front ++ rest)) ∧
      (∀ before e after, items front = before ++ .error e :: after →
        after = [] ∧ ∀ i ∈ before, ∃ f, i = .ok f) ∧
      (items front).length ≤ front.length ∧
      ∀ needed remaining, .error (.truncated needed remaining) ∈ items front →
        remaining < needed ∧ remaining ≤ front.length := by
  refine ⟨fun is => Reader.yields_iff, ?_, ?_, ?_, fieldReader.length_items_all front, ?_⟩
  · intro h
    exact items_append (Reading.fault?_eq_none_iff.2 h) rest
  · intro fs e h
    obtain ⟨-, hfs⟩ := Reading.items_error h
    have hfields := fields_prefix front rest
    rw [hfs]
    exact (hfields.map _).trans (List.prefix_append _ _)
  · intro before e after h
    obtain ⟨hafter, rfl⟩ := Reading.items_error h
    refine ⟨hafter, fun i hi => ?_⟩
    obtain ⟨f, -, rfl⟩ := List.mem_map.1 hi
    exact ⟨f, rfl⟩
  · intro needed remaining h
    exact fieldReader.fits_all fits_readField (Reading.error_mem_items.1 h) needed remaining rfl

end TraceTables.Wire
