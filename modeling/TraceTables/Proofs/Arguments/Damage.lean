import TraceTables.Proofs.Arguments.Flattening
import TraceTables.Proofs.Arguments.Within

/-! Damage stays inside a message. What the bytes of one message are, be they a message at all, has no effect on what
the walk comes by outside of it, and what it comes by inside stands under the key of that message. -/

namespace TraceTables.Arguments

open Schema (FieldDecl MessageDecl)

/-- The lists are the same but for one place, where the one has `x` and the other `y`. -/
def Swapped {α : Type} (x y a b : List α) : Prop :=
  ∃ before after, a = before ++ (x ++ after) ∧ b = before ++ (y ++ after)

namespace Swapped

variable {α β : Type} {x y a b c d : List α}

theorem refl (x y : List α) : Swapped x y x y := ⟨[], [], by simp, by simp⟩

theorem trans (h : Swapped x y a b) (h' : Swapped a b c d) : Swapped x y c d := by
  obtain ⟨before, after, rfl, rfl⟩ := h
  obtain ⟨before', after', rfl, rfl⟩ := h'
  exact ⟨before' ++ before, after ++ after', by simp, by simp⟩

theorem eq (h : Swapped x y a b) (hxy : x = y) : a = b := by
  obtain ⟨before, after, rfl, rfl⟩ := h
  rw [hxy]

theorem cons (h : Swapped x y a b) (u : α) : Swapped x y (u :: a) (u :: b) :=
  h.trans ⟨[u], [], by simp, by simp⟩

theorem flatMap (h : Swapped x y a b) (g : α → List β) :
    Swapped (x.flatMap g) (y.flatMap g) (a.flatMap g) (b.flatMap g) := by
  obtain ⟨before, after, rfl, rfl⟩ := h
  exact ⟨before.flatMap g, after.flatMap g, by simp, by simp⟩

end Swapped

/-! ## The keys of visits -/

def Visit.key : Visit → Key
  | scalar _ key _ => key
  | unsupported _ key => key
  | entered _ key => key
  | shut key _ => key
  | torn _ key _ => key

theorem Visit.key_of_row {v : Visit} {r : Row} (h : .row r ∈ v.events) : r.key = v.key := by
  cases v with
  | scalar decl key value =>
    simp only [events] at h
    split at h <;> cases List.mem_singleton.1 h
    rfl
  | unsupported | shut | torn => cases List.mem_singleton.1 h
  | entered => cases h

/-- The visits are at the path or below it. -/
def Below (path : List Segment) (vs : List Visit) : Prop :=
  ∀ v ∈ vs, ∃ more, v.key = Key.ofPath (path ++ more)

theorem Below.singleton {path : List Segment} {v : Visit} (h : v.key = Key.ofPath path) : Below path [v] := by
  intro w hw
  rw [List.mem_singleton.1 hw]
  exact ⟨[], by rw [h, List.append_nil]⟩

theorem Below.of_concat {path : List Segment} {s : Segment} {vs : List Visit} (h : Below (path ++ [s]) vs) :
    Below path vs := by
  intro v hv
  obtain ⟨more, hk⟩ := h v hv
  exact ⟨s :: more, by rw [hk, List.append_assoc, List.singleton_append]⟩

theorem Below.rows {path : List Segment} {vs : List Visit} (h : Below path vs) :
    ∀ r ∈ rowsOf (vs.flatMap Visit.events), ∃ more, r.key = Key.ofPath (path ++ more) := by
  intro r hr
  obtain ⟨e, he, hrow⟩ := List.mem_filterMap.1 hr
  obtain ⟨v, hv, hev⟩ := List.mem_flatMap.1 he
  cases e with
  | row r' =>
    cases hrow
    obtain ⟨more, hk⟩ := h v hv
    exact ⟨more, by rw [Visit.key_of_row hev, hk]⟩
  | fault e => cases hrow

theorem below_messageVisits {inside : FieldDecl → Key → Wire.Field → List Visit}
    (h : ∀ decl path field, Below path (inside decl (Key.ofPath path) field)) (allowed : Option (List Nat))
    (m : MessageDecl) (path : List Segment) (payload : List UInt8) :
    Below path (messageVisits inside allowed m (Key.ofPath path) payload) := by
  intro v hv
  rcases List.mem_append.1 hv with hv | hv
  · obtain ⟨o, -, ho⟩ := List.mem_flatMap.1 hv
    cases o with
    | value decl index field =>
      rw [occurrenceVisits, ← Key.ofPath_concat] at ho
      exact (h decl _ field).of_concat v ho
    | broken decl e =>
      rw [occurrenceVisits, ← Key.ofPath_concat] at ho
      exact Below.of_concat (Below.singleton rfl) v ho
  · obtain ⟨e, -, rfl⟩ := Option.map_eq_some_iff.1 (Option.mem_toList.1 hv)
    exact ⟨[], by rw [List.append_nil]; rfl⟩

namespace Flattener

variable {f : Flattener} {store : Option InternedStore}

theorem below_valueVisits_of_payload {depth : Nat}
    (h : ∀ typeName path bytes, Below path (f.payloadVisits store depth typeName (Key.ofPath path) bytes))
    (decl : FieldDecl) (path : List Segment) (field : Wire.Field) :
    Below path (f.valueVisits store depth decl (Key.ofPath path) field) := by
  rw [valueVisits]
  cases f.target store decl (Key.ofPath path) field with
  | value =>
    simp only
    split <;> exact .singleton rfl
  | obstacle why => exact .singleton rfl
  | payload typeName bytes => exact h typeName path bytes

theorem below_payloadVisits (levels depth : Nat) (hd : f.maxDepth ≤ depth + levels) (typeName : String)
    (path : List Segment) (bytes : List UInt8) :
    Below path (f.payloadVisits store depth typeName (Key.ofPath path) bytes) := by
  induction levels generalizing depth typeName path bytes with
  | zero =>
    rw [payloadVisits, if_neg (by omega)]
    exact .singleton rfl
  | succ levels ih =>
    rw [payloadVisits]
    split
    · cases f.schema.find? typeName with
      | none => exact .singleton rfl
      | some m =>
        have hinside := below_messageVisits (below_valueVisits_of_payload (ih (depth + 1) (by omega))) none m path bytes
        intro v hv
        rcases List.mem_cons.1 hv with rfl | hv
        · exact ⟨[], by rw [List.append_nil]; rfl⟩
        · exact hinside v hv
    · exact .singleton rfl

/-- What the walk comes by in a value stands under its key. -/
theorem below_valueVisits (depth : Nat) (decl : FieldDecl) (path : List Segment) (field : Wire.Field) :
    Below path (f.valueVisits store depth decl (Key.ofPath path) field) :=
  below_valueVisits_of_payload (below_payloadVisits f.maxDepth depth (by omega)) decl path field

end Flattener

/-! ## The visits around a place -/

/-- The visits at an occurrence are swapped in those of its message; if it is not let through there are none. -/
theorem messageVisits_exchange {m : MessageDecl} {decl : FieldDecl} (hd : m.field? decl.number = some decl)
    (hp : decl.packing? = none) {fs : List Wire.Field} {v w : Wire.Value} {left right : List UInt8}
    (hx : Wire.Exchange fs [⟨decl.number, v⟩] [⟨decl.number, w⟩] left right)
    (inside : FieldDecl → Key → Wire.Field → List Visit) (allowed : Option (List Nat)) (path : List Segment) :
    messageVisits inside allowed m (Key.ofPath path) left = messageVisits inside allowed m (Key.ofPath path) right ∨
      Swapped (inside decl (Key.ofPath (path ++ [segment fs decl])) ⟨decl.number, v⟩)
        (inside decl (Key.ofPath (path ++ [segment fs decl])) ⟨decl.number, w⟩)
        (messageVisits inside allowed m (Key.ofPath path) left)
        (messageVisits inside allowed m (Key.ofPath path) right) := by
  obtain ⟨tail, hleft, hright⟩ := hx.fields
  obtain ⟨before, after, hocc⟩ := occurrences_around hd hp allowed fs tail.values
  simp only [messageVisits, ← occurrences_eq_placed m allowed _ (Counts.track_empty m), hleft, hright, hocc]
  cases lets allowed decl with
  | false => exact Or.inl rfl
  | true =>
    simp only [if_true, List.flatMap_append, List.flatMap_singleton, occurrenceVisits, ofPath_segment,
      List.append_assoc]
    exact Or.inr ⟨_, _, rfl, rfl⟩

namespace Flattener

variable {f : Flattener} {store : Option InternedStore}

/-- The visits in a message at a path, which is as deep as the path is long. -/
def visitsAt (f : Flattener) (store : Option InternedStore) (allowed : Option (List Nat)) (m : MessageDecl)
    (path : List Segment) (bytes : List UInt8) : List Visit :=
  messageVisits (f.valueVisits store path.length) allowed m (Key.ofPath path) bytes

/-- Either what is inside a message does not matter, or the message is entered. -/
theorem valueVisits_wrap (store : Option InternedStore) {decl : FieldDecl} {sub : MessageDecl}
    (ht : decl.type.isMessageLike = true) (hs : f.schema.find? (decl.typeName?.getD "") = some sub)
    {wrap : List UInt8 → Wire.Value} (hwrap : wrap = .bytes ∨ wrap = .group) (depth : Nat) (key : Key) (n : Nat) :
    (∀ left right, f.valueVisits store depth decl key ⟨n, wrap left⟩ =
        f.valueVisits store depth decl key ⟨n, wrap right⟩) ∨
      ∀ bytes, f.valueVisits store depth decl key ⟨n, wrap bytes⟩ =
        .entered sub key :: messageVisits (f.valueVisits store (depth + 1)) none sub key bytes := by
  simp only [valueVisits, target]
  cases f.references.get? key.flat with
  | some ref => rcases hwrap with rfl | rfl <;> exact Or.inl fun _ _ => rfl
  | none =>
    cases hty : decl.type with
    | message =>
      rcases hwrap with rfl | rfl
      · simp only [if_true, payloadVisits, hs]
        by_cases hdepth : depth < f.maxDepth
        · exact Or.inr fun _ => by simp only [if_pos hdepth]
        · exact Or.inl fun _ _ => by simp only [if_neg hdepth]
      · exact Or.inl fun _ _ => rfl
    | group => exact Or.inl fun _ _ => rfl
    | _ => simp [hty, Schema.FieldType.isMessageLike] at ht

/-- The visits of the outer spot are the same on both sides, or those of the inner one are swapped in them. -/
theorem visitsAt_within {inner outer : Spot} (hw : f.Within inner outer) (allowed : Option (List Nat)) :
    f.visitsAt store allowed outer.decl outer.path outer.left =
        f.visitsAt store allowed outer.decl outer.path outer.right ∨
      ∃ allowed', Swapped (f.visitsAt store allowed' inner.decl inner.path inner.left)
        (f.visitsAt store allowed' inner.decl inner.path inner.right)
        (f.visitsAt store allowed outer.decl outer.path outer.left)
        (f.visitsAt store allowed outer.decl outer.path outer.right) := by
  induction hw generalizing allowed with
  | here => exact Or.inr ⟨allowed, Swapped.refl _ _⟩
  | @inside m sub path fs decl wrap left right outerLeft outerRight hd ht hs hwrap _ hx _ ih =>
    rcases messageVisits_exchange hd (packing?_of_isMessageLike ht) hx (f.valueVisits store path.length) allowed path
      with h | h
    · exact Or.inl h
    -- the occurrence is let through; its own visits are those of the message in it, if that is entered
    rcases valueVisits_wrap store ht hs hwrap path.length (Key.ofPath (path ++ [segment fs decl])) decl.number
      with hv | hv
    · exact Or.inl (h.eq (hv left right))
    have hlength : path.length + 1 = (path ++ [segment fs decl]).length := by simp
    rw [hv left, hv right, hlength] at h
    rcases ih none with heq | ⟨allowed', hin⟩
    · exact Or.inl (h.eq (congrArg _ heq))
    · exact Or.inr ⟨allowed', (hin.cons _).trans h⟩

/-- The visits of two messages are the same, or those of the exchanged value are swapped in them. -/
theorem visitsAt_exchange (store : Option InternedStore) {spot outer : Spot} (hw : f.Within spot outer)
    {decl : FieldDecl} (hd : spot.decl.field? decl.number = some decl) (hp : decl.packing? = none)
    {fs : List Wire.Field} {v w : Wire.Value}
    (hx : Wire.Exchange fs [⟨decl.number, v⟩] [⟨decl.number, w⟩] spot.left spot.right) (allowed : Option (List Nat)) :
    f.visitsAt store allowed outer.decl outer.path outer.left =
        f.visitsAt store allowed outer.decl outer.path outer.right ∨
      Swapped
        (f.valueVisits store spot.path.length decl (Key.ofPath (spot.path ++ [segment fs decl])) ⟨decl.number, v⟩)
        (f.valueVisits store spot.path.length decl (Key.ofPath (spot.path ++ [segment fs decl])) ⟨decl.number, w⟩)
        (f.visitsAt store allowed outer.decl outer.path outer.left)
        (f.visitsAt store allowed outer.decl outer.path outer.right) := by
  rcases visitsAt_within hw allowed with h | ⟨allowed', houter⟩
  · exact Or.inl h
  · rcases messageVisits_exchange hd hp hx (f.valueVisits store spot.path.length) allowed' spot.path with h | h
    · exact Or.inl (houter.eq h)
    · exact Or.inr (h.trans houter)

/-- The walk through the bytes of a message has the events, and they are what flattening adds to the table and sums up
in its status. -/
def Gives (f : Flattener) (typeName : String) (m : MessageDecl) (allowed : Option (List Nat)) (t : Table)
    (bytes : List UInt8) (events : List Event) : Prop :=
  f.walk t.interned? allowed m bytes t.indices = ⟨events, t.indices⟩ ∧
    f.flatten bytes typeName allowed t = (Fault.status (faultsOf events), { t with rows := t.rows ++ rowsOf events })

theorem gives_visitsAt (hf : f.overrides = Assoc.empty) {typeName : String} {m : MessageDecl}
    (hm : f.schema.find? typeName = some m) (allowed : Option (List Nat)) (t : Table) (bytes : List UInt8) :
    f.Gives typeName m allowed t bytes ((f.visitsAt t.interned? allowed m [] bytes).flatMap Visit.events) := by
  have hw : f.walk t.interned? allowed m bytes t.indices =
      ⟨(f.visitsAt t.interned? allowed m [] bytes).flatMap Visit.events, t.indices⟩ := by
    rw [walk_eq hf, visits, ← Key.ofPath_nil]
    rfl
  exact ⟨hw, by simp only [flatten, hm, hw]⟩

end Flattener

/-- The events of two messages that differ in the payload of one message field, in the messages or anywhere inside them,
are the same before and behind those of that field. These are the ones that the walk has at the field, unless it does
not come there, and their rows are below the field's key. -/
theorem damage_stays_inside {f : Flattener} (hf : f.overrides = Assoc.empty) {typeName : String} {m : MessageDecl}
    (hm : f.schema.find? typeName = some m) {spot : Spot} {bytes bytes' : List UInt8}
    (hw : f.Within spot ⟨m, [], bytes, bytes'⟩) {decl : FieldDecl} (hd : spot.decl.field? decl.number = some decl)
    (ht : decl.type = .message) {fs : List Wire.Field} {payload payload' : List UInt8}
    (hx : Wire.Exchange fs [⟨decl.number, .bytes payload⟩] [⟨decl.number, .bytes payload'⟩] spot.left spot.right)
    (allowed : Option (List Nat)) (t : Table) :
    let path := spot.path ++ [segment fs decl]
    let own (p : List UInt8) : List Event :=
      (f.visitValue t.interned? (f.below t.interned? (f.maxDepth - spot.path.length)) decl (Key.ofPath path)
        ⟨decl.number, .bytes p⟩ t.indices).events
    ∃ (before after : List Event) (inside : List UInt8 → List Event),
      (inside = own ∨ inside = fun _ => []) ∧
        (∀ p, ∀ r ∈ rowsOf (inside p), ∃ more, r.key = Key.ofPath (path ++ more)) ∧
        f.Gives typeName m allowed t bytes (before ++ (inside payload ++ after)) ∧
        f.Gives typeName m allowed t bytes' (before ++ (inside payload' ++ after)) := by
  intro path own
  have hown (p : List UInt8) : own p =
      (f.valueVisits t.interned? spot.path.length decl (Key.ofPath path) ⟨decl.number, .bytes p⟩).flatMap
        Visit.events := by
    rw [show own p = _ from congrArg Progress.events (Flattener.follows_below hf _ decl _ _ t.indices)]
  have hrows (p : List UInt8) : ∀ r ∈ rowsOf (own p), ∃ more, r.key = Key.ofPath (path ++ more) := by
    rw [hown]
    exact (Flattener.below_valueVisits _ decl path _).rows
  have hgives := Flattener.gives_visitsAt hf hm allowed t
  have hp : decl.packing? = none := packing?_of_isMessageLike (by rw [ht]; rfl)
  rcases Flattener.visitsAt_exchange t.interned? hw hd hp hx allowed with h | h
  · replace h : f.visitsAt t.interned? allowed m [] bytes = f.visitsAt t.interned? allowed m [] bytes' := h
    refine ⟨(f.visitsAt t.interned? allowed m [] bytes).flatMap Visit.events, [], fun _ => [], Or.inr rfl,
      by simp [rowsOf], ?_, ?_⟩
    · simpa using hgives bytes
    · simpa [h] using hgives bytes'
  · obtain ⟨before, after, hleft, hright⟩ := h.flatMap Visit.events
    refine ⟨before, after, own, Or.inl rfl, hrows, ?_, ?_⟩
    · rw [hown, ← hleft]
      exact hgives bytes
    · rw [hown, ← hright]
      exact hgives bytes'

/-! ### A message that breaks off inside another one -/

theorem damage_stays_inside_torn :
    let f := Flattener.new (Schema.empty.declare sampleDecl)
    ∃ (before after : List Event) (inside : List UInt8 → List Event),
      f.Gives "T" sampleDecl none .empty [0x12, 8, 0x08, 2, 0x12, 2, 0x08, 6, 0x08, 4, 0x08, 8]
          (before ++ (inside [0x08, 6] ++ after)) ∧
        f.Gives "T" sampleDecl none .empty [0x12, 7, 0x08, 2, 0x12, 1, 0x08, 0x08, 4, 0x08, 8]
          (before ++ (inside [0x08] ++ after)) ∧
        inside [0x08, 6] = [.row ⟨⟨"s.s.a", "s[0].s[0].a[0]"⟩, .int 3⟩] ∧
        inside [0x08] = [.fault (.malformed ".T" "s[0].s[0]" .badVarint)] := by
  intro f
  have hm : f.schema.find? "T" = some sampleDecl := rfl
  have hi : sampleDecl.field? insideDecl.number = some insideDecl := rfl
  have hx : Wire.Exchange [⟨1, .varint 2⟩] [⟨2, .bytes [0x08, 6]⟩] [⟨2, .bytes [0x08]⟩]
      [0x08, 2, 0x12, 2, 0x08, 6, 0x08, 4] [0x08, 2, 0x12, 1, 0x08, 0x08, 4] :=
    @Wire.exchange_of_fields _ _ _ [0x08, 2] [0x12, 2, 0x08, 6] [0x12, 1, 0x08] (by cbv) (by cbv) (by cbv) [0x08, 4]
  have houter : Wire.Exchange [] [⟨2, .bytes [0x08, 2, 0x12, 2, 0x08, 6, 0x08, 4]⟩]
      [⟨2, .bytes [0x08, 2, 0x12, 1, 0x08, 0x08, 4]⟩] [0x12, 8, 0x08, 2, 0x12, 2, 0x08, 6, 0x08, 4, 0x08, 8]
      [0x12, 7, 0x08, 2, 0x12, 1, 0x08, 0x08, 4, 0x08, 8] :=
    @Wire.exchange_of_fields _ _ _ [] [0x12, 8, 0x08, 2, 0x12, 2, 0x08, 6, 0x08, 4]
      [0x12, 7, 0x08, 2, 0x12, 1, 0x08, 0x08, 4] (by cbv) (by cbv) (by cbv) [0x08, 8]
  have hw : f.Within ⟨sampleDecl, [segment [] insideDecl], _, _⟩ ⟨sampleDecl, [], _, _⟩ :=
    .inside hi rfl rfl (Or.inl rfl) rfl houter .here
  obtain ⟨before, after, inside, hinside, -, hgood, htorn⟩ := damage_stays_inside rfl hm hw hi rfl hx none .empty
  rcases hinside with hinside | rfl
  · refine ⟨before, after, inside, hgood, htorn, ?_, ?_⟩ <;> rw [hinside] <;> cbv
  · have hrows := congrArg (fun r => r.2.rows.length) (hgood.2.trans htorn.2.symm)
    have hfour : (f.flatten [0x12, 8, 0x08, 2, 0x12, 2, 0x08, 6, 0x08, 4, 0x08, 8] "T" none
        .empty).2.rows.length = 4 := by cbv
    have hthree : (f.flatten [0x12, 7, 0x08, 2, 0x12, 1, 0x08, 0x08, 4, 0x08, 8] "T" none
        .empty).2.rows.length = 3 := by cbv
    omega

end TraceTables.Arguments
