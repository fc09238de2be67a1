import TraceTables.Proofs.Arguments.AllowList
import TraceTables.Proofs.Arguments.DepthLimit

/-! Keys that tell rows apart. In a message where no field occurs twice that is not repeated, no two values have the same
route, and under names that are legible and distinct in each message type no two routes have the same full key. -/

namespace TraceTables.Arguments

open Schema (FieldDecl MessageDecl)

/-- The names of the fields are legible, and no two fields of a message type share one. -/
structure ClearNames (schema : Schema) : Prop where
  legible : ∀ typeName m, schema.find? typeName = some m → ∀ n decl, m.field? n = some decl → Legible decl.name
  distinct : ∀ typeName m, schema.find? typeName = some m → ∀ n n' decl decl', m.field? n = some decl →
    m.field? n' = some decl' → decl.name = decl'.name → n = n'

/-- Does each field that is not repeated occur at most once? -/
def single (m : MessageDecl) (fs : List Wire.Field) : Bool :=
  fs.all fun f => (m.field? f.number).all fun decl => decl.repeated || fs.countP (·.number = f.number) ≤ 1

/-- Does each field that is not repeated occur at most once, in the message and in each that is found inside of it, so
many levels deep? Interned payloads are inside of the messages that refer to them. -/
def Flattener.singles (f : Flattener) (store : Option InternedStore) : Nat → List Step → String → List UInt8 → Bool
  | 0, _, _, _ => true
  | levels + 1, route, typeName, bytes =>
    match f.schema.find? typeName with
    | none => true
    | some m =>
      let fs := (Wire.fields bytes).values
      single m fs && (occurrences m none Assoc.empty fs).all fun
        | .value decl index field =>
          let here := route ++ [⟨Schema.qualify typeName, decl, index⟩]
          match f.target store decl (routeKey here) field with
          | .payload inner payload => f.singles store levels here inner payload
          | _ => true
        | .broken _ _ => true

/-- The numbers and indices on the route to a finding. -/
def Finding.place (x : Finding) : List (Nat × Option Nat) := x.route.map fun s => (s.decl.number, s.index)

/-! ## Values stand at different places -/

/-- The number and the index of a value. -/
def Occurrence.spot? : Occurrence → Option (Nat × Option Nat)
  | value decl index _ => some (decl.number, index)
  | broken _ _ => none

theorem mem_of_value_mem_placed {earlier : List Nat} {ps : List Piece} {decl : FieldDecl} {index : Option Nat}
    {field : Wire.Field} (h : .value decl index field ∈ placed earlier ps) : .value decl field ∈ ps := by
  induction ps generalizing earlier with
  | nil => cases h
  | cons p ps ih =>
    cases p with
    | value decl' field' =>
      rcases List.mem_cons.1 h with h | h
      · cases h
        exact List.mem_cons_self
      · exact List.mem_cons_of_mem _ (ih h)
    | torn decl' e =>
      rcases List.mem_cons.1 h with h | h
      · cases h
      · exact List.mem_cons_of_mem _ (ih h)

theorem count_le_of_mem_placed {earlier : List Nat} {ps : List Piece} {decl : FieldDecl} {i : Nat}
    {field : Wire.Field} (h : .value decl (some i) field ∈ placed earlier ps) : earlier.count decl.number ≤ i := by
  induction ps generalizing earlier with
  | nil => cases h
  | cons p ps ih =>
    cases p with
    | value decl' field' =>
      rcases List.mem_cons.1 h with h | h
      · injection h with hdecl hindex
        subst hdecl
        unfold place at hindex
        split at hindex
        · cases hindex
          exact Nat.le_refl _
        · cases hindex
      · exact Nat.le_trans List.count_le_count_cons (ih h)
    | torn decl' e =>
      rcases List.mem_cons.1 h with h | h
      · cases h
      · exact ih h

/-- Values of one field are told apart by their indices, if there is more than one. -/
theorem pairwise_placed {ps : List Piece}
    (h : ps.Pairwise fun p q => ∀ decl field, p = .value decl field → decl.repeated = false →
      q.carries decl.number = false) (earlier : List Nat) :
    (placed earlier ps).Pairwise fun o o' => ∀ spot, o.spot? = some spot → o'.spot? ≠ some spot := by
  induction ps generalizing earlier with
  | nil => exact List.Pairwise.nil
  | cons p ps ih =>
    rw [List.pairwise_cons] at h
    cases p with
    | torn decl e => exact List.pairwise_cons.2 ⟨fun _ _ _ hspot => (by cases hspot), ih h.2 earlier⟩
    | value decl field =>
      refine List.pairwise_cons.2 ⟨?_, ih h.2 _⟩
      rintro o' ho' _ ⟨⟩ hspot
      cases o' with
      | broken decl' e => cases hspot
      | value decl' index' field' =>
        simp only [Occurrence.spot?, Option.some.injEq, Prod.mk.injEq] at hspot
        obtain ⟨hn, rfl⟩ := hspot
        cases hr : decl.repeated with
        | true =>
          have hplace : place earlier decl = some (earlier.count decl.number) := by rw [place, if_pos hr]
          rw [hplace] at ho'
          have hle := count_le_of_mem_placed ho'
          rw [hn, List.count_cons_self] at hle
          omega
        | false =>
          have hcarries := h.1 _ (mem_of_value_mem_placed ho') decl field rfl hr
          simp [Piece.carries, hn] at hcarries

/-! ## What a message that has its single fields once carries -/

theorem pieces_of_not_repeated {m : MessageDecl} {g : Wire.Field} {decl : FieldDecl}
    (hd : m.field? g.number = some decl) (hr : decl.repeated = false) (allowed : Option (List Nat)) :
    pieces m allowed g = if lets allowed decl then [.value decl g] else [] := by
  simp only [pieces, hd, hr]

theorem pairwise_number_ne {P : Wire.Field → Prop} {fs : List Wire.Field}
    (h : ∀ g ∈ fs, P g → fs.countP (·.number = g.number) ≤ 1) :
    fs.Pairwise fun g g' => P g → g'.number ≠ g.number := by
  induction fs with
  | nil => exact List.Pairwise.nil
  | cons g fs ih =>
    refine List.pairwise_cons.2 ⟨fun g' hg' hP hn => ?_, ih fun g' hg' hP => ?_⟩
    · have hcount := h g List.mem_cons_self hP
      rw [List.countP_cons_of_pos (by simp)] at hcount
      have hpos : 0 < fs.countP (·.number = g.number) := List.countP_pos_iff.2 ⟨g', hg', by simpa using hn⟩
      omega
    · exact Nat.le_trans (List.sublist_cons_self g fs).countP_le (h g' (List.mem_cons_of_mem g hg') hP)

theorem pairwise_pieces {m : MessageDecl} {fs : List Wire.Field} (hs : single m fs = true)
    (allowed : Option (List Nat)) :
    (fs.flatMap (pieces m allowed)).Pairwise fun p q => ∀ decl field, p = .value decl field → decl.repeated = false →
      q.carries decl.number = false := by
  refine List.pairwise_flatMap.2 ⟨fun g _ => ?_, ?_⟩
  · cases hd : m.field? g.number with
    | none =>
      have hnone : pieces m allowed g = [] := by unfold pieces; rw [hd]
      rw [hnone]
      exact List.Pairwise.nil
    | some decl =>
      cases hr : decl.repeated with
      | false =>
        rw [pieces_of_not_repeated hd hr]
        split
        · exact List.pairwise_singleton _ _
        · exact List.Pairwise.nil
      | true =>
        refine List.pairwise_of_forall_mem_list fun p hp q _ decl' field hpv hr' => ?_
        subst hpv
        have hdecl : some decl' = some decl := (field?_of_mem_pieces hp).symm.trans hd
        rw [Option.some.inj hdecl, hr] at hr'
        cases hr'
  · have hcount : ∀ g ∈ fs, (∃ decl, m.field? g.number = some decl ∧ decl.repeated = false) →
        fs.countP (·.number = g.number) ≤ 1 := by
      rintro g hg ⟨decl, hd, hr⟩
      have hone := List.all_eq_true.1 hs g hg
      simpa [hd, hr] using hone
    refine (pairwise_number_ne hcount).imp fun {g g'} hne p hp q hq decl field hpv hr => ?_
    subst hpv
    have hn : decl.number = g.number := number_of_mem_pieces hp
    have hdecl := field?_of_mem_pieces hp
    cases q with
    | torn decl' e => rfl
    | value decl' field' =>
      have hn' : decl'.number = g'.number := number_of_mem_pieces hq
      have hne' := hne ⟨decl, hdecl, hr⟩
      simp [Piece.carries, hn, hn', hne']

/-! ## No two rows have one route -/

/-- The findings are not rows with the same route. -/
def Finding.Apart (x y : Finding) : Prop := x.row?.isSome → y.row?.isSome → x.route ≠ y.route

theorem pairwise_found (route : List Step) (v : Visit) : (found route v).Pairwise Finding.Apart := by
  cases v with
  | scalar decl key value =>
    simp only [found, Visit.events]
    split <;> exact List.pairwise_singleton _ _
  | unsupported | shut | torn => exact List.pairwise_singleton _ _
  | entered => exact List.Pairwise.nil

theorem apart_of_torn {route : List Step} {typeName : String} {key : Key} {e : Wire.Fault} {x y : Finding}
    (h : x ∈ found route (.torn typeName key e) ∨ y ∈ found route (.torn typeName key e)) : x.Apart y := by
  intro hx hy
  rcases h with h | h
  · cases List.mem_singleton.1 h
    cases hx
  · cases List.mem_singleton.1 h
    cases hy

theorem pairwise_messageFindings {inside : Step → Wire.Field → List Finding} {allowed : Option (List Nat)}
    {typeName : String} {m : MessageDecl} {route : List Step} {payload : List UInt8}
    (hs : single m (Wire.fields payload).values = true)
    (hroute : ∀ s field, ∀ x ∈ inside s field, ∃ more, x.route = route ++ [s] ++ more)
    (hin : ∀ decl index field,
      .value decl index field ∈ placed [] ((Wire.fields payload).values.flatMap (pieces m allowed)) →
        (inside ⟨typeName, decl, index⟩ field).Pairwise Finding.Apart) :
    (messageFindings inside allowed typeName m route payload).Pairwise Finding.Apart := by
  refine List.pairwise_append.2 ⟨List.pairwise_flatMap.2 ⟨fun o ho => ?_, ?_⟩, ?_, ?_⟩
  · cases o with
    | value decl index field => exact hin decl index field ho
    | broken decl e => exact pairwise_found _ _
  · refine (pairwise_placed (pairwise_pieces hs allowed) []).imp fun {o o'} hspot x hx y hy => ?_
    cases o with
    | broken decl e => exact apart_of_torn (Or.inl hx)
    | value decl index field =>
      cases o' with
      | broken decl' e => exact apart_of_torn (Or.inr hy)
      | value decl' index' field' =>
        intro _ _ heq
        obtain ⟨more, hx⟩ := hroute _ field x hx
        obtain ⟨more', hy⟩ := hroute _ field' y hy
        rw [hx, hy, List.append_assoc, List.append_assoc] at heq
        have hsteps := List.append_cancel_left heq
        simp only [List.singleton_append, List.cons.injEq, Step.mk.injEq] at hsteps
        obtain ⟨⟨-, rfl, rfl⟩, -⟩ := hsteps
        exact hspot _ rfl rfl
  · cases (Wire.fields payload).fault? with
    | none => exact List.Pairwise.nil
    | some e => exact List.pairwise_singleton _ _
  · intro x _ y hy
    obtain ⟨v, hv, hyv⟩ := List.mem_flatMap.1 hy
    obtain ⟨e, -, rfl⟩ := Option.map_eq_some_iff.1 (Option.mem_toList.1 hv)
    exact apart_of_torn (Or.inr hyv)

theorem mem_placed_none {m : MessageDecl} {allowed : Option (List Nat)} {fs : List Wire.Field} {o : Occurrence}
    (h : o ∈ placed [] (fs.flatMap (pieces m allowed))) : o ∈ placed [] (fs.flatMap (pieces m none)) := by
  cases allowed with
  | none => exact h
  | some numbers =>
    rw [placed_some] at h
    exact List.mem_of_mem_filter h

namespace Flattener

variable {f : Flattener} {store : Option InternedStore}

theorem pairwise_payloadFindings (levels : Nat) (allowed : Option (List Nat)) {route : List Step} {typeName : String}
    {bytes : List UInt8} (hs : f.singles store levels route typeName bytes = true) :
    (f.payloadFindings store levels allowed route typeName bytes).Pairwise Finding.Apart := by
  induction levels generalizing allowed route typeName bytes with
  | zero => exact pairwise_found _ _
  | succ levels ih =>
    rw [singles] at hs
    rw [payloadFindings]
    cases hm : f.schema.find? typeName with
    | none => exact pairwise_found _ _
    | some m =>
      simp only [hm, Bool.and_eq_true, List.all_eq_true, occurrences_eq_placed m _ _ (Counts.track_empty m)] at hs
      refine pairwise_messageFindings hs.1 ?_ fun decl index field ho => ?_
      · intro s field x hx
        obtain ⟨more, hmore, -⟩ := (beyond_of_mem_valueFindings
          (fun _ _ _ x hx => (inside_of_mem_payloadFindings levels none hx).beyond) hx).goes
        exact ⟨more, hmore⟩
      · have hinner := hs.2 _ (mem_placed_none ho)
        simp only [valueFindings]
        cases ht : f.target store decl (routeKey (route ++ [⟨Schema.qualify typeName, decl, index⟩])) field with
        | value =>
          simp only
          split <;> exact pairwise_found _ _
        | obstacle why => exact pairwise_found _ _
        | payload inner payload =>
          simp only [ht] at hinner
          exact ih none hinner

/-! ## A key has one route -/

/-- The type of the messages at a value: that of a reference, and else the declared one. -/
def innerType (f : Flattener) (key : Key) (decl : FieldDecl) : String :=
  match f.references.get? key.flat with
  | some ref => ref.typeName
  | none => decl.typeName?.getD ""

theorem innerType_of_target {decl : FieldDecl} {key : Key} {field : Wire.Field} {typeName : String}
    {bytes : List UInt8} (h : f.target store decl key field = .payload typeName bytes) :
    typeName = f.innerType key decl := by
  unfold target at h
  unfold innerType
  cases hr : f.references.get? key.flat with
  | some ref =>
    rw [hr] at h
    simp only at h
    split at h
    · split at h <;> cases h
      rfl
    · cases h
  | none =>
    rw [hr] at h
    simp only at h
    split at h
    · split at h <;> cases h
      rfl
    · cases h

/-- From a payload of a message type at a route, do further steps go through fields of the types that are there? -/
def Passes (f : Flattener) : List Step → String → List Step → Prop
  | _, _, [] => True
  | route, typeName, s :: more =>
    s.typeName = Schema.qualify typeName ∧ s.Declared f.schema ∧
      f.Passes (route ++ [s]) (f.innerType (routeKey (route ++ [s])) s.decl) more

theorem Passes.declared {route : List Step} {typeName : String} {more : List Step} (h : f.Passes route typeName more) :
    ∀ s ∈ more, s.Declared f.schema := by
  induction more generalizing route typeName with
  | nil => simp
  | cons s more ih =>
    obtain ⟨-, hs, hmore⟩ := h
    exact List.forall_mem_cons.2 ⟨hs, ih hmore⟩

/-- Routes from one payload that have the same names and indices are the same. -/
theorem Passes.eq_of_segments (hn : ClearNames f.schema) {route : List Step} {typeName : String}
    {more more' : List Step} (h : f.Passes route typeName more) (h' : f.Passes route typeName more')
    (heq : more.map Step.segment = more'.map Step.segment) : more = more' := by
  induction more generalizing route typeName more' with
  | nil => simpa using heq
  | cons s more ih =>
    cases more' with
    | nil => cases heq
    | cons s' more' =>
      obtain ⟨htype, ⟨m, hm, hd⟩, hmore⟩ := h
      obtain ⟨htype', ⟨m', hm', hd'⟩, hmore'⟩ := h'
      simp only [List.map_cons, List.cons.injEq, Step.segment, Segment.mk.injEq] at heq
      obtain ⟨⟨hname, hindex⟩, hrest⟩ := heq
      -- the steps are in the same message type, where the name has one field
      rw [htype] at hm
      rw [htype', hm, Option.some.injEq] at hm'
      subst hm'
      have hnumber := hn.distinct _ m hm _ _ _ _ hd hd' hname
      rw [hnumber, hd', Option.some.injEq] at hd
      have hs : s = s' := by
        rcases s with ⟨t, decl, index⟩
        rcases s' with ⟨t', decl', index'⟩
        cases hd
        cases hindex
        cases htype.trans htype'.symm
        rfl
      subst hs
      rw [ih hmore hmore' hrest]

theorem passes_of_mem_payloadFindings {levels : Nat} {allowed : Option (List Nat)} {route : List Step}
    {typeName : String} {bytes : List UInt8} {x : Finding}
    (hx : x ∈ f.payloadFindings store levels allowed route typeName bytes) :
    ∃ more, x.route = route ++ more ∧ f.Passes route typeName more := by
  have hhere {route : List Step} {v : Visit} (hx : x ∈ found route v) : x.route = route := by
    obtain ⟨e, -, rfl⟩ := List.mem_map.1 hx
    rfl
  induction levels generalizing allowed route typeName bytes with
  | zero => exact ⟨[], by rw [hhere hx, List.append_nil], trivial⟩
  | succ levels ih =>
    rw [payloadFindings] at hx
    cases hm : f.schema.find? typeName with
    | none =>
      simp only [hm] at hx
      exact ⟨[], by rw [hhere hx, List.append_nil], trivial⟩
    | some m =>
      simp only [hm] at hx
      have hm' : f.schema.find? (Schema.qualify typeName) = some m := by
        rwa [Schema.find?, Schema.qualify_qualify]
      rcases List.mem_append.1 hx with hx | hx
      · obtain ⟨o, ho, hxo⟩ := List.mem_flatMap.1 hx
        have hdeclared (index : Option Nat) : Step.Declared f.schema ⟨Schema.qualify typeName, o.decl, index⟩ :=
          ⟨m, hm', field?_of_mem_placed ho⟩
        cases o with
        | broken decl e => exact ⟨[_], hhere hxo, rfl, hdeclared none, trivial⟩
        | value decl index field =>
          simp only [occurrenceFindings, valueFindings] at hxo
          cases ht : f.target store decl (routeKey (route ++ [⟨Schema.qualify typeName, decl, index⟩])) field with
          | value =>
            simp only [ht] at hxo
            refine ⟨[_], ?_, rfl, hdeclared index, trivial⟩
            split at hxo <;> exact hhere hxo
          | obstacle why =>
            simp only [ht] at hxo
            exact ⟨[_], hhere hxo, rfl, hdeclared index, trivial⟩
          | payload inner payload =>
            simp only [ht] at hxo
            obtain ⟨more, hroute, hpasses⟩ := ih hxo
            rw [innerType_of_target ht] at hpasses
            exact ⟨⟨Schema.qualify typeName, decl, index⟩ :: more, by rw [hroute, List.append_assoc, List.singleton_append],
              rfl, hdeclared index, hpasses⟩
      · obtain ⟨v, -, hxv⟩ := List.mem_flatMap.1 hx
        exact ⟨[], by rw [hhere hxv, List.append_nil], trivial⟩

end Flattener

theorem ClearNames.legible_of_passes {f : Flattener} (hn : ClearNames f.schema) {route : List Step} {typeName : String}
    {more : List Step} (h : f.Passes route typeName more) : ∀ s ∈ more.map Step.segment, Legible s.name := by
  intro s hs
  obtain ⟨step, hstep, rfl⟩ := List.mem_map.1 hs
  obtain ⟨m, hm, hd⟩ := h.declared step hstep
  exact hn.legible _ m hm _ _ hd

section Findings

variable {f : Flattener} (hn : ClearNames f.schema) {typeName : String}
include hn

/-- In all messages of one type rows with the same full key have the same route. -/
theorem route_eq_of_full_eq {bytes bytes' : List UInt8} {allowed allowed' : Option (List Nat)} {t t' : Table}
    {x y : Finding} (hx : x ∈ f.findings bytes typeName allowed t) (hy : y ∈ f.findings bytes' typeName allowed' t')
    {r s : Row} (hr : x.row? = some r) (hs : y.row? = some s) (h : r.key.full = s.key.full) : x.route = y.route := by
  rw [(Flattener.inside_of_mem_payloadFindings _ allowed hx).beyond.keyed r hr,
    (Flattener.inside_of_mem_payloadFindings _ allowed' hy).beyond.keyed s hs] at h
  obtain ⟨more, hroute, hpasses⟩ := Flattener.passes_of_mem_payloadFindings hx
  obtain ⟨more', hroute', hpasses'⟩ := Flattener.passes_of_mem_payloadFindings hy
  rw [List.nil_append] at hroute hroute'
  rw [hroute, hroute'] at h ⊢
  exact hpasses.eq_of_segments hn hpasses'
    (Key.eq_of_full_ofPath_eq (hn.legible_of_passes hpasses) (hn.legible_of_passes hpasses') h)

theorem unindexed_full_of_mem_findings {bytes : List UInt8} {allowed : Option (List Nat)} {t : Table} {x : Finding}
    (hx : x ∈ f.findings bytes typeName allowed t) {r : Row} (hr : x.row? = some r) :
    unindexed false r.key.full.toList = r.key.flat.toList := by
  obtain ⟨more, hroute, hpasses⟩ := Flattener.passes_of_mem_payloadFindings hx
  rw [(Flattener.inside_of_mem_payloadFindings _ allowed hx).beyond.keyed r hr, hroute, List.nil_append]
  exact Key.unindexed_full_ofPath (hn.legible_of_passes hpasses)

end Findings

/-- In a message in which fields that are not repeated occur at most once, at any depth, all rows have different full
keys. In all messages of one type the full key of a row tells its place, and its flat key is the full one without the
indices. -/
theorem full_keys_tell_apart {f : Flattener} (hf : f.overrides = Assoc.empty) (hn : ClearNames f.schema)
    {bytes : List UInt8} {typeName : String} {t : Table}
    (hs : f.singles t.interned? (f.maxDepth + 1) [] typeName bytes = true) (allowed : Option (List Nat)) :
    let found := f.findings bytes typeName allowed t
    f.emitted bytes typeName allowed t = found.filterMap Finding.row? ∧
      ((f.emitted bytes typeName allowed t).map fun r => r.key.full).Nodup ∧
      (∀ x ∈ found, ∀ bytes' allowed' t', ∀ y ∈ f.findings bytes' typeName allowed' t', ∀ r s,
        x.row? = some r → y.row? = some s → r.key.full = s.key.full → x.place = y.place) ∧
      ∀ r ∈ f.emitted bytes typeName allowed t, r.key.flat.toList = unindexed false r.key.full.toList := by
  intro found
  have hrows : f.emitted bytes typeName allowed t = found.filterMap Finding.row? := Flattener.emitted_eq hf ..
  refine ⟨hrows, ?_, ?_, ?_⟩
  · rw [hrows, List.Nodup, List.pairwise_map, List.pairwise_filterMap]
    refine (Flattener.pairwise_payloadFindings (f.maxDepth + 1) allowed hs).imp_of_mem ?_
    intro x y hx hy hapart r hr s hs heq
    exact hapart (by simp [hr]) (by simp [hs]) (route_eq_of_full_eq hn hx hy hr hs heq)
  · intro x hx bytes' allowed' t' y hy r s hr hs heq
    rw [Finding.place, Finding.place, route_eq_of_full_eq hn hx hy hr hs heq]
  · intro r hr
    rw [hrows] at hr
    obtain ⟨x, hx, hxr⟩ := List.mem_filterMap.1 hr
    exact (unindexed_full_of_mem_findings hn hx hxr).symm

/-! ### Names that others begin with -/

theorem clearNames_of_pairs {schema : Schema}
    (hl : ∀ p ∈ schema.messages.pairs, ∀ q ∈ p.2.fields.pairs,
      q.2.name ≠ "" ∧ '.' ∉ q.2.name.toList ∧ '[' ∉ q.2.name.toList)
    (hd : ∀ p ∈ schema.messages.pairs, ∀ q ∈ p.2.fields.pairs, ∀ q' ∈ p.2.fields.pairs,
      q.2.name = q'.2.name → q.1 = q'.1) : ClearNames schema where
  legible _ _ hm _ _ h :=
    have hname := hl _ (mem_of_valueAt hm) _ (mem_of_valueAt h)
    ⟨hname.1, hname.2.1, hname.2.2⟩
  distinct _ _ hm _ _ _ _ h h' := hd _ (mem_of_valueAt hm) _ (mem_of_valueAt h) _ (mem_of_valueAt h')

def prefixedDecl : MessageDecl :=
  (MessageDecl.named "T").addAll
    [numbersDecl, ⟨"a1", 2, .uint32, none, false, false⟩, ⟨"r", 3, .uint64, none, true, false⟩]

def prefixedSample : Flattener := (Flattener.new (Schema.empty.declare prefixedDecl)).refer "r" 5 "T"

/-- The id of one payload stands twice in a packed field, and once behind it. -/
def prefixedBytes : List UInt8 := [0x0A, 2, 2, 4, 0x10, 3, 0x1A, 2, 7, 7, 0x08, 6, 0x18, 7]

def prefixedTable : Table := .withInterned (Assoc.empty.insert ⟨5, 7⟩ [0x10, 4, 0x08, 8])

theorem full_keys_tell_apart_prefixed :
    ClearNames prefixedSample.schema ∧
      prefixedSample.singles prefixedTable.interned? 65 [] "T" prefixedBytes = true ∧
      (prefixedSample.emitted prefixedBytes "T" none prefixedTable).map (·.key.full) =
        ["a[0]", "a[1]", "a1", "r[0].a1", "r[0].a[0]", "r[1].a1", "r[1].a[0]", "a[2]", "r[2].a1", "r[2].a[0]"] ∧
      ((prefixedSample.emitted prefixedBytes "T" none prefixedTable).map (·.key.full)).Nodup ∧
      ((prefixedSample.findings prefixedBytes "T" none prefixedTable).filter (·.row?.isSome)).map Finding.place =
        [[(1, some 0)], [(1, some 1)], [(2, none)], [(3, some 0), (2, none)], [(3, some 0), (1, some 0)],
          [(3, some 1), (2, none)], [(3, some 1), (1, some 0)], [(1, some 2)], [(3, some 2), (2, none)],
          [(3, some 2), (1, some 0)]] := by
  have hn : ClearNames prefixedSample.schema := clearNames_of_pairs (by decide) (by decide)
  have hs : prefixedSample.singles prefixedTable.interned? 65 [] "T" prefixedBytes = true := by cbv
  obtain ⟨-, hnodup, -⟩ := full_keys_tell_apart rfl hn hs none
  exact ⟨hn, hs, by cbv, hnodup, by cbv⟩

end TraceTables.Arguments
