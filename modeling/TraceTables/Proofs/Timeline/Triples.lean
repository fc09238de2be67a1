import TraceTables.Proofs.Timeline.Naming

/-! The ids of flows that come without one. An event of such a flow names its source, a category and a name, and its id
is the place of the three among those that have come, counted without repetitions. -/

namespace TraceTables.Timeline

/-- What an event tells of its flow if that has no id. -/
structure Triple where
  sourceId : Nat
  category : String
  name : String
deriving DecidableEq

def Triple.flowName (x : Triple) : FlowName := .legacy x.sourceId x.category x.name

theorem Triple.flowName_inj {x y : Triple} : x.flowName = y.flowName ↔ x = y := by
  rcases x with ⟨s, c, n⟩
  rcases y with ⟨s', c', n'⟩
  simp [flowName]

def Event.triple? : Event → Option Triple
  | legacyFlow _ _ sourceId category name _ => some ⟨sourceId, category, name⟩
  | _ => none

/-- The triples of a run, in order. -/
def triples (events : List Event) : List Triple := events.filterMap Event.triple?

/-- The id that a state gives to an event whose flow has none. -/
def givenId? (t : Timeline) (e : Event) : Option FlowId := e.triple?.map fun x => (t.identify x.flowName).1

/-- The ids that are given in a run, in order. -/
def givenIds (events : List Event) : List FlowId :=
  along (fun before e => ((replay before).givenId? e).toList) events

theorem triples_concat (events : List Event) (e : Event) :
    triples (events ++ [e]) = triples events ++ e.triple?.toList := by
  cases he : e.triple? <;> simp [triples, he]

theorem filter_isLegacy_names (events : List Event) :
    (names events).filter FlowName.isLegacy = (triples events).map Triple.flowName := by
  rw [names, List.filter_map, List.filter_filterMap, List.map_filterMap, triples, List.map_filterMap]
  refine List.filterMap_congr fun e _ => ?_
  cases e <;> rfl

/-- The id of a flow without one, by its place among the triples. -/
theorem number_flowName (events : List Event) (x : Triple) :
    number events x.flowName = (triples events).eraseDups.idxOf x := by
  have hnames : legacyNames events = (triples events).eraseDups.map Triple.flowName := by
    rw [legacyNames, filter_isLegacy_names]
    exact eraseDups_map fun _ _ _ _ h => Triple.flowName_inj.1 h
  calc
    number events x.flowName = (legacyNames events).idxOf x.flowName := rfl
    _ = (triples events).eraseDups.idxOf x := by
      rw [hnames]
      exact idxOf_map_eq (fun _ => Triple.flowName_inj) _

theorem Event.flow?_of_triple? {e : Event} {x : Triple} (h : e.triple? = some x) :
    ∃ f, e.flow? = some f ∧ f.name = x.flowName := by
  cases e with
  | legacyFlow track phase sourceId category name bind =>
    cases h
    exact ⟨_, rfl, rfl⟩
  | sliceBegin | sliceEnd | flowBegin | flowStep | flowEnd => cases h

/-- An event is given the id that its triple has by the whole run. -/
theorem givenId?_replay {events before : List Event} {e : Event} (h : before ++ [e] <+: events) :
    (replay before).givenId? e = e.triple?.map fun x => (triples events).eraseDups.idxOf x := by
  unfold givenId?
  refine Option.map_congr fun x hx => ?_
  obtain ⟨f, hf, hname⟩ := Event.flow?_of_triple? hx
  have hcome : x.flowName ∈ names (before ++ [e]) := by
    rw [names_concat_of_flow hf, hname]
    exact List.mem_append_right _ List.mem_cons_self
  calc
    ((replay before).identify x.flowName).1 = number before x.flowName := (named_replay before).fst_identify _
    _ = number (before ++ [e]) x.flowName := (number_concat hcome).symm
    _ = number events x.flowName := (number_of_isPrefix h hcome).symm
    _ = (triples events).eraseDups.idxOf x := number_flowName events x

theorem mem_triples_of_isPrefix {events before : List Event} {e : Event} (h : before ++ [e] <+: events) {x : Triple}
    (hx : e.triple? = some x) : x ∈ triples events := by
  obtain ⟨rest, rfl⟩ := h
  exact List.mem_filterMap.2 ⟨e, by simp, hx⟩

theorem givenIds_eq {events before : List Event} (h : before <+: events) :
    givenIds before = (triples before).map fun x => (triples events).eraseDups.idxOf x := by
  induction before using List.reverseRecOn with
  | nil => rfl
  | append_singleton before e ih =>
    rw [givenIds, along_concat, ← givenIds, ih ((List.prefix_append _ _).trans h), givenId?_replay h, triples_concat,
      List.map_append]
    cases e.triple? <;> rfl

/-- Each event of a flow without an id is given the place of its triple among the distinct triples of the run, in the
order in which they first came, and it is handled as an event of the flow with that id, whatever its phase is and
whatever becomes of it. So two such events are given one id exactly if source, category and name are the same, and the
ids are the numbers from zero on, each of them first given when a new triple comes. -/
theorem given_ids_number_triples (events : List Event) :
    let distinct := (triples events).eraseDups
    givenIds events = (triples events).map (distinct.idxOf ·) ∧
      (givenIds events).eraseDups = List.range distinct.length ∧
      (∀ before e before' e' x x', before ++ [e] <+: events → before' ++ [e'] <+: events →
        e.triple? = some x → e'.triple? = some x' →
          ((replay before).givenId? e = (replay before').givenId? e' ↔ x = x')) ∧
      ∀ (t : Timeline) track phase bind (x : Triple), ∃ id,
        let e := Event.legacyFlow track phase x.sourceId x.category x.name bind
        e.triple? = some x ∧ t.givenId? e = some id ∧
          t.apply e = (t.identify x.flowName).2.flowEvent track id bind phase := by
  intro distinct
  have hids : givenIds events = (triples events).map (distinct.idxOf ·) := givenIds_eq (List.prefix_refl _)
  have hinj : ∀ x ∈ triples events, ∀ y ∈ triples events, distinct.idxOf x = distinct.idxOf y → x = y := by
    intro x hx y hy h
    exact (List.idxOf_inj (List.mem_eraseDups.2 hx)).1 h
  refine ⟨hids, ?_, ?_, ?_⟩
  · rw [hids, eraseDups_map hinj]
    exact map_idxOf_self (nodup_eraseDups _)
  · intro before e before' e' x x' hb hb' hx hx'
    rw [givenId?_replay hb, givenId?_replay hb', hx, hx', Option.map_some, Option.map_some, Option.some_inj]
    constructor
    · exact hinj x (mem_triples_of_isPrefix hb hx) x' (mem_triples_of_isPrefix hb' hx')
    · rintro rfl
      rfl
  · intro t track phase bind x
    exact ⟨_, rfl, rfl, rfl⟩

/-- Texts are shared and change places, and the second event is dropped. -/
example :
    givenIds [.sliceBegin 1 0 "b", .legacyFlow 1 .start 7 "a" "b" false, .legacyFlow 2 .step 7 "b" "a" false,
      .flowBegin 1 0, .legacyFlow 1 .finish 7 "" "" true, .legacyFlow 3 .finish 7 "a" "b" false] = [0, 1, 2, 0] := by
  decide

end TraceTables.Timeline
