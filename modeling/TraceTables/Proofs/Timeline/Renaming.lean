import TraceTables.Proofs.Timeline.Nesting
import TraceTables.Proofs.Timeline.Sharing

/-! What an id is does not matter, as long as flows that are told apart keep different ids. Two runs that differ in
nothing but the names of their flows have the same summary. Flows without an id may then be given one. -/

namespace TraceTables.Timeline

/-- The event as one of a flow with an id, in place of what has told its flow apart. -/
def Event.withId (id : FlowName → FlowId) : Event → Event
  | sliceBegin track ts name => sliceBegin track ts name
  | sliceEnd track ts => sliceEnd track ts
  | flowBegin track flow => flowBegin track (id (.explicit flow))
  | flowStep track flow => flowStep track (id (.explicit flow))
  | flowEnd track flow bind => flowEnd track (id (.explicit flow)) bind
  | legacyFlow track .start sourceId category name _ => flowBegin track (id (.legacy sourceId category name))
  | legacyFlow track .step sourceId category name _ => flowStep track (id (.legacy sourceId category name))
  | legacyFlow track .finish sourceId category name bind => flowEnd track (id (.legacy sourceId category name)) bind

/-- Only ends can do without a slice around them. -/
def FlowEvent.withId (id : FlowName → FlowId) (f : FlowEvent) : FlowEvent :=
  ⟨.explicit (id f.name), f.phase, f.phase ≠ .finish || f.bindEnclosing⟩

section Names

variable (id : FlowName → FlowId)

@[simp] theorem Event.flow?_withId (e : Event) : (e.withId id).flow? = e.flow?.map (FlowEvent.withId id) := by
  cases e with
  | legacyFlow track phase => cases phase <;> rfl
  | sliceBegin | sliceEnd | flowBegin | flowStep | flowEnd => rfl

@[simp] theorem Event.track_withId (e : Event) : (e.withId id).track = e.track := by
  cases e with
  | legacyFlow track phase => cases phase <;> rfl
  | sliceBegin | sliceEnd | flowBegin | flowStep | flowEnd => rfl

theorem Event.withId_eq_sliceEnd_iff (e : Event) (track : Track) (ts : Int) :
    e.withId id = .sliceEnd track ts ↔ e = .sliceEnd track ts := by
  cases e with
  | legacyFlow track phase => cases phase <;> simp [withId]
  | sliceBegin | sliceEnd | flowBegin | flowStep | flowEnd => simp [withId]

@[simp] theorem FlowEvent.parks_withId (f : FlowEvent) : (f.withId id).parks = f.parks := by
  cases hp : f.phase <;> simp [withId, parks, hp]

@[simp] theorem FlowEvent.meeting_withId (f : FlowEvent) (top : Option SliceId) :
    (f.withId id).meeting top = f.meeting top := rfl

end Names

/-! ## What the events tell -/

section Told

variable (id : FlowName → FlowId)

theorem begun_map_withId (events : List Event) : begun (events.map (Event.withId id)) = begun events := by
  unfold begun
  rw [List.countP_map]
  congr 1
  funext e
  rcases e.cases_flow with ⟨track, ts, name, rfl⟩ | ⟨track, ts, rfl⟩ | ⟨f, hf⟩
  · rfl
  · rfl
  · have hf' : (e.withId id).flow? = some (f.withId id) := by simp [hf]
    rw [Event.begins_of_flow hf]
    exact Event.begins_of_flow hf'

theorem openOn_map_withId (track : Track) (events : List Event) :
    openOn track (events.map (Event.withId id)) = openOn track events := by
  induction events using List.reverseRecOn with
  | nil => rfl
  | append_singleton events e ih =>
    rw [List.map_append, List.map_singleton]
    rcases e.cases_flow with ⟨t, ts, name, rfl⟩ | ⟨t, ts, rfl⟩ | ⟨f, hf⟩
    · rw [Event.withId, openOn_begin, openOn_begin, ih, begun_map_withId]
    · rw [Event.withId, openOn_end, openOn_end, ih]
    · have hf' : (e.withId id).flow? = some (f.withId id) := by simp [hf]
      rw [openOn_of_flow hf, openOn_of_flow hf', ih]

theorem open_map_withId (track : Track) (k : Nat) (slice : SliceId) (events : List Event) :
    Open track k slice (events.map (Event.withId id)) ↔ Open track k slice events := by
  rw [← getElem?_openOn, ← getElem?_openOn, openOn_map_withId]

theorem parkedOn_map_withId (track : Track) (events : List Event) :
    parkedOn track (events.map (Event.withId id)) = (parkedOn track events).map fun n => .explicit (id n) := by
  induction events using List.reverseRecOn with
  | nil => rfl
  | append_singleton events e ih =>
    rw [List.map_append, List.map_singleton, parkedOn_concat, parkedOn_concat, ih]
    rcases e.cases_flow with ⟨t, ts, name, rfl⟩ | ⟨t, ts, rfl⟩ | ⟨f, hf⟩
    · by_cases ht : t = track <;> simp [park, Event.withId, Event.opens, Event.flow?, ht]
    · simp [park, Event.withId, Event.opens, Event.flow?]
    · have hf' : (e.withId id).flow? = some (f.withId id) := by simp [hf]
      rw [park_of_flow hf, park_of_flow hf', FlowEvent.parks_withId, Event.track_withId]
      split
      · rw [List.map_append]
        rfl
      · rfl

/-- Under their ids flows meet what they have met under their names. -/
theorem encounters_map_withId (before : List Event) (e : Event) :
    encounters (before.map (Event.withId id)) (e.withId id) =
      (encounters before e).map fun m => (.explicit (id m.1), m.2) := by
  rcases e.cases_flow with ⟨t, ts, name, rfl⟩ | ⟨t, ts, rfl⟩ | ⟨f, hf⟩
  · simp [encounters, Event.withId, parkedOn_map_withId, begun_map_withId, Function.comp_def]
  · rfl
  · have hf' : (e.withId id).flow? = some (f.withId id) := by simp [hf]
    rw [encounters_of_flow hf, encounters_of_flow hf', FlowEvent.parks_withId, Event.track_withId, openOn_map_withId]
    split <;> rfl

theorem along_beginnings_map_withId (events : List Event) :
    along beginnings (events.map (Event.withId id)) = along beginnings events := by
  induction events using List.reverseRecOn with
  | nil => rfl
  | append_singleton events e ih =>
    rw [List.map_append, List.map_singleton, along_concat, along_concat, ih]
    congr 1
    rcases e.cases_flow with ⟨t, ts, name, rfl⟩ | ⟨t, ts, rfl⟩ | ⟨f, hf⟩
    · simp [beginnings, Event.withId, openOn_map_withId]
    · rfl
    · have hf' : (e.withId id).flow? = some (f.withId id) := by simp [hf]
      rw [beginnings_of_flow hf, beginnings_of_flow hf']

theorem ended_map_withId (slice : SliceId) (ts : Int) (events : List Event) :
    Ended slice ts (events.map (Event.withId id)) ↔ Ended slice ts events := by
  induction events using List.reverseRecOn with
  | nil => rfl
  | append_singleton events e ih =>
    rw [List.map_append, List.map_singleton, ended_concat, ended_concat, ih]
    simp only [Event.withId_eq_sliceEnd_iff, open_map_withId]

end Told

/-! ## Slices -/

theorem getElem?_sliceSummaries (strings : Numbering String) (rows : List Slice) (first : SliceId) (i : Nat) :
    (sliceSummaries strings first rows)[i]? =
      rows[i]?.map fun s =>
        ⟨first + i, s.track, (strings.get? s.name).getD "", s.ts, s.dur?, s.depth⟩ := by
  induction rows generalizing first i with
  | nil => rfl
  | cons s rows ih =>
    cases i with
    | zero => rfl
    | succ i =>
      rw [sliceSummaries, List.getElem?_cons_succ, List.getElem?_cons_succ, ih]
      simp [Nat.add_assoc, Nat.add_comm 1 i]

section Slices

variable (id : FlowName → FlowId) (events : List Event)

theorem beginning_map_withId (i : SliceId) :
    ((replay (events.map (Event.withId id))).slices.get? i).map
        (Slice.beginning (replay (events.map (Event.withId id))).strings) =
      ((replay events).slices.get? i).map (Slice.beginning (replay events).strings) := by
  unfold SliceTable.get?
  rw [← List.getElem?_map, ← List.getElem?_map, beginnings_replay, beginnings_replay, along_beginnings_map_withId]

/-- A slice ends at the same times, so it has the same duration. -/
theorem sliceSummaries_map_withId :
    sliceSummaries (replay (events.map (Event.withId id))).strings 0
        (replay (events.map (Event.withId id))).slices.rows =
      sliceSummaries (replay events).strings 0 (replay events).slices.rows := by
  refine List.ext_getElem? fun i => ?_
  have hb := beginning_map_withId id events i
  rw [getElem?_sliceSummaries, getElem?_sliceSummaries]
  unfold SliceTable.get? at hb
  cases hs : (replay events).slices.rows[i]? with
  | none =>
    rw [hs, Option.map_none, Option.map_eq_none_iff] at hb
    rw [hb]
    rfl
  | some s =>
    rw [hs, Option.map_some, Option.map_eq_some_iff] at hb
    obtain ⟨s', hs', hb⟩ := hb
    simp only [Slice.beginning, Beginning.mk.injEq] at hb
    obtain ⟨htrack, hts, hname, hdepth, -⟩ := hb
    have hdur : s'.dur? = s.dur? := by
      refine Option.ext fun d => ?_
      rw [timed_replay _ i s' hs' d, timed_replay _ i s hs d]
      simp only [ended_map_withId, Slice.duration?, hts]
    rw [hs']
    simp only [Option.map_some, htrack, hts, hname, hdepth, hdur]

end Slices

/-! ## Flows -/

/-- Of the given flows and the ids that each state knows them by, the states have the same edges, counters and
endpoints. -/
structure Agrees (ns : List FlowName) (old new : FlowName → FlowId) (t t' : Timeline) : Prop where
  edges : t'.edges = t.edges
  counters : t'.counters = t.counters
  endpoints : ∀ n ∈ ns, t'.endpoint? (new n) = t.endpoint? (old n)

section Agrees

variable {ns : List FlowName} {old new : FlowName → FlowId} {t t' : Timeline}
  (hids : ∀ a ∈ ns, ∀ b ∈ ns, old a = old b ↔ new a = new b)
include hids

theorem Agrees.meet (h : Agrees ns old new t t') {n : FlowName} (hn : n ∈ ns) (m : Meeting) :
    Agrees ns old new (t.meet (old n) m) (t'.meet (new n) m) := by
  refine ⟨?_, ?_, ?_⟩
  · rw [edges_meet, edges_meet, h.edges, h.endpoints n hn]
  · rw [counters_meet, counters_meet, h.counters, h.endpoints n hn]
  · intro b hb
    rw [endpoint?_meet, endpoint?_meet, h.endpoints n hn, h.endpoints b hb]
    simp only [hids n hn b hb]

theorem Agrees.meetAll (h : Agrees ns old new t t') {ms : List (FlowName × Meeting)} (hms : ∀ m ∈ ms, m.1 ∈ ns) :
    Agrees ns old new (t.meetAll (ms.map fun m => (old m.1, m.2))) (t'.meetAll (ms.map fun m => (new m.1, m.2))) := by
  induction ms generalizing t t' with
  | nil => exact h
  | cons m ms ih =>
    exact ih (h.meet hids (hms m List.mem_cons_self) m.2) fun m' hm' => hms m' (List.mem_cons_of_mem m hm')

end Agrees

/-- Whether an end is valid, the time of the slice's begin tells. -/
theorem counters_apply_end_withId (id : FlowName → FlowId) (events : List Event) (track : Track) (ts : Int)
    (h : (replay (events.map (Event.withId id))).counters = (replay events).counters) :
    ((replay (events.map (Event.withId id))).apply (.sliceEnd track ts)).counters =
      ((replay events).apply (.sliceEnd track ts)).counters := by
  have hstack : (replay (events.map (Event.withId id))).stack track = (replay events).stack track := by
    rw [stack_replay, stack_replay, openOn_map_withId]
  cases hs : (replay events).stack track with
  | nil =>
    rw [apply_end_of_nil _ hs, apply_end_of_nil _ (hstack.trans hs), count, count, h]
  | cons slice around =>
    have hts : ((replay (events.map (Event.withId id))).slices.get? slice).map Slice.ts =
        ((replay events).slices.get? slice).map Slice.ts := by
      have hbeginning := congrArg (Option.map Beginning.ts) (beginning_map_withId id events slice)
      rwa [Option.map_map, Option.map_map] at hbeginning
    have hclose (slices : SliceTable) : (slices.close slice ts).1 = ((slices.get? slice).map Slice.ts).bind fun first =>
        if 0 ≤ ts - first ∧ ts - first ≤ maxDuration then some (ts - first) else none := by
      rw [SliceTable.fst_close]
      cases slices.get? slice <;> rfl
    have hduration : ((replay (events.map (Event.withId id))).slices.close slice ts).1 =
        ((replay events).slices.close slice ts).1 := by
      rw [hclose, hclose, hts]
    rw [apply_end_of_cons _ hs, apply_end_of_cons _ (hstack.trans hs)]
    simp only [hduration, h]

theorem agrees_replay {all : List Event} {id : FlowName → FlowId}
    (hids : ∀ a ∈ names all, ∀ b ∈ names all, number all a = number all b ↔ id a = id b) {events : List Event}
    (hp : events <+: all) :
    Agrees (names all) (number all) id (replay events) (replay (events.map (Event.withId id))) := by
  induction events using List.reverseRecOn with
  | nil => exact ⟨rfl, rfl, fun _ _ => rfl⟩
  | append_singleton events e ih =>
    have h := ih ((List.prefix_append _ _).trans hp)
    have hmem : ∀ m ∈ encounters events e, m.1 ∈ names all := fun m hm =>
      mem_names_of_isPrefix hp (mem_names_of_mem_encounters hm)
    have hold : (replay events).meetings e = (encounters events e).map fun m => (number all m.1, m.2) := by
      rw [meetings_replay]
      refine List.map_congr_left fun m hm => ?_
      have hn := mem_names_of_mem_encounters hm
      rw [number_of_isPrefix hp hn, number_concat hn]
    have hnew : (replay (events.map (Event.withId id))).meetings (e.withId id) =
        (encounters events e).map fun m => (id m.1, m.2) := by
      rw [meetings_replay, encounters_map_withId, List.map_map]
      rfl
    have hprepare : Agrees (names all) (number all) id ((replay events).prepare e)
        ((replay (events.map (Event.withId id))).prepare (e.withId id)) := by
      refine ⟨?_, ?_, ?_⟩
      · rw [(prepare_fields _ _).2, (prepare_fields _ _).2, h.edges]
      · rcases e.cases_flow with ⟨track, ts, name, rfl⟩ | ⟨track, ts, rfl⟩ | ⟨f, hf⟩
        · exact h.counters
        · exact counters_apply_end_withId id events track ts h.counters
        · have hf' : (e.withId id).flow? = some (f.withId id) := by simp [hf]
          rw [prepare_of_flow hf, prepare_of_flow hf', FlowEvent.parks_withId]
          split <;> simp [parkEnd, h.counters]
      · intro n hn
        rw [endpoint?_prepare, endpoint?_prepare, h.endpoints n hn]
    rw [List.map_append, List.map_singleton, replay_concat, replay_concat, apply_eq_meetAll, apply_eq_meetAll, hold,
      hnew]
    exact hprepare.meetAll hids hmem

/-- New ids that keep apart what has been told apart, and nothing else, leave the summary as it is. -/
theorem summarize_of_number_iff {events : List Event} {id : FlowName → FlowId}
    (hids : ∀ a ∈ names events, ∀ b ∈ names events, number events a = number events b ↔ id a = id b) :
    summarize (events.map (Event.withId id)) = summarize events := by
  have h := agrees_replay hids (List.prefix_refl events)
  unfold summarize summary
  rw [sliceSummaries_map_withId, h.edges, h.counters, List.length_map]

/-- Flows of one kind do not share ids. -/
theorem number_injOn {events : List Event}
    (hkind : (∀ n ∈ names events, n.isLegacy = true) ∨ ∀ n ∈ names events, n.isLegacy = false) {a b : FlowName}
    (ha : a ∈ names events) (hb : b ∈ names events) (h : number events a = number events b) : a = b := by
  have hlegacy : a.isLegacy = b.isLegacy := by
    rcases hkind with hk | hk <;> rw [hk a ha, hk b hb]
  cases (number_eq_iff ha hb).1 h with
  | refl => rfl
  | explicit hplace =>
    have hb' := (mem_legacyNames.1 (List.mem_of_getElem? hplace)).2
    rw [hb'] at hlegacy
    cases hlegacy
  | legacy hplace =>
    have ha' := (mem_legacyNames.1 (List.mem_of_getElem? hplace)).2
    rw [ha'] at hlegacy
    cases hlegacy

/-- In a run whose flows all come without an id, each may be given one, as long as no two get the same; and in a run
whose flows all have ids, these may be changed. The summary stays the same: slices with their names, edges in their
order and counters. -/
theorem summarize_withId (events : List Event) (id : FlowName → FlowId)
    (hkind : (∀ n ∈ names events, n.isLegacy = true) ∨ ∀ n ∈ names events, n.isLegacy = false)
    (hid : ∀ a ∈ names events, ∀ b ∈ names events, id a = id b → a = b) :
    summarize (events.map (Event.withId id)) = summarize events := by
  refine summarize_of_number_iff fun a ha b hb => ⟨?_, ?_⟩
  · intro h
    rw [number_injOn hkind ha hb h]
  · intro h
    rw [hid a ha b hb h]

/-- Two flows without ids that begin at one slice. One is led on by a step, the other by an end that waits. -/
def twoLegacy : List Event :=
  [.sliceBegin 1 0 "a", .legacyFlow 1 .start 7 "" "f" false, .legacyFlow 1 .start 7 "c" "f" true, .sliceBegin 2 3 "f",
   .legacyFlow 2 .finish 7 "c" "f" false, .legacyFlow 2 .step 7 "" "f" true, .sliceBegin 2 5 "c", .sliceEnd 2 9]

/-- The ids that the two flows have not had of themselves. -/
def crossedIds : FlowName → FlowId
  | .explicit id => id
  | .legacy _ category _ => if category = "" then 1 else 0

theorem summarize_withId_crossed :
    (∀ n ∈ names twoLegacy, n.isLegacy = true) ∧
      (∀ a ∈ names twoLegacy, ∀ b ∈ names twoLegacy, crossedIds a = crossedIds b → a = b) ∧
      (summarize (twoLegacy.map (Event.withId crossedIds))).edges = [⟨0, 1⟩, ⟨0, 2⟩] := by
  have hkind : ∀ n ∈ names twoLegacy, n.isLegacy = true := by decide
  have hid : ∀ a ∈ names twoLegacy, ∀ b ∈ names twoLegacy, crossedIds a = crossedIds b → a = b := by decide
  refine ⟨hkind, hid, ?_⟩
  rw [summarize_withId twoLegacy crossedIds (Or.inl hkind) hid]
  decide

end TraceTables.Timeline
