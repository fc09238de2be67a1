import TraceTables.Proofs.Timeline.Naming

/-! Ends of flows that wait on a track, by the events alone, and what flows meet by the events alone. -/

namespace TraceTables.Timeline

/-- A slice that opens ends the waiting on its track; an end that does not bind starts to wait. -/
def park (track : Track) (waiting : List FlowName) (e : Event) : List FlowName :=
  if e.opens track then []
  else
    match e.flow? with
    | none => waiting
    | some f => if f.parks && e.track = track then waiting ++ [f.name] else waiting

/-- The ends that wait on a track after the events, in order of arrival. -/
def parkedOn (track : Track) (events : List Event) : List FlowName := events.foldl (park track) []

theorem parkedOn_concat (track : Track) (events : List Event) (e : Event) :
    parkedOn track (events ++ [e]) = park track (parkedOn track events) e := by
  simp [parkedOn]

theorem park_of_flow {e : Event} {f : FlowEvent} (h : e.flow? = some f) (track : Track) (waiting : List FlowName) :
    park track waiting e = if f.parks = true ∧ e.track = track then waiting ++ [f.name] else waiting := by
  simp [park, h, Event.opens_of_flow h]

theorem mem_names_of_mem_parkedOn {track : Track} {n : FlowName} {events : List Event}
    (h : n ∈ parkedOn track events) : n ∈ names events := by
  induction events using List.reverseRecOn with
  | nil => cases h
  | append_singleton events e ih =>
    rw [parkedOn_concat] at h
    cases he : e.flow? with
    | none =>
      rw [names_concat_of_none he]
      simp only [park, he] at h
      split at h
      · cases h
      · exact ih h
    | some f =>
      rw [names_concat_of_flow he]
      rw [park_of_flow he] at h
      split at h
      · rcases List.mem_append.1 h with h | h
        · exact List.mem_append_left _ (ih h)
        · exact List.mem_append_right _ h
      · exact List.mem_append_left _ (ih h)

section Apply

variable (t : Timeline)

theorem Alike.waiting {t t' : Timeline} (h : Alike t t') (track : Track) : t'.waiting track = t.waiting track := by
  unfold Timeline.waiting
  rw [h.parked]

theorem waiting_apply_begin (track : Track) (ts : Int) (name : String) (other : Track) :
    (t.apply (.sliceBegin track ts name)).waiting other = if track = other then [] else t.waiting other := by
  rw [(alike_apply t _).waiting]
  by_cases h : track = other <;> simp [prepare, waiting, h]

theorem waiting_apply_end (track : Track) (ts : Int) (other : Track) :
    (t.apply (.sliceEnd track ts)).waiting other = t.waiting other := by
  unfold waiting
  rw [(flows_apply_end t track ts).2.2.2.1]

theorem waiting_apply_of_flow {e : Event} {f : FlowEvent} (h : e.flow? = some f) (track : Track) :
    (t.apply e).waiting track =
      if f.parks = true ∧ e.track = track then t.waiting track ++ [(t.identify f.name).1] else t.waiting track := by
  rw [(alike_apply t e).waiting, prepare_of_flow h]
  by_cases hp : f.parks = true
  · by_cases ht : e.track = track
    · subst ht
      simp [hp, parkEnd, waiting]
    · simp [hp, ht, parkEnd, waiting]
  · simp [hp]

end Apply

/-- On each track the ends wait that the events leave there. -/
theorem waiting_replay (events : List Event) (track : Track) :
    (replay events).waiting track = (parkedOn track events).map (number events) := by
  induction events using List.reverseRecOn with
  | nil => rfl
  | append_singleton events e ih =>
    have hold : (parkedOn track events).map (number (events ++ [e])) = (parkedOn track events).map (number events) :=
      List.map_congr_left fun n hn => number_of_mem (mem_names_of_mem_parkedOn hn)
    rw [replay_concat, parkedOn_concat]
    rcases e.cases_flow with ⟨t, ts, name, rfl⟩ | ⟨t, ts, rfl⟩ | ⟨f, hf⟩
    · rw [waiting_apply_begin]
      by_cases ht : t = track
      · simp [park, Event.opens, ht]
      · simp [park, Event.opens, Event.flow?, ht, hold, ih]
    · rw [waiting_apply_end]
      simp [park, Event.opens, Event.flow?, hold, ih]
    · rw [waiting_apply_of_flow _ hf, park_of_flow hf, (named_replay events).fst_identify, ih]
      split
      · rw [List.map_append, hold, List.map_singleton, number_of_flow hf]
      · rw [hold]

/-- What flows meet at an event, by the events before it. -/
def encounters (before : List Event) : Event → List (FlowName × Meeting)
  | .sliceBegin track _ _ => (parkedOn track before).map fun n => (n, .opening (begun before))
  | e =>
    match e.flow? with
    | none => []
    | some f => if f.parks then [] else [(f.name, f.meeting (openOn e.track before).head?)]

theorem encounters_of_flow {e : Event} {f : FlowEvent} (h : e.flow? = some f) (before : List Event) :
    encounters before e = if f.parks then [] else [(f.name, f.meeting (openOn e.track before).head?)] := by
  cases e <;> cases h <;> rfl

theorem meetings_replay (before : List Event) (e : Event) :
    (replay before).meetings e = (encounters before e).map fun m => (number before m.1, m.2) := by
  rcases e.cases_flow with ⟨track, ts, name, rfl⟩ | ⟨track, ts, rfl⟩ | ⟨f, hf⟩
  · simp only [meetings, encounters, waiting_replay, List.map_map, Function.comp_def, ← size_slices_replay]
    rfl
  · rfl
  · rw [meetings_of_flow hf, encounters_of_flow hf, (named_replay before).fst_identify, top?, stack_replay]
    split <;> rfl

theorem mem_names_of_mem_encounters {before : List Event} {e : Event} {m : FlowName × Meeting}
    (h : m ∈ encounters before e) : m.1 ∈ names (before ++ [e]) := by
  rcases e.cases_flow with ⟨track, ts, name, rfl⟩ | ⟨track, ts, rfl⟩ | ⟨f, hf⟩
  · obtain ⟨n, hn, rfl⟩ := List.mem_map.1 h
    rw [names_concat_of_none rfl]
    exact mem_names_of_mem_parkedOn hn
  · cases h
  · rw [names_concat_of_flow hf]
    rw [encounters_of_flow hf] at h
    split at h
    · cases h
    · rw [List.mem_singleton.1 h]
      exact List.mem_append_right _ List.mem_cons_self

theorem mem_names_of_mem_along {events : List Event} {m : FlowName × Meeting} (h : m ∈ along encounters events) :
    m.1 ∈ names events := by
  obtain ⟨before, e, hp, hm⟩ := (mem_along encounters).1 h
  exact mem_names_of_isPrefix hp (mem_names_of_mem_encounters hm)

/-- What flows meet in a run. -/
theorem along_meetings (events : List Event) :
    along (fun before e => (replay before).meetings e) events =
      (along encounters events).map fun m => (number events m.1, m.2) := by
  induction events using List.reverseRecOn with
  | nil => rfl
  | append_singleton events e ih =>
    rw [along_concat, along_concat, List.map_append, ih, meetings_replay]
    congr 1
    · refine List.map_congr_left fun m hm => ?_
      rw [number_of_mem (mem_names_of_mem_along hm)]
    · refine List.map_congr_left fun m hm => ?_
      rw [number_concat (mem_names_of_mem_encounters hm)]

end TraceTables.Timeline
