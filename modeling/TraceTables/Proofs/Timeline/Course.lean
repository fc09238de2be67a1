import TraceTables.Proofs.Timeline.Waiting

/-! Each flow is an automaton of its own. It is closed or open at a slice, and what it meets, and nothing else, leads it
on; the edges of a run are those of its flows. -/

namespace TraceTables.Timeline

/-- The course of a flow that is closed or open at a slice: where it ends, and the edges on its way. -/
def Meeting.run : Option SliceId → List Meeting → Option SliceId × List Edge
  | endpoint, [] => (endpoint, [])
  | endpoint, m :: ms => ((run (m.next endpoint) ms).1, (m.edge? endpoint).toList ++ (run (m.next endpoint) ms).2)

theorem Meeting.run_append (endpoint : Option SliceId) (ms ms' : List Meeting) :
    run endpoint (ms ++ ms') =
      ((run (run endpoint ms).1 ms').1, (run endpoint ms).2 ++ (run (run endpoint ms).1 ms').2) := by
  induction ms generalizing endpoint with
  | nil => rfl
  | cons m ms ih => simp [run, ih]

/-- What belongs to one flow. -/
def own {α : Type} (flow : FlowId) (items : List (FlowId × α)) : List α :=
  (items.filter fun x => x.1 = flow).map Prod.snd

@[simp] theorem own_append {α : Type} (flow : FlowId) (xs ys : List (FlowId × α)) :
    own flow (xs ++ ys) = own flow xs ++ own flow ys := by
  simp [own]

theorem own_cons {α : Type} (flow : FlowId) (x : FlowId × α) (xs : List (FlowId × α)) :
    own flow (x :: xs) = if x.1 = flow then x.2 :: own flow xs else own flow xs := by
  by_cases h : x.1 = flow <;> simp [own, h]

theorem own_map_mk {α : Type} (flow other : FlowId) (xs : List α) :
    own other (xs.map (flow, ·)) = if flow = other then xs else [] := by
  by_cases h : flow = other <;> simp [own, List.filter_map, Function.comp_def, h]

/-- The edges that meetings add, each with its flow. -/
def added (t : Timeline) : List (FlowId × Meeting) → List (FlowId × Edge)
  | [] => []
  | m :: ms =>
    ((t.meet m.1 m.2).edges.drop t.edges.length).map (m.1, ·) ++ added (t.meet m.1 m.2) ms

/-- The edges that an event adds, each with its flow. -/
def made (t : Timeline) (e : Event) : List (FlowId × Edge) := (t.prepare e).added (t.meetings e)

theorem drop_edges_meet (t : Timeline) (flow : FlowId) (m : Meeting) :
    (t.meet flow m).edges.drop t.edges.length = (m.edge? (t.endpoint? flow)).toList := by
  rw [edges_meet, List.drop_left]

theorem edges_meetAll (t : Timeline) (ms : List (FlowId × Meeting)) :
    (t.meetAll ms).edges = t.edges ++ (t.added ms).map Prod.snd := by
  induction ms generalizing t with
  | nil => simp [meetAll, added]
  | cons m ms ih =>
    have h := ih (t.meet m.1 m.2)
    simp only [meetAll, List.foldl_cons] at h ⊢
    rw [h, edges_meet, added, drop_edges_meet]
    simp [Function.comp_def]

/-- A flow goes its course whatever others meet. -/
theorem run_own (t : Timeline) (flow : FlowId) (ms : List (FlowId × Meeting)) :
    Meeting.run (t.endpoint? flow) (own flow ms) = ((t.meetAll ms).endpoint? flow, own flow (t.added ms)) := by
  induction ms generalizing t with
  | nil => rfl
  | cons m ms ih =>
    have h := ih (t.meet m.1 m.2)
    rw [endpoint?_meet] at h
    rw [own_cons, added, own_append, own_map_mk, drop_edges_meet]
    by_cases hm : m.1 = flow
    · subst hm
      rw [if_pos rfl] at h
      simp only [if_pos, Meeting.run, h]
      rfl
    · rw [if_neg hm] at h
      simp only [hm, if_false, h]
      rfl

/-- What an event changes first, is no endpoint and no edge. -/
theorem prepare_fields (t : Timeline) (e : Event) :
    (t.prepare e).endpoints = t.endpoints ∧ (t.prepare e).edges = t.edges := by
  rcases e.cases_flow with ⟨track, ts, name, rfl⟩ | ⟨track, ts, rfl⟩ | ⟨f, hf⟩
  · exact ⟨rfl, rfl⟩
  · obtain ⟨-, hedges, hendpoints, -⟩ := flows_apply_end t track ts
    exact ⟨hendpoints, hedges⟩
  · rw [prepare_of_flow hf]
    split <;> simp [parkEnd]

theorem endpoint?_prepare (t : Timeline) (e : Event) (flow : FlowId) :
    (t.prepare e).endpoint? flow = t.endpoint? flow := by
  unfold endpoint?
  rw [(prepare_fields t e).1]

theorem edges_apply (t : Timeline) (e : Event) : (t.apply e).edges = t.edges ++ (t.made e).map Prod.snd := by
  rw [apply_eq_meetAll, edges_meetAll, (prepare_fields t e).2, made]

/-- All edges of a run, each with its flow. -/
def edgeLog (events : List Event) : List (FlowId × Edge) := along (fun before e => (replay before).made e) events

theorem edgeLog_concat (events : List Event) (e : Event) :
    edgeLog (events ++ [e]) = edgeLog events ++ (replay events).made e :=
  along_concat _ events e

theorem edges_replay (events : List Event) : (replay events).edges = (edgeLog events).map Prod.snd := by
  induction events using List.reverseRecOn with
  | nil => rfl
  | append_singleton events e ih =>
    rw [replay_concat, edges_apply, ih, edgeLog_concat, List.map_append]

/-- What a flow meets in a run, by the events alone. -/
def received (flow : FlowId) (events : List Event) : List Meeting :=
  own flow ((along encounters events).map fun m => (number events m.1, m.2))

theorem received_concat (flow : FlowId) (events : List Event) (e : Event) :
    received flow (events ++ [e]) = received flow events ++ own flow ((replay events).meetings e) := by
  unfold received
  rw [← along_meetings, along_concat, own_append, along_meetings]

/-- A flow goes its course in a run. -/
theorem run_received (events : List Event) (flow : FlowId) :
    Meeting.run none (received flow events) = ((replay events).endpoint? flow, own flow (edgeLog events)) := by
  induction events using List.reverseRecOn with
  | nil => rfl
  | append_singleton events e ih =>
    have h := run_own ((replay events).prepare e) flow ((replay events).meetings e)
    rw [endpoint?_prepare, ← apply_eq_meetAll] at h
    rw [received_concat, Meeting.run_append, ih, h, replay_concat, edgeLog_concat, own_append]
    rfl

theorem mem_map_edge? {flow f : FlowId} {m : Meeting} {endpoint : Option SliceId} {edge : Edge} :
    (flow, edge) ∈ (m.edge? endpoint).toList.map (f, ·) ↔
      flow = f ∧ endpoint = some edge.source ∧ m.target? = some edge.target := by
  rw [← Meeting.edge?_eq_some_iff]
  cases m.edge? endpoint with
  | none => simp
  | some edge' => simp [eq_comm]

theorem mem_added_openings {t : Timeline} {slice : SliceId} {flows : List FlowId} {flow : FlowId} {edge : Edge} :
    (flow, edge) ∈ t.added (flows.map fun f => (f, .opening slice)) ↔
      flow ∈ flows ∧ t.endpoint? flow = some edge.source ∧ edge.target = slice := by
  induction flows generalizing t with
  | nil => simp [added]
  | cons f flows ih =>
    rw [List.map_cons, added, drop_edges_meet, List.mem_append, mem_map_edge?, ih, endpoint?_meet_opening,
      List.mem_cons, or_and_right]
    refine or_congr_left ?_
    constructor
    · rintro ⟨rfl, he, ht⟩
      cases ht
      exact ⟨rfl, he, rfl⟩
    · rintro ⟨rfl, he, rfl⟩
      exact ⟨rfl, he, rfl⟩

theorem mem_made_begin {t : Timeline} {track : Track} {ts : Int} {name : String} {flow : FlowId} {edge : Edge} :
    (flow, edge) ∈ t.made (.sliceBegin track ts name) ↔
      flow ∈ t.waiting track ∧ t.endpoint? flow = some edge.source ∧ edge.target = t.slices.nextId :=
  mem_added_openings

theorem mem_made_of_flow {t : Timeline} {e : Event} {f : FlowEvent} (h : e.flow? = some f) {flow : FlowId}
    {edge : Edge} :
    (flow, edge) ∈ t.made e ↔ f.parks = false ∧ flow = (t.identify f.name).1 ∧
      t.endpoint? flow = some edge.source ∧ (f.meeting (t.top? e.track)).target? = some edge.target := by
  rw [made, meetings_of_flow h]
  cases hp : f.parks with
  | true => simp [added]
  | false =>
    simp only [Bool.false_eq_true, if_false, added, drop_edges_meet, List.append_nil, mem_map_edge?,
      endpoint?_prepare, true_and]
    refine and_congr_right ?_
    rintro rfl
    rfl

/-- The event is a begin of the flow while it is closed, or a step while it is open, and the slice is the innermost
open one of its track. -/
def Binds (before : List Event) (e : Event) (n : FlowName) (slice : SliceId) : Prop :=
  ∃ f, e.flow? = some f ∧ f.name = n ∧ Open e.track 0 slice before ∧
    (f.phase = .start ∧ (replay before).endpoint? (number before n) = none ∨
      f.phase = .step ∧ ((replay before).endpoint? (number before n)).isSome = true)

/-- An event of that name has bound a flow to the slice, and none has bound a flow with this id since. -/
def LastBound (events : List Event) (n : FlowName) (slice : SliceId) : Prop :=
  ∃ before e, before ++ [e] <+: events ∧ Binds before e n slice ∧
    ∀ later e' n' slice', later ++ [e'] <+: events → before.length < later.length →
      number later n' = number before n → ¬ Binds later e' n' slice'

/-- The event is a bound end of the flow, and a slice is open on its track. -/
def Unbinds (before : List Event) (e : Event) (n : FlowName) : Prop :=
  ∃ f slice, e.flow? = some f ∧ f.name = n ∧ f.phase = .finish ∧ f.bindEnclosing = true ∧ Open e.track 0 slice before

/-- An event of that name has bound a flow to the slice, and since then none has bound or ended a flow with this id. -/
def Held (events : List Event) (n : FlowName) (slice : SliceId) : Prop :=
  ∃ before e, before ++ [e] <+: events ∧ Binds before e n slice ∧
    ∀ later e' n', later ++ [e'] <+: events → before.length < later.length → number later n' = number before n →
      (∀ slice', ¬ Binds later e' n' slice') ∧ ¬ Unbinds later e' n'

theorem Binds.mem_names {before : List Event} {e : Event} {n : FlowName} {slice : SliceId}
    (h : Binds before e n slice) : n ∈ names (before ++ [e]) := by
  obtain ⟨f, hf, rfl, -⟩ := h
  rw [names_concat_of_flow hf]
  exact List.mem_append_right _ List.mem_cons_self

theorem LastBound.mem_names {events : List Event} {n : FlowName} {slice : SliceId} (h : LastBound events n slice) :
    n ∈ names events := by
  obtain ⟨before, e, hp, hb, -⟩ := h
  exact mem_names_of_isPrefix hp hb.mem_names

theorem Held.lastBound {events : List Event} {n : FlowName} {slice : SliceId} (h : Held events n slice) :
    LastBound events n slice := by
  obtain ⟨before, e, hp, hb, hsince⟩ := h
  exact ⟨before, e, hp, hb, fun later e' n' slice' hp' hlt hn => (hsince later e' n' hp' hlt hn).1 slice'⟩

/-- A flow is bound by the last event, or it was and the last event leaves it alone. -/
theorem held_concat_iff {events : List Event} {e : Event} {n : FlowName} {slice : SliceId} :
    Held (events ++ [e]) n slice ↔ Binds events e n slice ∨
      Held events n slice ∧ ∀ n', number events n' = number events n →
        (∀ slice', ¬ Binds events e n' slice') ∧ ¬ Unbinds events e n' := by
  constructor
  · rintro ⟨before, b, hp, hb, hsince⟩
    rcases List.prefix_concat_iff.1 hp with h | h
    · obtain ⟨rfl, rfl⟩ := List.append_singleton_inj.1 h
      exact Or.inl hb
    · right
      have hlt : before.length < events.length := by
        have hle := h.length_le
        rw [List.length_append, List.length_singleton] at hle
        omega
      have hn : number events n = number before n := by
        rw [number_of_isPrefix h hb.mem_names, number_concat hb.mem_names]
      refine ⟨⟨before, b, h, hb, fun later e' n' hp' => hsince later e' n' (hp'.trans (List.prefix_append _ _))⟩, ?_⟩
      intro n' hn'
      exact hsince events e n' (List.prefix_refl _) hlt (hn'.trans hn)
  · rintro (hb | ⟨⟨before, b, hp, hb, hsince⟩, hno⟩)
    · refine ⟨events, e, List.prefix_refl _, hb, ?_⟩
      intro later e' n' hp hlt
      have hle := hp.length_le
      simp only [List.length_append, List.length_singleton] at hle
      omega
    · refine ⟨before, b, hp.trans (List.prefix_append _ _), hb, ?_⟩
      intro later e' n' hp' hlt hn
      rcases List.prefix_concat_iff.1 hp' with h | h
      · obtain ⟨rfl, rfl⟩ := List.append_singleton_inj.1 h
        refine hno n' (hn.trans ?_)
        rw [number_of_isPrefix hp hb.mem_names, number_concat hb.mem_names]
      · exact hsince later e' n' h hlt hn

theorem Meeting.next_cases (m : Meeting) (endpoint : Option SliceId) :
    m.next endpoint = endpoint ∨ ∃ slice, m = .start (some slice) ∧ endpoint = none ∨
      m = .step (some slice) ∧ endpoint.isSome = true ∨ m = .finish (some slice) := by
  cases m with
  | start top | step top | finish top => cases top <;> cases endpoint <;> simp [next]
  | opening slice => exact Or.inl rfl

theorem endpoint?_apply_of_flow (t : Timeline) {e : Event} {f : FlowEvent} (h : e.flow? = some f) (flow : FlowId) :
    (t.apply e).endpoint? flow =
      if f.parks = false ∧ (t.identify f.name).1 = flow then (f.meeting (t.top? e.track)).next (t.endpoint? flow)
      else t.endpoint? flow := by
  cases hp : f.parks with
  | true =>
    rw [apply_of_parks h hp]
    simp [endpoint?, parkEnd]
  | false =>
    rw [apply_of_not_parks h hp, endpoint?_meet]
    by_cases hf : (t.identify f.name).1 = flow <;> simp [hf]

theorem endpoint?_meetAll_openings (t : Timeline) (slice : SliceId) (flows : List FlowId) (flow : FlowId) :
    (t.meetAll (flows.map fun f => (f, .opening slice))).endpoint? flow = t.endpoint? flow := by
  induction flows generalizing t with
  | nil => rfl
  | cons f flows ih =>
    refine (ih (t.meet f (.opening slice))).trans ?_
    rw [endpoint?_meet_opening]

theorem endpoint?_apply_of_none (t : Timeline) {e : Event} (h : e.flow? = none) (flow : FlowId) :
    (t.apply e).endpoint? flow = t.endpoint? flow := by
  rcases e.cases_flow with ⟨track, ts, name, rfl⟩ | ⟨track, ts, rfl⟩ | ⟨f, hf⟩
  · rw [apply_eq_meetAll]
    exact (endpoint?_meetAll_openings _ _ _ _).trans (endpoint?_prepare t _ flow)
  · unfold endpoint?
    rw [(flows_apply_end t track ts).2.2.1]
  · rw [h] at hf
    cases hf

theorem endpoint?_of_binds {events : List Event} {e : Event} {n : FlowName} {slice : SliceId}
    (h : Binds events e n slice) : (replay (events ++ [e])).endpoint? (number events n) = some slice := by
  obtain ⟨f, hf, rfl, ho, hcase⟩ := h
  rw [replay_concat, endpoint?_apply_of_flow _ hf, (named_replay events).fst_identify, (top?_replay _ _ _).2 ho]
  rcases hcase with ⟨hphase, hnone⟩ | ⟨hphase, hsome⟩
  · simp [FlowEvent.parks, FlowEvent.meeting, Meeting.next, hphase, hnone]
  · obtain ⟨source, hsource⟩ := Option.isSome_iff_exists.1 hsome
    simp [FlowEvent.parks, FlowEvent.meeting, Meeting.next, hphase, hsource]

theorem endpoint?_of_unbinds {events : List Event} {e : Event} {n : FlowName} (h : Unbinds events e n) :
    (replay (events ++ [e])).endpoint? (number events n) = none := by
  obtain ⟨f, slice, hf, rfl, hphase, hbind, ho⟩ := h
  rw [replay_concat, endpoint?_apply_of_flow _ hf, (named_replay events).fst_identify, (top?_replay _ _ _).2 ho]
  cases (replay events).endpoint? (number events f.name) <;>
    simp [FlowEvent.parks, FlowEvent.meeting, Meeting.next, hphase, hbind]

/-- What neither binds a flow nor ends it, leaves it where it is open. -/
theorem endpoint?_of_untouched {events : List Event} {e : Event} {flow : FlowId}
    (hno : ∀ n, number events n = flow → (∀ slice, ¬ Binds events e n slice) ∧ ¬ Unbinds events e n) :
    (replay (events ++ [e])).endpoint? flow = (replay events).endpoint? flow := by
  rw [replay_concat]
  cases he : e.flow? with
  | none => exact endpoint?_apply_of_none _ he flow
  | some f =>
    rw [endpoint?_apply_of_flow _ he, (named_replay events).fst_identify]
    split
    · rename_i hmine
      obtain ⟨hparks, rfl⟩ := hmine
      obtain ⟨hbinds, hunbinds⟩ := hno f.name rfl
      rcases (f.meeting _).next_cases _ with h | ⟨slice, ⟨hm, hnone⟩ | ⟨hm, hsome⟩ | hm⟩
      · exact h
      · obtain ⟨hphase, htop⟩ := FlowEvent.meeting_eq_start_iff.1 hm
        exact absurd ⟨f, he, rfl, (top?_replay _ _ _).1 htop, Or.inl ⟨hphase, hnone⟩⟩ (hbinds slice)
      · obtain ⟨hphase, htop⟩ := FlowEvent.meeting_eq_step_iff.1 hm
        exact absurd ⟨f, he, rfl, (top?_replay _ _ _).1 htop, Or.inr ⟨hphase, hsome⟩⟩ (hbinds slice)
      · obtain ⟨hphase, htop⟩ := FlowEvent.meeting_eq_finish_iff.1 hm
        have hbind : f.bindEnclosing = true := by simpa [FlowEvent.parks, hphase] using hparks
        exact absurd ⟨f, slice, he, rfl, hphase, hbind, (top?_replay _ _ _).1 htop⟩ hunbinds
    · rfl

theorem Held.mem_names {events : List Event} {n : FlowName} {slice : SliceId} (h : Held events n slice) :
    n ∈ names events := h.lastBound.mem_names

/-- A flow is open exactly where it is held. -/
theorem endpoint?_eq_some_iff_held {events : List Event} {flow : FlowId} {slice : SliceId} :
    (replay events).endpoint? flow = some slice ↔ ∃ n, number events n = flow ∧ Held events n slice := by
  induction events using List.reverseRecOn generalizing flow slice with
  | nil =>
    constructor
    · rintro ⟨⟩
    · rintro ⟨n, -, before, e, hp, -⟩
      exact absurd (List.prefix_nil.1 hp) (by simp)
  | append_singleton events e ih =>
    constructor
    · intro h
      by_cases hb : ∃ n slice', number events n = flow ∧ Binds events e n slice'
      · obtain ⟨n, slice', rfl, hb⟩ := hb
        rw [endpoint?_of_binds hb] at h
        cases h
        exact ⟨n, number_concat hb.mem_names, held_concat_iff.2 (Or.inl hb)⟩
      · have hno : ∀ n, number events n = flow → (∀ slice', ¬ Binds events e n slice') ∧ ¬ Unbinds events e n := by
          refine fun n hn => ⟨fun slice' hbinds => hb ⟨n, slice', hn, hbinds⟩, fun hunbinds => ?_⟩
          rw [← hn, endpoint?_of_unbinds hunbinds] at h
          cases h
        rw [endpoint?_of_untouched hno] at h
        obtain ⟨n, rfl, hheld⟩ := ih.1 h
        exact ⟨n, number_of_mem hheld.mem_names, held_concat_iff.2 (Or.inr ⟨hheld, hno⟩)⟩
    · rintro ⟨n, rfl, hheld⟩
      rw [number_concat hheld.mem_names]
      rcases held_concat_iff.1 hheld with hb | ⟨hheld, hno⟩
      · exact endpoint?_of_binds hb
      · rw [endpoint?_of_untouched hno]
        exact ih.2 ⟨n, rfl, hheld⟩

/-- An open flow is open where it was last bound. -/
theorem lastBound_of_endpoint? {events : List Event} {flow : FlowId} {slice : SliceId}
    (h : (replay events).endpoint? flow = some slice) :
    ∃ n, number events n = flow ∧ LastBound events n slice := by
  obtain ⟨n, hn, hheld⟩ := endpoint?_eq_some_iff_held.1 h
  exact ⟨n, hn, hheld.lastBound⟩

/-- Where an edge leads is the innermost open slice of the track of its event. -/
theorem open_target {before : List Event} {e : Event} {flow : FlowId} {edge : Edge}
    (h : (flow, edge) ∈ (replay before).made e) : Open e.track 0 edge.target (before ++ [e]) := by
  rw [open_concat]
  rcases e.cases_flow with ⟨track, ts, name, rfl⟩ | ⟨track, ts, rfl⟩ | ⟨f, hf⟩
  · obtain ⟨-, -, ht⟩ := mem_made_begin.1 h
    left
    refine ⟨by simp [Event.opens, Event.track], rfl, ?_⟩
    rw [ht, ← size_slices_replay]
    rfl
  · cases h
  · obtain ⟨hp, -, -, ht⟩ := (mem_made_of_flow hf).1 h
    right
    refine ⟨0, ?_, by rw [Event.opens_of_flow hf, Event.closes_of_flow hf]⟩
    exact (top?_replay _ _ _).1 (FlowEvent.target?_meeting hp ht).2

theorem endpoint?_of_mem_made {t : Timeline} {e : Event} {flow : FlowId} {edge : Edge}
    (h : (flow, edge) ∈ t.made e) : t.endpoint? flow = some edge.source := by
  rcases e.cases_flow with ⟨track, ts, name, rfl⟩ | ⟨track, ts, rfl⟩ | ⟨f, hf⟩
  · exact (mem_made_begin.1 h).2.1
  · cases h
  · exact ((mem_made_of_flow hf).1 h).2.2.1

theorem LastBound.lt {events : List Event} {n : FlowName} {slice : SliceId} (h : LastBound events n slice) :
    slice < begun events := by
  obtain ⟨before, e, hp, ⟨f, -, -, ho, -⟩, -⟩ := h
  exact Nat.lt_of_lt_of_le ho.lt (begun_le_of_isPrefix ((List.prefix_append _ _).trans hp))

theorem exists_slice_of_lt {events : List Event} {id : SliceId} (h : id < begun events) :
    ∃ s, (replay events).slices.get? id = some s := by
  rw [← size_slices_replay] at h
  exact ⟨_, List.getElem?_eq_getElem h⟩

/-- In every run each flow goes its own course: it is open where its course ends, and the edges made for it are those
of its course. These are all the edges. Each leads from where the flow was last bound to the innermost open slice of the
event's track, and both are there. -/
theorem flow_goes_its_course (events : List Event) (flow : FlowId) :
    ((replay events).endpoint? flow, own flow (edgeLog events)) = Meeting.run none (received flow events) ∧
      (edgeLog events).map Prod.snd = (replay events).edges ∧
      ∀ before e edge, before ++ [e] <+: events → (flow, edge) ∈ (replay before).made e →
        Open e.track 0 edge.target (before ++ [e]) ∧
          (∃ n, number before n = flow ∧ LastBound before n edge.source) ∧
          (∃ s, (replay events).slices.get? edge.source = some s) ∧
          ∃ s, (replay events).slices.get? edge.target = some s := by
  refine ⟨(run_received events flow).symm, (edges_replay events).symm, ?_⟩
  intro before e edge hp h
  have htarget := open_target h
  obtain ⟨n, hn, hsource⟩ := lastBound_of_endpoint? (endpoint?_of_mem_made h)
  have hbefore := begun_le_of_isPrefix ((List.prefix_append _ _).trans hp)
  refine ⟨htarget, ⟨n, hn, hsource⟩, exists_slice_of_lt ?_, exists_slice_of_lt ?_⟩
  · exact Nat.lt_of_lt_of_le hsource.lt hbefore
  · exact Nat.lt_of_lt_of_le htarget.lt (begun_le_of_isPrefix hp)

end TraceTables.Timeline
