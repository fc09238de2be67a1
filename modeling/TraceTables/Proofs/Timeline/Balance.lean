import TraceTables.Proofs.Assoc
import TraceTables.Proofs.Timeline.Course

/-! Every flow event is accounted for: it opens its flow, makes an edge, waits on its track, or is counted. What waits
is settled when a slice opens on the track. So the events balance with what has become of them. -/

namespace TraceTables.Timeline

/-- What may become of an event of a flow. -/
inductive Outcome where
  | opened
  | connected
  | parked
  | missed (c : Counter)
deriving DecidableEq

/-- The outcome is that of the event. Of endpoints, edges, what waits and the counters, nothing else changes. -/
def Outcome.Comes (t : Timeline) (e : Event) (f : FlowEvent) : Outcome → Prop
  | opened =>
    f.phase = .start ∧ (t.apply e).edges = t.edges ∧ (t.apply e).parked = t.parked ∧
      (t.apply e).counters = t.counters ∧ t.endpoint? (t.identify f.name).1 = none ∧
      ∃ slice, t.top? e.track = some slice ∧
        (t.apply e).endpoints = t.endpoints.insert (t.identify f.name).1 slice
  | connected =>
    (f.phase = .step ∨ f.phase = .finish ∧ f.bindEnclosing = true) ∧ (t.apply e).parked = t.parked ∧
      (t.apply e).counters = t.counters ∧
      ∃ edge, (t.apply e).edges = t.edges ++ [edge] ∧ t.endpoint? (t.identify f.name).1 = some edge.source ∧
        t.top? e.track = some edge.target ∧
        (t.apply e).endpoints = if f.phase = .step then t.endpoints.insert (t.identify f.name).1 edge.target
          else t.endpoints.erase (t.identify f.name).1
  | parked =>
    f.phase = .finish ∧ f.bindEnclosing = false ∧ (t.apply e).edges = t.edges ∧
      (t.apply e).endpoints = t.endpoints ∧ (t.apply e).counters = t.counters ∧
      (t.apply e).parked = t.parked.insert e.track (t.waiting e.track ++ [(t.identify f.name).1])
  | missed c =>
    c.ofFlows = true ∧ (t.apply e).edges = t.edges ∧ (t.apply e).endpoints = t.endpoints ∧
      (t.apply e).parked = t.parked ∧ (t.apply e).counters = t.counters.increment c

theorem Meeting.rebind_of_miss? {m : Meeting} {flow : FlowId} {endpoints : Assoc FlowId SliceId} {c : Counter}
    (h : m.miss? (endpoints.get? flow) = some c) :
    m.rebind flow endpoints = endpoints ∧ m.edge? (endpoints.get? flow) = none := by
  cases m with
  | start top | step top | finish top =>
    cases top <;> cases hp : endpoints.get? flow <;> simp [hp, miss?, rebind, edge?] at h ⊢
  | opening slice => cases hp : endpoints.get? flow <;> simp [hp, miss?, rebind, edge?] at h ⊢

/-- A flow misses, is led on, or begins. -/
theorem Meeting.trichotomy (m : Meeting) (endpoint : Option SliceId) :
    (∃ c, m.miss? endpoint = some c) ∨ (m.miss? endpoint = none ∧ ∃ edge, m.edge? endpoint = some edge) ∨
      (m.miss? endpoint = none ∧ m.edge? endpoint = none ∧ endpoint = none ∧ ∃ slice, m = .start (some slice)) := by
  cases m with
  | start top | step top | finish top => cases top <;> cases endpoint <;> simp [miss?, edge?]
  | opening slice => cases endpoint <;> simp [miss?, edge?]

/-- All that an event does that does not wait. -/
theorem apply_fields {t : Timeline} {e : Event} {f : FlowEvent} (h : e.flow? = some f) (hp : f.parks = false) :
    let flow := (t.identify f.name).1
    let m := f.meeting (t.top? e.track)
    (t.apply e).endpoints = m.rebind flow t.endpoints ∧
      (t.apply e).edges = t.edges ++ (m.edge? (t.endpoint? flow)).toList ∧
      (t.apply e).counters = ((m.miss? (t.endpoint? flow)).map t.counters.increment).getD t.counters ∧
      (t.apply e).parked = t.parked := by
  intro flow m
  rw [apply_of_not_parks h hp, meet_eq]
  simp [flow, m]

theorem exists_comes (t : Timeline) {e : Event} {f : FlowEvent} (h : e.flow? = some f) :
    ∃ o : Outcome, o.Comes t e f := by
  cases hp : f.parks with
  | true =>
    have hphase : f.phase = .finish ∧ f.bindEnclosing = false := by simpa [FlowEvent.parks] using hp
    refine ⟨.parked, hphase.1, hphase.2, ?_⟩
    rw [apply_of_parks h hp]
    simp [parkEnd]
  | false =>
    obtain ⟨hendpoints, hedges, hcounters, hparked⟩ := apply_fields (t := t) h hp
    rcases (f.meeting (t.top? e.track)).trichotomy (t.endpoint? (t.identify f.name).1) with
      ⟨c, hc⟩ | ⟨hm, edge, hedge⟩ | ⟨hm, hedge, hnone, slice, hs⟩
    · obtain ⟨hr, hn⟩ := Meeting.rebind_of_miss? hc
      rw [hr] at hendpoints
      rw [show t.endpoint? _ = t.endpoints.get? _ from rfl, hn] at hedges
      rw [hc] at hcounters
      exact ⟨.missed c, Meeting.ofFlows_of_miss? hc, by simpa using hedges, hendpoints, hparked, hcounters⟩
    · rw [hedge] at hedges
      rw [hm] at hcounters
      obtain ⟨hsource, htarget⟩ := Meeting.edge?_eq_some_iff.1 hedge
      obtain ⟨hphase, htop⟩ := FlowEvent.target?_meeting hp htarget
      refine ⟨.connected, hphase, hparked, hcounters, edge, hedges, hsource, htop, hendpoints.trans ?_⟩
      have hget : t.endpoints.get? (t.identify f.name).1 = some edge.source := hsource
      rcases hphase with hphase | ⟨hphase, -⟩ <;> simp [FlowEvent.meeting, Meeting.rebind, hphase, htop, hget]
    · obtain ⟨hphase, htop⟩ := FlowEvent.meeting_eq_start_iff.1 hs
      rw [hedge] at hedges
      rw [hm] at hcounters
      have hg : t.endpoints.get? (t.identify f.name).1 = none := hnone
      simp only [hs, Meeting.rebind, hg] at hendpoints
      exact ⟨.opened, hphase, by simpa using hedges, hparked, hcounters, hnone, slice, htop, hendpoints⟩

theorem Outcome.Comes.length_edges {t : Timeline} {e : Event} {f : FlowEvent} {o : Outcome} (h : o.Comes t e f) :
    (t.apply e).edges.length = t.edges.length + if o = .connected then 1 else 0 := by
  cases o with
  | opened => simp [h.2.1]
  | connected =>
    obtain ⟨-, -, -, edge, hedges, -⟩ := h
    simp [hedges]
  | parked => simp [h.2.2.1]
  | missed c => simp [h.2.1]

theorem Outcome.Comes.get_counters {t : Timeline} {e : Event} {f : FlowEvent} {o : Outcome} (h : o.Comes t e f)
    (c : Counter) : (t.apply e).counters.get c = t.counters.get c + if o = .missed c then 1 else 0 := by
  cases o with
  | opened => simp [h.2.2.2.1]
  | connected => simp [h.2.2.1]
  | parked => simp [h.2.2.2.2.1]
  | missed c' =>
    rw [h.2.2.2.2, Counters.get_increment]
    by_cases hc : c' = c <;> simp [hc]

theorem Outcome.Comes.unique {t : Timeline} {e : Event} {f : FlowEvent} {o o' : Outcome} (h : o.Comes t e f)
    (h' : o'.Comes t e f) : o = o' := by
  -- edges tell `connected`, counters `missed`; begins that open and ends that wait differ in their phase
  have he : o = .connected ↔ o' = .connected := by
    have hlen := h.length_edges.symm.trans h'.length_edges
    split at hlen <;> split at hlen <;> simp_all
  have hc : ∀ c, o = .missed c ↔ o' = .missed c := by
    intro c
    have hget := (h.get_counters c).symm.trans (h'.get_counters c)
    split at hget <;> split at hget <;> simp_all
  cases o with
  | connected => exact (he.1 rfl).symm
  | missed c => exact ((hc c).1 rfl).symm
  | opened =>
    cases o' with
    | opened => rfl
    | connected => cases he.2 rfl
    | missed c => cases (hc c).2 rfl
    | parked => cases h.1.symm.trans h'.1
  | parked =>
    cases o' with
    | parked => rfl
    | connected => cases he.2 rfl
    | missed c => cases (hc c).2 rfl
    | opened => cases h.1.symm.trans h'.1

/-- How much flows have missed. -/
def Counters.ofFlows (c : Counters) : Nat :=
  c.get .flowNoEnclosingSlice + c.get .flowDuplicateId + c.get .flowStepWithoutStart + c.get .flowEndWithoutStart

theorem Counters.ofFlows_increment (cs : Counters) (c : Counter) :
    (cs.increment c).ofFlows = cs.ofFlows + if c.ofFlows then 1 else 0 := by
  cases c <;> simp [Counter.ofFlows, ofFlows] <;> omega

/-- How many ends wait, on all tracks. -/
def waitingEnds (t : Timeline) : Nat := t.parked.weight List.length

/-- The event is a begin that opens its flow. -/
def opensFlow (t : Timeline) (e : Event) : Bool :=
  match e.flow? with
  | none => false
  | some f => f.phase = .start && (t.top? e.track).isSome && (t.endpoint? (t.identify f.name).1).isNone

/-- The begins that have opened a flow. -/
def openers (events : List Event) : List Event :=
  along (fun before e => if (replay before).opensFlow e then [e] else []) events

/-- The ends that have started to wait on a track. -/
def arrivals (track : Track) (events : List Event) : List FlowId :=
  along (fun before e =>
    match e.flow? with
    | none => []
    | some f => if f.parks && e.track = track then [((replay before).identify f.name).1] else []) events

/-- The ends that have waited on a track until a slice opened there. -/
def settled (track : Track) (events : List Event) : List FlowId :=
  along (fun before e => if e.opens track then (replay before).waiting track else []) events

/-- A slice that opens settles the ends that have waited on its track, each by an edge or a count. -/
structure Settles (t : Timeline) (track : Track) (t' : Timeline) : Prop where
  waiting : t'.waiting track = []
  elsewhere : ∀ other, other ≠ track → t'.waiting other = t.waiting other
  endpoints : ∀ flow, t'.endpoint? flow = t.endpoint? flow
  edges : t'.edges = t.edges ++
    (t.waiting track).filterMap fun flow => (t.endpoint? flow).map fun source => ⟨source, t.slices.nextId⟩
  counters : ∀ c, t'.counters.get c = t.counters.get c +
    if c = .flowEndWithoutStart then (t.waiting track).countP fun flow => (t.endpoint? flow).isNone else 0

/-- What has become of flow events, but for those that have opened a flow. -/
def accounted (t : Timeline) : Nat := t.edges.length + t.counters.ofFlows + t.waitingEnds

section Openings

variable (t : Timeline) (slice : SliceId) (flows : List FlowId)

theorem edges_meetAll_openings :
    (t.meetAll (flows.map fun flow => (flow, .opening slice))).edges =
      t.edges ++ flows.filterMap fun flow => (t.endpoint? flow).map fun source => ⟨source, slice⟩ := by
  induction flows generalizing t with
  | nil => exact (List.append_nil _).symm
  | cons f flows ih =>
    have h := ih (t.meet f (.opening slice))
    simp only [endpoint?_meet_opening, edges_meet] at h
    refine h.trans ?_
    cases hf : t.endpoint? f <;> simp [hf, Meeting.edge?]

theorem get_counters_meetAll_openings (c : Counter) :
    (t.meetAll (flows.map fun flow => (flow, .opening slice))).counters.get c = t.counters.get c +
      if c = .flowEndWithoutStart then flows.countP fun flow => (t.endpoint? flow).isNone else 0 := by
  induction flows generalizing t with
  | nil => simp [meetAll]
  | cons f flows ih =>
    have h := ih (t.meet f (.opening slice))
    simp only [endpoint?_meet_opening, counters_meet] at h
    refine h.trans ?_
    by_cases hc : c = .flowEndWithoutStart
    · subst hc
      cases hf : t.endpoint? f <;> simp [hf, Meeting.miss?]
      omega
    · cases hf : t.endpoint? f <;> simp [Meeting.miss?, hc, Ne.symm hc]

end Openings

theorem settles_apply (t : Timeline) (track : Track) (ts : Int) (name : String) :
    Settles t track (t.apply (.sliceBegin track ts name)) := by
  refine ⟨?_, ?_, fun flow => endpoint?_apply_of_none t rfl flow, ?_, ?_⟩
  · rw [waiting_apply_begin, if_pos rfl]
  · intro other h
    rw [waiting_apply_begin, if_neg h.symm]
  · rw [apply_eq_meetAll]
    exact edges_meetAll_openings _ _ _
  · intro c
    rw [apply_eq_meetAll]
    exact get_counters_meetAll_openings _ _ _ c

theorem arrivals_eq (track : Track) (events : List Event) :
    arrivals track events = settled track events ++ (replay events).waiting track := by
  induction events using List.reverseRecOn with
  | nil => rfl
  | append_singleton events e ih =>
    unfold arrivals settled at ih ⊢
    rw [along_concat, along_concat, ih, replay_concat]
    rcases e.cases_flow with ⟨t, ts, name, rfl⟩ | ⟨t, ts, rfl⟩ | ⟨f, hf⟩
    · rw [waiting_apply_begin]
      by_cases ht : t = track <;> simp [Event.flow?, Event.opens, ht]
    · rw [waiting_apply_end]
      simp [Event.flow?, Event.opens]
    · rw [waiting_apply_of_flow _ hf]
      by_cases hp : f.parks = true ∧ e.track = track <;> simp [hf, hp, Event.opens_of_flow hf]

theorem length_waiting (t : Timeline) (track : Track) :
    (t.waiting track).length = ((t.parked.get? track).map List.length).getD 0 := by
  unfold waiting
  cases t.parked.get? track <;> rfl

theorem waitingEnds_park (t t' : Timeline) (track : Track) (flow : FlowId)
    (h : t'.parked = t.parked.insert track (t.waiting track ++ [flow])) : t'.waitingEnds = t.waitingEnds + 1 := by
  have hw := Assoc.weight_insert List.length t.parked track (t.waiting track ++ [flow])
  rw [← h, ← length_waiting, List.length_append, List.length_singleton] at hw
  unfold waitingEnds
  omega

theorem waitingEnds_apply_begin (t : Timeline) (track : Track) (ts : Int) (name : String) :
    (t.apply (.sliceBegin track ts name)).waitingEnds + (t.waiting track).length = t.waitingEnds := by
  have hw := Assoc.weight_erase List.length t.parked track
  rw [← length_waiting] at hw
  unfold waitingEnds
  rw [(alike_apply t _).parked]
  exact hw

/-- The edges and the counts of a settlement are as many as the ends. -/
theorem Settles.balance {t t' : Timeline} {track : Track} (h : Settles t track t') :
    t'.edges.length + t'.counters.ofFlows = t.edges.length + t.counters.ofFlows + (t.waiting track).length := by
  have hedges : t'.edges.length = t.edges.length + (t.waiting track).countP fun flow => (t.endpoint? flow).isSome := by
    rw [h.edges, List.length_append, List.length_filterMap_eq_countP]
    simp
  have hcounters : t'.counters.ofFlows =
      t.counters.ofFlows + (t.waiting track).countP fun flow => (t.endpoint? flow).isNone := by
    simp only [Counters.ofFlows, h.counters]
    simp
    omega
  have hall : (t.waiting track).length = ((t.waiting track).countP fun flow => (t.endpoint? flow).isSome) +
      (t.waiting track).countP fun flow => (t.endpoint? flow).isNone := by
    refine (List.length_eq_countP_add_countP fun flow => (t.endpoint? flow).isSome).trans ?_
    congr 2
    funext flow
    cases t.endpoint? flow <;> rfl
  omega

theorem opensFlow_iff {t : Timeline} {e : Event} {f : FlowEvent} (h : e.flow? = some f) :
    t.opensFlow e = true ↔ Outcome.opened.Comes t e f := by
  unfold opensFlow
  rw [h]
  constructor
  · intro ho
    simp only [Bool.and_eq_true, decide_eq_true_eq, Option.isNone_iff_eq_none] at ho
    obtain ⟨⟨hphase, hsome⟩, hnone⟩ := ho
    obtain ⟨slice, htop⟩ := Option.isSome_iff_exists.1 hsome
    have hp : f.parks = false := by simp [FlowEvent.parks, hphase]
    have hm : f.meeting (t.top? e.track) = .start (some slice) := by
      rw [htop]
      exact FlowEvent.meeting_eq_start_iff.2 ⟨hphase, rfl⟩
    have hget : t.endpoints.get? (t.identify f.name).1 = none := hnone
    obtain ⟨hendpoints, hedges, hcounters, hparked⟩ := apply_fields (t := t) h hp
    simp only [hm, hnone, Meeting.rebind, hget, Meeting.edge?, Meeting.miss?] at hendpoints hedges hcounters
    exact ⟨hphase, by simpa using hedges, hparked, hcounters, hnone, slice, htop, hendpoints⟩
  · rintro ⟨hphase, -, -, -, hnone, slice, htop, -⟩
    simp [hphase, hnone, htop]

theorem ofFlows_apply_end (t : Timeline) (track : Track) (ts : Int) :
    (t.apply (.sliceEnd track ts)).counters.ofFlows = t.counters.ofFlows := by
  simp only [Counters.ofFlows]
  rw [get_counters_apply_end rfl, get_counters_apply_end rfl, get_counters_apply_end rfl, get_counters_apply_end rfl]

theorem Outcome.Comes.accounted {t : Timeline} {e : Event} {f : FlowEvent} {o : Outcome} (h : o.Comes t e f) :
    (t.apply e).accounted + (if o = .opened then 1 else 0) = t.accounted + 1 := by
  unfold Timeline.accounted
  cases o with
  | opened =>
    obtain ⟨-, hedges, hparked, hcounters, -⟩ := h
    simp [hedges, hparked, hcounters, waitingEnds]
  | connected =>
    obtain ⟨-, hparked, hcounters, edge, hedges, -⟩ := h
    simp [hedges, hparked, hcounters, waitingEnds]
    omega
  | parked =>
    obtain ⟨-, -, hedges, -, hcounters, hparked⟩ := h
    simp [hedges, hcounters, waitingEnds_park t _ _ _ hparked]
    omega
  | missed c =>
    obtain ⟨hc, hedges, -, hparked, hcounters⟩ := h
    simp [hedges, hparked, hcounters, waitingEnds, Counters.ofFlows_increment, hc]
    omega

/-- An event of a flow adds one to what is accounted for, unless it opens its flow. Other events add nothing: a slice that
opens turns each end that has waited into an edge or a count. -/
theorem accounted_apply (t : Timeline) (e : Event) :
    (t.apply e).accounted + (if t.opensFlow e then 1 else 0) = t.accounted + if e.flow?.isSome then 1 else 0 := by
  rcases e.cases_flow with ⟨track, ts, name, rfl⟩ | ⟨track, ts, rfl⟩ | ⟨f, hf⟩
  · have hsettled := (settles_apply t track ts name).balance
    have hwaiting := waitingEnds_apply_begin t track ts name
    simp [opensFlow, Event.flow?, accounted]
    omega
  · obtain ⟨-, hedges, -, hparked, -⟩ := flows_apply_end t track ts
    simp [opensFlow, Event.flow?, accounted, waitingEnds, hedges, hparked, ofFlows_apply_end]
  · obtain ⟨o, ho⟩ := exists_comes t hf
    have hopens : t.opensFlow e = true ↔ o = .opened := by
      rw [opensFlow_iff hf]
      constructor
      · exact ho.unique
      · rintro rfl
        exact ho
    rw [hf, Option.isSome_some, if_pos rfl, ← ho.accounted]
    simp only [hopens]

/-- Each flow event opens its flow or is accounted for. -/
theorem accounted_replay (events : List Event) :
    (events.countP fun e => e.flow?.isSome) = (openers events).length + (replay events).accounted := by
  induction events using List.reverseRecOn with
  | nil => rfl
  | append_singleton events e ih =>
    have hstep := accounted_apply (replay events) e
    have hopeners : (openers (events ++ [e])).length =
        (openers events).length + if (replay events).opensFlow e then 1 else 0 := by
      unfold openers
      rw [along_concat, List.length_append]
      split <;> rfl
    rw [List.countP_append, List.countP_singleton, replay_concat, hopeners, ih]
    omega

/-- In every state an event of a flow has one outcome, and leaves the slices alone. What waits is settled by the next
slice that opens on its track, and by nothing else. So the events balance with what has become of them. -/
theorem flow_events_balance (events : List Event) :
    let t := replay events
    (∀ e f, e.flow? = some f → (t.apply e).slices = t.slices ∧ ∃! o : Outcome, o.Comes t e f) ∧
      (∀ track ts name, Settles t track (t.apply (.sliceBegin track ts name))) ∧
      (∀ track, arrivals track events = settled track events ++ t.waiting track) ∧
      (events.countP fun e => e.flow?.isSome) =
        (openers events).length + t.edges.length + t.counters.flowNoEnclosingSlice + t.counters.flowDuplicateId +
          t.counters.flowStepWithoutStart + t.counters.flowEndWithoutStart + t.waitingEnds := by
  intro t
  refine ⟨?_, settles_apply t, fun track => arrivals_eq track events, ?_⟩
  · intro e f h
    obtain ⟨o, ho⟩ := exists_comes t h
    exact ⟨slices_apply_of_flow h, o, ho, fun o' ho' => ho'.unique ho⟩
  · have hall := accounted_replay events
    simp only [accounted, Counters.ofFlows, Counters.get] at hall
    simp only [t]
    omega

end TraceTables.Timeline
