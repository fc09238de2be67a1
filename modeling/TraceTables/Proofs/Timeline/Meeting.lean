import TraceTables.Proofs.Timeline.History

/-! Flows meet slices: at an event of their own, or where one of their ends has waited. An event first changes what
belongs to no flow, then flows meet slices one after the other. What a flow meets changes no other flow. -/

namespace TraceTables.Timeline

/-- What a flow meets: its begin, a step or a bound end where a slice may be open, or a slice that opens where an end of
the flow has waited. -/
inductive Meeting where
  | start (top : Option SliceId)
  | step (top : Option SliceId)
  | finish (top : Option SliceId)
  | opening (slice : SliceId)
deriving DecidableEq

namespace Meeting

/-- Where a flow is open afterwards, if it is. -/
def next : Meeting → Option SliceId → Option SliceId
  | start (some slice), none => some slice
  | step (some slice), some _ => some slice
  | finish (some _), some _ => none
  | _, endpoint => endpoint

/-- The edge by which an open flow is led on. -/
def edge? : Meeting → Option SliceId → Option Edge
  | step (some slice), some source => some ⟨source, slice⟩
  | finish (some slice), some source => some ⟨source, slice⟩
  | opening slice, some source => some ⟨source, slice⟩
  | _, _ => none

/-- The slice to which an open flow is led on. -/
def target? : Meeting → Option SliceId
  | start _ => none
  | step top => top
  | finish top => top
  | opening slice => some slice

/-- What is counted if the flow cannot go on. -/
def miss? : Meeting → Option SliceId → Option Counter
  | start none, _ => some .flowNoEnclosingSlice
  | step none, _ => some .flowNoEnclosingSlice
  | finish none, _ => some .flowNoEnclosingSlice
  | start (some _), some _ => some .flowDuplicateId
  | step (some _), none => some .flowStepWithoutStart
  | finish (some _), none => some .flowEndWithoutStart
  | opening _, none => some .flowEndWithoutStart
  | _, _ => none

/-- The endpoints of all flows afterwards. -/
def rebind (m : Meeting) (flow : FlowId) (endpoints : Assoc FlowId SliceId) : Assoc FlowId SliceId :=
  match m, endpoints.get? flow with
  | start (some slice), none => endpoints.insert flow slice
  | step (some slice), some _ => endpoints.insert flow slice
  | finish (some _), some _ => endpoints.erase flow
  | _, _ => endpoints

end Meeting

theorem Meeting.edge?_eq_some_iff {m : Meeting} {endpoint : Option SliceId} {edge : Edge} :
    m.edge? endpoint = some edge ↔ endpoint = some edge.source ∧ m.target? = some edge.target := by
  rcases edge with ⟨source, target⟩
  cases m with
  | start top => simp [edge?, target?]
  | step top | finish top => cases top <;> cases endpoint <;> simp [edge?, target?]
  | opening slice => cases endpoint <;> simp [edge?, target?]

/-- The counters of flow events. -/
def Counter.ofFlows : Counter → Bool
  | .flowNoEnclosingSlice | .flowDuplicateId | .flowStepWithoutStart | .flowEndWithoutStart => true
  | .misplacedEndEvent | .invalidSliceDuration => false

theorem Meeting.ofFlows_of_miss? {m : Meeting} {endpoint : Option SliceId} {c : Counter}
    (h : m.miss? endpoint = some c) : c.ofFlows = true := by
  cases m with
  | start top | step top | finish top => cases top <;> cases endpoint <;> cases h <;> rfl
  | opening slice =>
    cases endpoint with
    | none =>
      cases h
      rfl
    | some source => cases h

/-- What an event of a flow meets, unless it is parked. -/
def FlowEvent.meeting (e : FlowEvent) (top : Option SliceId) : Meeting :=
  match e.phase with
  | .start => .start top
  | .step => .step top
  | .finish => .finish top

theorem FlowEvent.meeting_eq_start_iff {e : FlowEvent} {top top' : Option SliceId} :
    e.meeting top = .start top' ↔ e.phase = .start ∧ top = top' := by
  unfold meeting
  cases e.phase <;> simp

theorem FlowEvent.meeting_eq_step_iff {e : FlowEvent} {top top' : Option SliceId} :
    e.meeting top = .step top' ↔ e.phase = .step ∧ top = top' := by
  unfold meeting
  cases e.phase <;> simp

theorem FlowEvent.meeting_eq_finish_iff {e : FlowEvent} {top top' : Option SliceId} :
    e.meeting top = .finish top' ↔ e.phase = .finish ∧ top = top' := by
  unfold meeting
  cases e.phase <;> simp

/-- Steps and bound ends lead to the innermost open slice, begins nowhere. -/
theorem FlowEvent.target?_meeting {e : FlowEvent} (hp : e.parks = false) {top : Option SliceId} {slice : SliceId}
    (h : (e.meeting top).target? = some slice) :
    (e.phase = .step ∨ e.phase = .finish ∧ e.bindEnclosing = true) ∧ top = some slice := by
  rcases e with ⟨name, phase, bind⟩
  cases phase with
  | start => cases h
  | step => exact ⟨Or.inl rfl, h⟩
  | finish =>
    cases bind with
    | true => exact ⟨Or.inr ⟨rfl, rfl⟩, h⟩
    | false => cases hp

def meet (t : Timeline) (flow : FlowId) : Meeting → Timeline
  | .start top => t.beginFlow top flow
  | .step top => t.stepFlow top flow
  | .finish top => t.endFlow top flow
  | .opening slice => t.resolve slice flow

def meetAll (t : Timeline) (ms : List (FlowId × Meeting)) : Timeline := ms.foldl (fun t m => t.meet m.1 m.2) t

/-- The id of a flow, and the state that knows it. -/
def identify (t : Timeline) : FlowName → FlowId × Timeline
  | .explicit id => (id, t)
  | .legacy sourceId category name =>
    let (category, t) := t.intern category
    let (name, t) := t.intern name
    t.legacyFlowId ⟨sourceId, category, name⟩

/-- What flows meet at an event, in order. -/
def meetings (t : Timeline) : Event → List (FlowId × Meeting)
  | .sliceBegin track _ _ => (t.waiting track).map fun flow => (flow, .opening t.slices.nextId)
  | e =>
    match e.flow? with
    | none => []
    | some f => if f.parks then [] else [((t.identify f.name).1, f.meeting (t.top? e.track))]

/-- What an event changes before flows meet slices. -/
def prepare (t : Timeline) : Event → Timeline
  | .sliceBegin track ts name =>
    { ((t.intern name).2.beginSlice track ts (t.intern name).1).2 with parked := t.parked.erase track }
  | .sliceEnd track ts => (t.endSlice track ts).2
  | e =>
    match e.flow? with
    | none => t
    | some f =>
      let r := t.identify f.name
      if f.parks then r.2.parkEnd e.track r.1 else r.2

section Flow

variable {t : Timeline} {e : Event} {f : FlowEvent} (h : e.flow? = some f)
include h

theorem meetings_of_flow :
    t.meetings e = if f.parks then [] else [((t.identify f.name).1, f.meeting (t.top? e.track))] := by
  cases e <;> cases h <;> rfl

theorem prepare_of_flow :
    t.prepare e =
      if f.parks then (t.identify f.name).2.parkEnd e.track (t.identify f.name).1 else (t.identify f.name).2 := by
  cases e <;> cases h <;> rfl

theorem apply_of_flow :
    t.apply e = (t.identify f.name).2.flowEvent e.track (t.identify f.name).1 f.bindEnclosing f.phase := by
  cases e <;> cases h <;> rfl

end Flow

section Identify

variable (t : Timeline) (n : FlowName)

@[simp] theorem slices_identify : (t.identify n).2.slices = t.slices := by cases n <;> rfl

@[simp] theorem openSlices_identify : (t.identify n).2.openSlices = t.openSlices := by cases n <;> rfl

@[simp] theorem edges_identify : (t.identify n).2.edges = t.edges := by cases n <;> rfl

@[simp] theorem counters_identify : (t.identify n).2.counters = t.counters := by cases n <;> rfl

@[simp] theorem endpoints_identify : (t.identify n).2.endpoints = t.endpoints := by cases n <;> rfl

@[simp] theorem parked_identify : (t.identify n).2.parked = t.parked := by cases n <;> rfl

@[simp] theorem top?_identify (track : Track) : (t.identify n).2.top? track = t.top? track := by
  simp [top?, stack]

@[simp] theorem endpoint?_identify (flow : FlowId) : (t.identify n).2.endpoint? flow = t.endpoint? flow := by
  simp [endpoint?]

@[simp] theorem waiting_identify (track : Track) : (t.identify n).2.waiting track = t.waiting track := by
  simp [waiting]

end Identify

/-- The states differ in nothing but the endpoints of flows, edges and counters. -/
structure Alike (t t' : Timeline) : Prop where
  strings : t'.strings = t.strings
  slices : t'.slices = t.slices
  openSlices : t'.openSlices = t.openSlices
  parked : t'.parked = t.parked
  legacy : t'.legacy = t.legacy

theorem Alike.refl (t : Timeline) : Alike t t := ⟨rfl, rfl, rfl, rfl, rfl⟩

theorem Alike.trans {a b c : Timeline} (h : Alike a b) (h' : Alike b c) : Alike a c :=
  ⟨h'.strings.trans h.strings, h'.slices.trans h.slices, h'.openSlices.trans h.openSlices,
    h'.parked.trans h.parked, h'.legacy.trans h.legacy⟩

/-- All that a meeting does. -/
theorem meet_eq (t : Timeline) (flow : FlowId) (m : Meeting) :
    t.meet flow m =
      { t with
        endpoints := m.rebind flow t.endpoints
        edges := t.edges ++ (m.edge? (t.endpoint? flow)).toList
        counters := ((m.miss? (t.endpoint? flow)).map t.counters.increment).getD t.counters } := by
  cases m with
  | start top | step top | finish top =>
    cases top with
    | none => simp [meet, beginFlow, stepFlow, endFlow, count, Meeting.rebind, Meeting.edge?, Meeting.miss?]
    | some slice =>
      cases hp : t.endpoint? flow <;> unfold endpoint? at hp <;>
        simp [meet, beginFlow, stepFlow, endFlow, endpoint?, count, connect, Meeting.rebind, Meeting.edge?,
          Meeting.miss?, hp]
  | opening slice =>
    cases hp : t.endpoint? flow <;>
      simp [meet, resolve, count, connect, Meeting.rebind, Meeting.edge?, Meeting.miss?, hp]

theorem get?_rebind (m : Meeting) (flow other : FlowId) (endpoints : Assoc FlowId SliceId) :
    (m.rebind flow endpoints).get? other =
      if flow = other then m.next (endpoints.get? flow) else endpoints.get? other := by
  cases m with
  | start top | step top | finish top =>
    cases top <;> cases hp : endpoints.get? flow <;> simp [Meeting.rebind, Meeting.next, hp]
    all_goals rintro rfl
    all_goals rw [hp]
  | opening slice =>
    simp [Meeting.rebind, Meeting.next]
    rintro rfl
    rfl

theorem endpoint?_meet (t : Timeline) (flow : FlowId) (m : Meeting) (other : FlowId) :
    (t.meet flow m).endpoint? other =
      if flow = other then m.next (t.endpoint? flow) else t.endpoint? other := by
  rw [meet_eq]
  exact get?_rebind m flow other t.endpoints

/-- Slices that open do not move flows. -/
@[simp] theorem endpoint?_meet_opening (t : Timeline) (flow : FlowId) (slice : SliceId) (other : FlowId) :
    (t.meet flow (.opening slice)).endpoint? other = t.endpoint? other := by
  rw [endpoint?_meet]
  by_cases h : flow = other <;> simp [h, Meeting.next]

theorem edges_meet (t : Timeline) (flow : FlowId) (m : Meeting) :
    (t.meet flow m).edges = t.edges ++ (m.edge? (t.endpoint? flow)).toList := by
  rw [meet_eq]

theorem counters_meet (t : Timeline) (flow : FlowId) (m : Meeting) :
    (t.meet flow m).counters = ((m.miss? (t.endpoint? flow)).map t.counters.increment).getD t.counters := by
  rw [meet_eq]

theorem alike_meetAll (t : Timeline) (ms : List (FlowId × Meeting)) : Alike t (t.meetAll ms) := by
  induction ms generalizing t with
  | nil => exact Alike.refl t
  | cons m ms ih =>
    have h : Alike t (t.meet m.1 m.2) := by
      rw [meet_eq]
      exact ⟨rfl, rfl, rfl, rfl, rfl⟩
    exact h.trans (ih _)

/-- Flows do not touch the counters of slices. -/
theorem get_counters_meetAll {c : Counter} (hc : c.ofFlows = false) (t : Timeline)
    (ms : List (FlowId × Meeting)) : (t.meetAll ms).counters.get c = t.counters.get c := by
  induction ms generalizing t with
  | nil => rfl
  | cons m ms ih =>
    refine (ih (t.meet m.1 m.2)).trans ?_
    rw [counters_meet]
    cases hm : m.2.miss? (t.endpoint? m.1) with
    | none => rfl
    | some c' =>
      have hne : c' ≠ c := by
        rintro rfl
        simp [Meeting.ofFlows_of_miss? hm] at hc
      simp [hne]

theorem flowEvent_eq (t : Timeline) (track : Track) (flow : FlowId) (f : FlowEvent) :
    t.flowEvent track flow f.bindEnclosing f.phase =
      if f.parks then t.parkEnd track flow else t.meet flow (f.meeting (t.top? track)) := by
  rcases f with ⟨name, phase, bind⟩
  cases phase <;> cases bind <;> rfl

/-- The list of waiting ends may go before they are resolved. -/
theorem foldl_resolve_eq (slice : SliceId) (parked : Assoc Track (List FlowId)) (flows : List FlowId)
    (t : Timeline) :
    { flows.foldl (resolve slice) t with parked } =
      { t with parked }.meetAll (flows.map fun flow => (flow, .opening slice)) := by
  induction flows generalizing t with
  | nil => rfl
  | cons flow flows ih =>
    have hr : { resolve slice t flow with parked } = { t with parked }.meet flow (.opening slice) := by
      simp only [meet, resolve, endpoint?]
      cases t.endpoints.get? flow <;> rfl
    rw [List.foldl_cons, ih, hr]
    rfl

/-- An end that does not bind waits. -/
theorem apply_of_parks {t : Timeline} {e : Event} {f : FlowEvent} (h : e.flow? = some f) (hp : f.parks = true) :
    t.apply e = (t.identify f.name).2.parkEnd e.track (t.identify f.name).1 := by
  rw [apply_of_flow h, flowEvent_eq, if_pos hp]

/-- Every other event of a flow is a meeting. -/
theorem apply_of_not_parks {t : Timeline} {e : Event} {f : FlowEvent} (h : e.flow? = some f)
    (hp : f.parks = false) :
    t.apply e = (t.identify f.name).2.meet (t.identify f.name).1 (f.meeting (t.top? e.track)) := by
  rw [apply_of_flow h, flowEvent_eq, hp, if_neg Bool.false_ne_true, top?_identify]

/-- An event is its preparation, and then what flows meet. -/
theorem apply_eq_meetAll (t : Timeline) (e : Event) : t.apply e = (t.prepare e).meetAll (t.meetings e) := by
  rcases e.cases_flow with ⟨track, ts, name, rfl⟩ | ⟨track, ts, rfl⟩ | ⟨f, hf⟩
  · exact foldl_resolve_eq t.slices.nextId (t.parked.erase track) (t.waiting track)
      ((t.intern name).2.beginSlice track ts (t.intern name).1).2
  · rfl
  · rw [apply_of_flow hf, prepare_of_flow hf, meetings_of_flow hf, flowEvent_eq, top?_identify]
    cases f.parks <;> rfl

end TraceTables.Timeline
