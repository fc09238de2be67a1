import TraceTables.Timeline.State

/-! Flows: chains of slices, one edge for each step. A flow is open from its begin on, at the slice where it was
last bound. An end either binds to the innermost open slice of its track, like begins and steps, or is parked
until a slice opens there. The innermost open slice is an argument, so that flows do not depend on how slices
are kept. -/

namespace TraceTables.Timeline

/-- Where a flow is open. -/
def endpoint? (t : Timeline) (flow : FlowId) : Option SliceId := t.endpoints.get? flow

/-- The ends that wait on a track. -/
def waiting (t : Timeline) (track : Track) : List FlowId := (t.parked.get? track).getD []

def connect (t : Timeline) (source target : SliceId) : Timeline :=
  { t with edges := t.edges ++ [⟨source, target⟩] }

/-- Opens a flow at a slice. -/
def beginFlow (t : Timeline) (top : Option SliceId) (flow : FlowId) : Timeline :=
  match top with
  | none => t.count .flowNoEnclosingSlice
  | some slice =>
    match t.endpoint? flow with
    | some _ => t.count .flowDuplicateId
    | none => { t with endpoints := t.endpoints.insert flow slice }

/-- Leads a flow on to a slice. -/
def stepFlow (t : Timeline) (top : Option SliceId) (flow : FlowId) : Timeline :=
  match top with
  | none => t.count .flowNoEnclosingSlice
  | some slice =>
    match t.endpoint? flow with
    | none => t.count .flowStepWithoutStart
    | some source => { t.connect source slice with endpoints := t.endpoints.insert flow slice }

/-- Leads a flow to its last slice. -/
def endFlow (t : Timeline) (top : Option SliceId) (flow : FlowId) : Timeline :=
  match top with
  | none => t.count .flowNoEnclosingSlice
  | some slice =>
    match t.endpoint? flow with
    | none => t.count .flowEndWithoutStart
    | some source => { t.connect source slice with endpoints := t.endpoints.erase flow }

/-- Lets an end wait for the next slice of a track. -/
def parkEnd (t : Timeline) (track : Track) (flow : FlowId) : Timeline :=
  { t with parked := t.parked.insert track (t.waiting track ++ [flow]) }

/-- Leads a flow whose end has waited to the slice that has opened. It stays open where it was. -/
def resolve (slice : SliceId) (t : Timeline) (flow : FlowId) : Timeline :=
  match t.endpoint? flow with
  | none => t.count .flowEndWithoutStart
  | some source => t.connect source slice

/-- Resolves all ends that wait on a track. -/
def resolveParked (t : Timeline) (track : Track) (slice : SliceId) : Timeline :=
  { (t.waiting track).foldl (resolve slice) t with parked := t.parked.erase track }

/-- The id of a flow without one. Equal flows get equal ids, new ones the next free number. -/
def legacyFlowId (t : Timeline) (l : LegacyFlow) : FlowId × Timeline :=
  let r := t.legacy.number l
  (r.1, { t with legacy := r.2 })

end TraceTables.Timeline
