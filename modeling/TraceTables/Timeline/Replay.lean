import TraceTables.Timeline.Event

/-! Replay of events in the order in which they come, and its summary. A slice that opens resolves the flow ends
that have waited on its track. -/

namespace TraceTables.Timeline

/-- A begin, a step or a bound end binds to the innermost open slice; an unbound end is parked. -/
def flowEvent (t : Timeline) (track : Track) (flow : FlowId) (bindEnclosing : Bool) : Phase → Timeline
  | .start => t.beginFlow (t.top? track) flow
  | .step => t.stepFlow (t.top? track) flow
  | .finish => if bindEnclosing then t.endFlow (t.top? track) flow else t.parkEnd track flow

def apply (t : Timeline) : Event → Timeline
  | .sliceBegin track ts name =>
    let (name, t) := t.intern name
    let (slice, t) := t.beginSlice track ts name
    t.resolveParked track slice
  | .sliceEnd track ts => (t.endSlice track ts).2
  | .flowBegin track flow => t.flowEvent track flow true .start
  | .flowStep track flow => t.flowEvent track flow true .step
  | .flowEnd track flow bind => t.flowEvent track flow bind .finish
  | .legacyFlow track phase sourceId category name bind =>
    let (category, t) := t.intern category
    let (name, t) := t.intern name
    let (flow, t) := t.legacyFlowId ⟨sourceId, category, name⟩
    t.flowEvent track flow bind phase

/-- The state after some events from the start. -/
def replay (events : List Event) : Timeline := events.foldl apply empty

/-- A slice with its name in place of the name's number. -/
structure SliceSummary where
  id : SliceId
  track : Track
  name : String
  ts : Int
  dur? : Option Int
  depth : Nat
deriving DecidableEq

structure Summary where
  events : Nat
  slices : List SliceSummary
  edges : List Edge
  counters : Counters
deriving DecidableEq

/-- The slices from a row on. -/
def sliceSummaries (strings : Numbering String) (id : SliceId) : List Slice → List SliceSummary
  | [] => []
  | s :: rest =>
    ⟨id, s.track, (strings.get? s.name).getD "", s.ts, s.dur?, s.depth⟩ ::
      sliceSummaries strings (id + 1) rest

/-- The summary of a state that so many events have led to. -/
def summary (t : Timeline) (events : Nat) : Summary :=
  ⟨events, sliceSummaries t.strings 0 t.slices.rows, t.edges, t.counters⟩

def summarize (events : List Event) : Summary := (replay events).summary events.length

def SliceSummary.toJson (s : SliceSummary) : Json :=
  .object [("id", .nat s.id), ("track", .nat s.track), ("name", .string s.name), ("ts", .int s.ts),
    ("dur", Json.orNull .int s.dur?), ("depth", .nat s.depth)]

def Edge.toJson (e : Edge) : Json := .object [("slice_out", .nat e.source), ("slice_in", .nat e.target)]

def Summary.toJson (s : Summary) : Json :=
  .object [("events", .nat s.events), ("slices", .array (s.slices.map SliceSummary.toJson)),
    ("flows", .array (s.edges.map Edge.toJson)),
    ("stats", .object (Counter.byName.map fun c => (c.name, .nat (s.counters.get c))))]

end TraceTables.Timeline
