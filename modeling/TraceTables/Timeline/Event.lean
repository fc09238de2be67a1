import TraceTables.Json.Reader
import TraceTables.Json.Record
import TraceTables.Timeline.Flow

/-! Events of a trace and their form in JSON: an object with a `type` and the fields of that type, or an array of
the type and the fields in order. -/

namespace TraceTables.Timeline

inductive Phase where
  | start
  | step
  | finish
deriving DecidableEq

inductive Event where
  | sliceBegin (track : Track) (ts : Int) (name : String)
  | sliceEnd (track : Track) (ts : Int)
  | flowBegin (track : Track) (flow : FlowId)
  | flowStep (track : Track) (flow : FlowId)
  | flowEnd (track : Track) (flow : FlowId) (bindEnclosing : Bool)
  /-- an event of a flow that is known by its source, category and name -/
  | legacyFlow (track : Track) (phase : Phase) (sourceId : Nat) (category name : String)
      (bindEnclosing : Bool)
deriving DecidableEq

def Phase.letter : Phase → String
  | start => "s"
  | step => "t"
  | finish => "f"

def Phase.ofLetter? : String → Option Phase
  | "s" => some start
  | "t" => some step
  | "f" => some finish
  | _ => none

namespace Event

def track : Event → Track
  | sliceBegin track .. | sliceEnd track .. | flowBegin track .. | flowStep track .. | flowEnd track ..
  | legacyFlow track .. => track

/-- The types of events and the names of their fields. -/
def fieldNames : List (String × List String) :=
  [("slice_begin", ["track", "ts", "name"]),
   ("slice_end", ["track", "ts"]),
   ("flow_begin", ["track", "flow"]),
   ("flow_step", ["track", "flow"]),
   ("flow_end", ["track", "flow", "bind_enclosing_slice"]),
   ("flow_v1", ["track", "phase", "source_id", "category", "name", "bind_to_enclosing"])]

def track? : Option Json → Option Track := Json.required (Json.natBelow? (2 ^ 32))

def id? : Option Json → Option Nat := Json.required (Json.natBelow? (2 ^ 64))

def ts? : Option Json → Option Int := Json.defaulting 0 (Json.intWithin? (-2 ^ 63) (2 ^ 63 - 1))

def text? : Option Json → Option String := Json.defaulting "" Json.string?

def flag? (value : Bool) : Option Json → Option Bool := Json.defaulting value Json.bool?

/-- A phase is a letter, or an object of the letter with nothing: `null` or an object without members. -/
def phase? : Option Json → Option Phase
  | some (.string s) => Phase.ofLetter? s
  | some (.object [(s, .null)]) | some (.object [(s, .object [])]) => Phase.ofLetter? s
  | _ => none

/-- The event of a type with the given fields. -/
def ofFields? (type : String) (fields : List (Option Json)) : Option Event := do
  match type, fields with
  | "slice_begin", [track, ts, name] => return .sliceBegin (← track? track) (← ts? ts) (← text? name)
  | "slice_end", [track, ts] => return .sliceEnd (← track? track) (← ts? ts)
  | "flow_begin", [track, flow] => return .flowBegin (← track? track) (← id? flow)
  | "flow_step", [track, flow] => return .flowStep (← track? track) (← id? flow)
  | "flow_end", [track, flow, bind] =>
    return .flowEnd (← track? track) (← id? flow) (← flag? true bind)
  | "flow_v1", [track, phase, sourceId, category, name, bind] =>
    return .legacyFlow (← track? track) (← phase? phase) (← id? sourceId) (← text? category) (← text? name)
      (← flag? false bind)
  | _, _ => none

def ofJson? (j : Json) : Option Event := do
  match j with
  | .object members =>
    let type ← Json.required Json.string? (valueAt "type" members)
    let names ← valueAt type fieldNames
    if Json.repeats "type" members then none
    else ofFields? type (← Json.byName names members)
  | .array (type :: items) =>
    let type ← type.string?
    let names ← valueAt type fieldNames
    ofFields? type (← Json.byPlace names items)
  | _ => none

/-- The event that a text describes. -/
def read? [Json.Reals] (text : String) : Option Event := (Json.read? text).bind ofJson?

/-- The events of a text that is an array of them. -/
def readAll? [Json.Reals] (text : String) : Option (List Event) :=
  match Json.read? text with
  | some (.array items) => items.mapM ofJson?
  | _ => none

def toJson : Event → Json
  | sliceBegin track ts name =>
    .object [("type", .string "slice_begin"), ("track", .nat track), ("ts", .int ts),
      ("name", .string name)]
  | sliceEnd track ts => .object [("type", .string "slice_end"), ("track", .nat track), ("ts", .int ts)]
  | flowBegin track flow =>
    .object [("type", .string "flow_begin"), ("track", .nat track), ("flow", .nat flow)]
  | flowStep track flow =>
    .object [("type", .string "flow_step"), ("track", .nat track), ("flow", .nat flow)]
  | flowEnd track flow bind =>
    .object [("type", .string "flow_end"), ("track", .nat track), ("flow", .nat flow),
      ("bind_enclosing_slice", .bool bind)]
  | legacyFlow track phase sourceId category name bind =>
    .object [("type", .string "flow_v1"), ("track", .nat track), ("phase", .string phase.letter),
      ("source_id", .nat sourceId), ("category", .string category), ("name", .string name),
      ("bind_to_enclosing", .bool bind)]

end Event

end TraceTables.Timeline
