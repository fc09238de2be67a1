import TraceTables.Assoc
import TraceTables.Numbering
import TraceTables.Timeline.Counter
import TraceTables.Timeline.Slice

/-! The state of a trace while it is replayed: the tables that grow, and what is open at the moment. Slices open
and close like brackets, on each track for itself. -/

namespace TraceTables

namespace Timeline

abbrev FlowId := Nat

/-- An arrow from one slice to another. -/
structure Edge where
  source : SliceId
  target : SliceId
deriving DecidableEq

/-- What the events of a flow have in common that come without a flow id. -/
structure LegacyFlow where
  sourceId : Nat
  category : StringId
  name : StringId
deriving DecidableEq

end Timeline

open Timeline

structure Timeline where
  strings : Numbering String
  slices : SliceTable
  edges : List Edge
  counters : Counters
  /-- the open slices of a track, the innermost first -/
  openSlices : Assoc Track (List SliceId)
  /-- where the next edge of an open flow starts -/
  endpoints : Assoc FlowId SliceId
  /-- ends of flows that wait for the next slice of a track, in order of arrival -/
  parked : Assoc Track (List FlowId)
  legacy : Numbering LegacyFlow

namespace Timeline

/-- Nothing has happened. The empty string has number zero from the start. -/
def empty : Timeline :=
  ⟨(Numbering.empty.number "").2, .empty, [], .zero, .empty, .empty, .empty, .empty⟩

def count (t : Timeline) (c : Counter) : Timeline := { t with counters := t.counters.increment c }

/-- The number of a string. -/
def intern (t : Timeline) (s : String) : StringId × Timeline :=
  let r := t.strings.number s
  (r.1, { t with strings := r.2 })

def stack (t : Timeline) (track : Track) : List SliceId := (t.openSlices.get? track).getD []

/-- The innermost open slice of a track. -/
def top? (t : Timeline) (track : Track) : Option SliceId := (t.stack track).head?

/-- Opens a slice inside the innermost one of its track. -/
def beginSlice (t : Timeline) (track : Track) (ts : Int) (name : StringId) : SliceId × Timeline :=
  let around := t.stack track
  let id := t.slices.nextId
  (id, { t with
    slices := t.slices.push ⟨track, name, ts, none, around.length, around.head?⟩
    openSlices := t.openSlices.insert track (id :: around) })

/-- Closes the innermost slice of a track. It counts as closed also when its duration is not valid. -/
def endSlice (t : Timeline) (track : Track) (ts : Int) : Option SliceId × Timeline :=
  match t.stack track with
  | [] => (none, t.count .misplacedEndEvent)
  | id :: rest =>
    let r := t.slices.close id ts
    let t := { t with slices := r.2, openSlices := t.openSlices.insert track rest }
    (some id, if r.1.isNone then t.count .invalidSliceDuration else t)

end Timeline

end TraceTables
