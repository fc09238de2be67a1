/-! Counters of what does not fit together in a trace. Nothing of it stops a replay. -/

namespace TraceTables.Timeline

inductive Counter where
  /-- a flow event on a track where no slice is open -/
  | flowNoEnclosingSlice
  /-- the begin of a flow that is open -/
  | flowDuplicateId
  /-- a step of a flow that is not open -/
  | flowStepWithoutStart
  /-- the end of a flow that is not open -/
  | flowEndWithoutStart
  /-- the end of a slice on a track where none is open -/
  | misplacedEndEvent
  /-- an end that gives a slice no valid duration -/
  | invalidSliceDuration
deriving DecidableEq

namespace Counter

def all : List Counter :=
  [flowNoEnclosingSlice, flowDuplicateId, flowStepWithoutStart, flowEndWithoutStart, misplacedEndEvent,
   invalidSliceDuration]

/-- All counters in the order of their names. -/
def byName : List Counter :=
  [flowDuplicateId, flowEndWithoutStart, flowNoEnclosingSlice, flowStepWithoutStart, invalidSliceDuration,
   misplacedEndEvent]

def name : Counter → String
  | flowNoEnclosingSlice => "flow_no_enclosing_slice"
  | flowDuplicateId => "flow_duplicate_id"
  | flowStepWithoutStart => "flow_step_without_start"
  | flowEndWithoutStart => "flow_end_without_start"
  | misplacedEndEvent => "misplaced_end_event"
  | invalidSliceDuration => "invalid_slice_duration"

theorem byName_perm : byName.Perm all := by decide

theorem byName_sorted : (byName.map name).Pairwise (· < ·) := by decide

end Counter

structure Counters where
  flowNoEnclosingSlice : Nat
  flowDuplicateId : Nat
  flowStepWithoutStart : Nat
  flowEndWithoutStart : Nat
  misplacedEndEvent : Nat
  invalidSliceDuration : Nat
deriving DecidableEq

namespace Counters

def zero : Counters := ⟨0, 0, 0, 0, 0, 0⟩

def get (c : Counters) : Counter → Nat
  | .flowNoEnclosingSlice => c.flowNoEnclosingSlice
  | .flowDuplicateId => c.flowDuplicateId
  | .flowStepWithoutStart => c.flowStepWithoutStart
  | .flowEndWithoutStart => c.flowEndWithoutStart
  | .misplacedEndEvent => c.misplacedEndEvent
  | .invalidSliceDuration => c.invalidSliceDuration

def increment (c : Counters) : Counter → Counters
  | .flowNoEnclosingSlice => { c with flowNoEnclosingSlice := c.flowNoEnclosingSlice + 1 }
  | .flowDuplicateId => { c with flowDuplicateId := c.flowDuplicateId + 1 }
  | .flowStepWithoutStart => { c with flowStepWithoutStart := c.flowStepWithoutStart + 1 }
  | .flowEndWithoutStart => { c with flowEndWithoutStart := c.flowEndWithoutStart + 1 }
  | .misplacedEndEvent => { c with misplacedEndEvent := c.misplacedEndEvent + 1 }
  | .invalidSliceDuration => { c with invalidSliceDuration := c.invalidSliceDuration + 1 }

@[simp] theorem get_zero (k : Counter) : zero.get k = 0 := by cases k <;> rfl

@[simp] theorem get_increment (c : Counters) (j k : Counter) :
    (c.increment j).get k = if j = k then c.get k + 1 else c.get k := by
  cases j <;> cases k <;> rfl

end Counters

end TraceTables.Timeline
