import TraceTables.Power

/-! Slices: spans of time on a track, and their table. A slice is known by its row. Its duration is set once it
ends, if it ends no earlier than it begins and the duration fits into 63 bits. -/

namespace TraceTables.Timeline

abbrev Track := Nat

abbrev SliceId := Nat

abbrev StringId := Nat

structure Slice where
  track : Track
  name : StringId
  ts : Int
  dur? : Option Int
  depth : Nat
  parent? : Option SliceId
deriving DecidableEq

def maxDuration : Int := 2 ^ 63 - 1

/-- The duration up to a time. -/
def Slice.duration? (s : Slice) (ts : Int) : Option Int :=
  if 0 ≤ ts - s.ts ∧ ts - s.ts ≤ maxDuration then some (ts - s.ts) else none

structure SliceTable where
  rows : List Slice

namespace SliceTable

def empty : SliceTable := ⟨[]⟩

def size (t : SliceTable) : Nat := t.rows.length

def get? (t : SliceTable) (id : SliceId) : Option Slice := t.rows[id]?

/-- The id of the next slice. -/
def nextId (t : SliceTable) : SliceId := t.rows.length

def push (t : SliceTable) (s : Slice) : SliceTable := ⟨t.rows ++ [s]⟩

/-- Ends a slice; the answer is its duration. A slice that is not there, or that cannot end then, stays as it
is. -/
def close (t : SliceTable) (id : SliceId) (ts : Int) : Option Int × SliceTable :=
  match t.get? id with
  | none => (none, t)
  | some s =>
    match s.duration? ts with
    | none => (none, t)
    | some d => (some d, ⟨t.rows.set id { s with dur? := some d }⟩)

@[simp] theorem get?_push (t : SliceTable) (s : Slice) (id : SliceId) :
    (t.push s).get? id = if id = t.nextId then some s else t.get? id := by
  unfold push get? nextId
  rw [List.getElem?_append]
  rcases Nat.lt_trichotomy id t.rows.length with h | h | h
  · simp [h, Nat.ne_of_lt h]
  · simp [h]
  · obtain ⟨k, hk⟩ := Nat.exists_eq_add_of_lt h
    subst hk
    simp [Nat.add_assoc]

@[simp] theorem size_close (t : SliceTable) (id : SliceId) (ts : Int) : (t.close id ts).2.size = t.size := by
  unfold close size
  split
  · rfl
  · split
    · rfl
    · simp

end SliceTable

end TraceTables.Timeline
