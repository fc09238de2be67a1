/-! Keys of argument rows. The full key is the path of names and indices to a value; the flat key leaves out the
indices, so all elements of an array share it. -/

namespace TraceTables.Arguments

structure Key where
  flat : String
  full : String
deriving DecidableEq

/-- A name behind a path, with a dot between them unless the path is empty. -/
def joinName (path name : String) : String := if path.isEmpty then name else path ++ "." ++ name

def joinIndex (path : String) (index : Nat) : String := path ++ "[" ++ toString index ++ "]"

theorem exists_joinName (path name : String) : ∃ t, joinName path name = path ++ t := by
  unfold joinName
  split
  · rename_i h
    exact ⟨name, by simp [String.isEmpty_iff.1 h]⟩
  · exact ⟨"." ++ name, by rw [String.append_assoc]⟩

namespace Key

def root : Key := ⟨"", ""⟩

def ofName (name : String) : Key := ⟨name, name⟩

def isEmpty (k : Key) : Bool := k.full.isEmpty

/-- The key of a named member. -/
def member (k : Key) (name : String) : Key := ⟨joinName k.flat name, joinName k.full name⟩

/-- The key of an array element. -/
def element (k : Key) (index : Nat) : Key := ⟨k.flat, joinIndex k.full index⟩

/-- The key of a field, which has an index if it is repeated. -/
def field (k : Key) (name : String) : Option Nat → Key
  | none => k.member name
  | some index => (k.member name).element index

/-- The key of a field extends both parts of that of its message. -/
theorem exists_field (k : Key) (name : String) (index : Option Nat) :
    ∃ s t, k.field name index = ⟨k.flat ++ s, k.full ++ t⟩ := by
  obtain ⟨s, hs⟩ := exists_joinName k.flat name
  obtain ⟨t, ht⟩ := exists_joinName k.full name
  cases index with
  | none => exact ⟨s, t, by simp [field, member, hs, ht]⟩
  | some i => exact ⟨s, t ++ ("[" ++ toString i ++ "]"), by
      simp [field, member, element, joinIndex, hs, ht, String.append_assoc]⟩

end Key

end TraceTables.Arguments
