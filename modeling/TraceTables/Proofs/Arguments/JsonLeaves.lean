import Mathlib.Data.List.Forall2
import TraceTables.Arguments.Table
import TraceTables.Json.Double
import TraceTables.Proofs.Arguments.Scopes
import TraceTables.Proofs.Assoc
import TraceTables.Proofs.Json.Reading

/-! The rows of a JSON text are those of the leaves of its value. A leaf lies below scopes, a member for each object and
an element for each array; its key is the given one with these scopes open, and its value is exact. -/

namespace TraceTables.Arguments

open Json (Phrase PhraseText)

/-! ## Leaves -/

inductive JsonScalar where
  | bool (b : Bool)
  | number (x : Json.Number)
  | string (s : String)
deriving DecidableEq

/-- A truth value, number or string within a JSON value, and the scopes it lies in, the outermost first. -/
structure JsonLeaf where
  path : List Scope
  content : JsonScalar
deriving DecidableEq

def JsonLeaf.below (s : Scope) (l : JsonLeaf) : JsonLeaf := ⟨s :: l.path, l.content⟩

mutual

/-- The leaves in order. Of members with one name the last is meant, in the place of the first. -/
def jsonLeaves : Json → List JsonLeaf
  | .null => []
  | .bool b => [⟨[], .bool b⟩]
  | .number x => [⟨[], .number x⟩]
  | .string s => [⟨[], .string s⟩]
  | .array items => jsonItemLeaves 0 items
  | .object members => (lastOfEach (jsonMemberLeaves members)).flatMap fun m => m.2.map (JsonLeaf.below (.member m.1))

def jsonItemLeaves (index : Nat) : List Json → List JsonLeaf
  | [] => []
  | j :: js => (jsonLeaves j).map (JsonLeaf.below (.element index)) ++ jsonItemLeaves (index + 1) js

def jsonMemberLeaves : List (String × Json) → List (String × List JsonLeaf)
  | [] => []
  | (name, j) :: ms => (name, jsonLeaves j) :: jsonMemberLeaves ms

end

theorem jsonLeaves_object (members : List (String × Json)) :
    jsonLeaves (.object members) =
      (lastOfEach members).flatMap fun m => (jsonLeaves m.2).map (JsonLeaf.below (.member m.1)) := by
  have hmembers : jsonMemberLeaves members = members.map (Prod.map id jsonLeaves) := by
    induction members with
    | nil => rfl
    | cons m ms ih => exact congrArg _ ih
  rw [jsonLeaves, hmembers, lastOfEach_map, List.flatMap_map]
  rfl

/-! ## Rows of leaves -/

def JsonScalar.value : JsonScalar → Value
  | .bool b => .bool b
  | .number x => .ofNumber x
  | .string s => .string s

def JsonLeaf.row (k : Key) (l : JsonLeaf) : Row := ⟨k.within l.path.reverse, l.content.value⟩

theorem Key.within_append (k : Key) (inner outer : List Scope) :
    k.within (inner ++ outer) = (k.within outer).within inner := by
  induction inner with
  | nil => rfl
  | cons s inner ih => rw [List.cons_append, within, within, ih]

theorem JsonLeaf.row_below (k : Key) (s : Scope) (l : JsonLeaf) : (l.below s).row k = l.row (k.within [s]) := by
  rw [row, row, below, List.reverse_cons, Key.within_append]

theorem Key.element_eq (k : Key) (index : Nat) : k.element index = k.within [.element index] := by
  simp [element, within, Scope.addsFlat, Scope.addsFull, joinIndex_eq]

theorem Key.member_eq (k : Key) (name : String) : k.member name = k.within [.member name] := by
  simp [member, within, Scope.addsFlat, Scope.addsFull, joinName_eq]

theorem settleMembers_eq (members done : List (String × Json)) :
    Json.settleMembers members done =
      (members.map (Prod.map id Json.settle)).foldl (fun done m => upsert m.1 m.2 done) done := by
  induction members generalizing done with
  | nil => rfl
  | cons m ms ih => exact ih _

theorem settle_object (members : List (String × Json)) :
    (Json.object members).settle = .object ((lastOfEach members).map (Prod.map id Json.settle)) := by
  rw [Json.settle, settleMembers_eq, foldl_upsert, lastOfEach_map]

theorem jsonMemberRows_eq (k : Key) (members : List (String × Json)) :
    jsonMemberRows k members = members.flatMap fun m => jsonRows (k.member m.1) m.2 := by
  induction members with
  | nil => rfl
  | cons m ms ih => exact congrArg _ ih

mutual

/-- The rows are those of the leaves, one for each. -/
theorem jsonRows_settle (k : Key) : ∀ j : Json, jsonRows k j.settle = (jsonLeaves j).map (JsonLeaf.row k)
  | .null => rfl
  | .bool b => rfl
  | .number x => rfl
  | .string s => rfl
  | .array items => jsonItemRows_settle k 0 items
  | .object members => by
    have hmember (m : String × Json) (hm : m ∈ lastOfEach members) :
        jsonRows (k.member m.1) m.2.settle =
          ((jsonLeaves m.2).map (JsonLeaf.below (.member m.1))).map (JsonLeaf.row k) := by
      rw [jsonRows_settle_member (k.member m.1) members m (mem_of_mem_lastOfEach hm), List.map_map, Key.member_eq]
      exact List.map_congr_left fun l _ => (l.row_below k _).symm
    rw [settle_object, jsonLeaves_object, jsonRows, jsonMemberRows_eq, List.flatMap_map, List.map_flatMap]
    exact List.flatMap_congr hmember

theorem jsonItemRows_settle (k : Key) (index : Nat) :
    ∀ js : List Json, jsonItemRows k index (Json.settleAll js) = (jsonItemLeaves index js).map (JsonLeaf.row k)
  | [] => rfl
  | j :: js => by
    have hitem : jsonRows (k.element index) j.settle =
        ((jsonLeaves j).map (JsonLeaf.below (.element index))).map (JsonLeaf.row k) := by
      rw [jsonRows_settle (k.element index) j, List.map_map, Key.element_eq]
      exact List.map_congr_left fun l _ => (l.row_below k _).symm
    rw [Json.settleAll, jsonItemRows, jsonItemLeaves, List.map_append, hitem, jsonItemRows_settle k (index + 1) js]

theorem jsonRows_settle_member (k : Key) :
    ∀ ms : List (String × Json), ∀ m ∈ ms, jsonRows k m.2.settle = (jsonLeaves m.2).map (JsonLeaf.row k)
  | (_, j) :: ms, m, hm => by
    obtain rfl | hm := List.mem_cons.1 hm
    · exact jsonRows_settle k j
    · exact jsonRows_settle_member k ms m hm

end

/-! ## Exact values -/

/-- The value that stands for a leaf: an integer is signed if it can be, and exact. -/
inductive Stands : JsonScalar → Value → Prop
  | bool {b : Bool} : Stands (.bool b) (.bool b)
  | int {z : Int} {v : Int64} : z < 2 ^ 63 → v.toInt = z → Stands (.number (.integer z)) (.int v)
  | uint {z : Int} {v : UInt64} : 2 ^ 63 ≤ z → (v.toNat : Int) = z → Stands (.number (.integer z)) (.uint v)
  | real {x : Binary64} : Stands (.number (.real x)) (.real x)
  | string {s : String} : Stands (.string s) (.string s)

/-- If it is an integer, 64 bits can hold it. -/
def JsonScalar.Fits (c : JsonScalar) : Prop := ∀ z, c = .number (.integer z) → -2 ^ 63 ≤ z ∧ z < 2 ^ 64

section Reading

variable [Json.Reals]

end Reading

/-- The key is empty in its flat part, one name comes twice, and one integer is too large to be signed. -/
example :
    (Table.empty.addJson ⟨"", "k"⟩
      "\x7b\"a\": [1, null, true], \"b\":9223372036854775808, \"a\" : \x7b\"\":[[], [-0]]\x7d \x7d").2.rows =
    [⟨⟨"a.", "k.a.[1][0]"⟩, .real ⟨0x8000000000000000⟩⟩, ⟨⟨"b", "k.b"⟩, .uint 0x8000000000000000⟩] := by
  decide +kernel

end TraceTables.Arguments
