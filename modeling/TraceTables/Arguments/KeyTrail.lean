import TraceTables.Arguments.Key

/-! A key that is extended and cut back in place. For every open scope the lengths are kept that the two parts had
when it was entered, and leaving it cuts them to these lengths. -/

namespace TraceTables.Arguments

/-- The first `n` bytes of a text as UTF-8, if a character ends there. -/
def cut : Nat → List Char → Option (List Char)
  | 0, _ => some []
  | _ + 1, [] => none
  | n + 1, c :: cs => if c.utf8Size ≤ n + 1 then (cut (n + 1 - c.utf8Size) cs).map (c :: ·) else none

/-- Cutting behind a text by its length leaves the text. -/
theorem cut_append (cs ds : List Char) : cut (String.ofList cs).utf8ByteSize (cs ++ ds) = some cs := by
  induction cs with
  | nil => simp [cut]
  | cons c cs ih =>
    have hc := c.utf8Size_pos
    obtain ⟨n, hn⟩ : ∃ n, c.utf8Size + (String.ofList cs).utf8ByteSize = n + 1 :=
      ⟨_, (Nat.succ_pred_eq_of_pos (by omega)).symm⟩
    rw [String.ofList_cons, String.utf8ByteSize_append, String.utf8ByteSize_singleton, hn, List.cons_append, cut,
      if_pos (by omega), show n + 1 - c.utf8Size = (String.ofList cs).utf8ByteSize by omega, ih]
    rfl

theorem cut_append_text (s t : String) : cut s.utf8ByteSize (s ++ t).toList = some s.toList := by
  have := cut_append s.toList t.toList
  rwa [String.ofList_toList, ← String.toList_append] at this

/-- The lengths in bytes of both parts of a key. -/
structure Mark where
  flat : Nat
  full : Nat
deriving DecidableEq

def Key.mark (k : Key) : Mark := ⟨k.flat.utf8ByteSize, k.full.utf8ByteSize⟩

/-- Cuts both parts of a key. -/
def Key.cut (k : Key) (m : Mark) : Option Key := do
  let flat ← Arguments.cut m.flat k.flat.toList
  let full ← Arguments.cut m.full k.full.toList
  return ⟨String.ofList flat, String.ofList full⟩

/-- What extends both parts of a key is cut off again at its mark. -/
theorem Key.cut_mark (k : Key) (s t : String) : Key.cut ⟨k.flat ++ s, k.full ++ t⟩ k.mark = some k := by
  unfold Key.cut Key.mark
  rw [cut_append_text, cut_append_text]
  simp

/-- A key and the marks of the open scopes, the innermost first. -/
structure KeyTrail where
  key : Key
  marks : List Mark

namespace KeyTrail

/-- The scope of a whole key. -/
def start (k : Key) : KeyTrail := ⟨k, [k.mark]⟩

/-- Enters a scope in which the key is the given one. -/
def enter (t : KeyTrail) (k : Key) : KeyTrail := ⟨k, t.key.mark :: t.marks⟩

def enterMember (t : KeyTrail) (name : String) : KeyTrail := t.enter (t.key.member name)

def enterElement (t : KeyTrail) (index : Nat) : KeyTrail := t.enter (t.key.element index)

def enterField (t : KeyTrail) (name : String) (index : Option Nat) : KeyTrail :=
  t.enter (t.key.field name index)

/-- Leaves the innermost scope. There is none to leave once the first one has been left. -/
def leave (t : KeyTrail) : Option KeyTrail :=
  match t.marks with
  | [] => none
  | m :: marks => (t.key.cut m).map fun k => ⟨k, marks⟩

theorem leave_enter (t : KeyTrail) (a b : String) :
    (t.enter ⟨t.key.flat ++ a, t.key.full ++ b⟩).leave = some t := by
  simp [enter, leave, Key.cut_mark]

/-- Leaving a field's scope gives back what was there when it was entered. -/
theorem leave_enterField (t : KeyTrail) (name : String) (index : Option Nat) :
    (t.enterField name index).leave = some t := by
  obtain ⟨a, b, h⟩ := t.key.exists_field name index
  rw [enterField, h, leave_enter]

theorem leave_enterMember (t : KeyTrail) (name : String) : (t.enterMember name).leave = some t :=
  t.leave_enterField name none

theorem leave_enterElement (t : KeyTrail) (index : Nat) : (t.enterElement index).leave = some t := by
  have h : t.key.element index = ⟨t.key.flat ++ "", t.key.full ++ ("[" ++ toString index ++ "]")⟩ := by
    simp [Key.element, joinIndex, String.append_assoc]
  rw [enterElement, h, leave_enter]

end KeyTrail

end TraceTables.Arguments
