import TraceTables.Arguments.Key

/-! The path of fields to a value, and its key. A key has no place for what comes in front of its first text, so empty
names there leave no dot behind. -/

namespace TraceTables.Arguments

/-- A field on a path, with its index if it is repeated. -/
structure Segment where
  name : String
  index : Option Nat

def Segment.text (s : Segment) : String :=
  match s.index with
  | none => s.name
  | some i => s.name ++ "[" ++ toString i ++ "]"

/-- Texts with dots between them, but for empty texts in front. -/
def dotted (texts : List String) : String := ".".intercalate (texts.dropWhile String.isEmpty)

def Key.ofPath (path : List Segment) : Key := ⟨dotted (path.map Segment.name), dotted (path.map Segment.text)⟩

theorem isEmpty_intercalate_cons {sep a : String} (ha : a.isEmpty = false) (as : List String) :
    (sep.intercalate (a :: as)).isEmpty = false := by
  rw [String.isEmpty_eq_false_iff] at ha ⊢
  cases as with
  | nil => rwa [String.intercalate_singleton]
  | cons b as =>
    rw [String.intercalate_cons_cons]
    intro h
    simp [ha] at h

theorem dotted_concat (texts : List String) (text : String) :
    dotted (texts ++ [text]) = joinName (dotted texts) text := by
  unfold dotted joinName
  rw [List.dropWhile_append]
  cases hd : texts.dropWhile String.isEmpty with
  | nil =>
    cases ht : text.isEmpty with
    | true =>
      obtain rfl := String.isEmpty_iff.1 ht
      simp [ht, List.dropWhile]
    | false => simp [ht, List.dropWhile]
  | cons a as =>
    have ha : a.isEmpty = false := by
      have hh := List.head_dropWhile_not String.isEmpty (l := texts) (by simp [hd])
      simpa [hd] using hh
    rw [if_neg (by simp), String.intercalate_append_of_ne_nil (by simp) (by simp), String.intercalate_singleton,
      isEmpty_intercalate_cons ha]
    simp

/-- Without an empty text in front nothing is left out. -/
theorem dotted_eq_intercalate {texts : List String} (h : ∀ text, texts.head? = some text → text ≠ "") :
    dotted texts = ".".intercalate texts := by
  cases texts with
  | nil => rfl
  | cons text texts =>
    have ht : text.isEmpty = false := String.isEmpty_eq_false_iff.2 (h text rfl)
    rw [dotted, List.dropWhile_cons_of_neg (by simp [ht])]

theorem length_lt_joinName {path name : String} (h : path ≠ "" ∨ name ≠ "") :
    path.length < (joinName path name).length := by
  by_cases hp : path = ""
  · subst hp
    have hn : name.length ≠ 0 := by simpa using h
    have hj : joinName "" name = name := rfl
    rw [hj, String.length_empty]
    omega
  · have hdot : ".".length = 1 := rfl
    rw [joinName, if_neg (by simpa using hp), String.length_append, String.length_append]
    omega

theorem joinIndex_joinName (path name : String) (index : Nat) :
    joinIndex (joinName path name) index = joinName path (joinIndex name index) := by
  unfold joinName
  split <;> simp [joinIndex, String.append_assoc]

namespace Key

@[simp] theorem ofPath_nil : ofPath [] = root := by
  simp [ofPath, root, dotted]

theorem flat_field (k : Key) (name : String) (index : Option Nat) :
    (k.field name index).flat = joinName k.flat name := by
  cases index <;> rfl

theorem ofPath_concat (path : List Segment) (name : String) (index : Option Nat) :
    ofPath (path ++ [⟨name, index⟩]) = (ofPath path).field name index := by
  cases index with
  | none => simp [ofPath, dotted_concat, field, member, Segment.text]
  | some i =>
    have ht : Segment.text ⟨name, some i⟩ = joinIndex name i := rfl
    simp [ofPath, dotted_concat, field, member, element, ht, joinIndex_joinName]

/-- Below a field with a name the key is the dotted path itself. -/
theorem ofPath_eq_intercalate {path : List Segment} (h : ∀ s, path.head? = some s → s.name ≠ "") :
    ofPath path = ⟨".".intercalate (path.map Segment.name), ".".intercalate (path.map Segment.text)⟩ := by
  cases path with
  | nil => rfl
  | cons s path =>
    have hn : s.name ≠ "" := h s rfl
    have ht : s.text ≠ "" := by
      cases hi : s.index with
      | none => simpa [Segment.text, hi] using hn
      | some i => simp [Segment.text, hi, hn]
    rw [ofPath, dotted_eq_intercalate (by simpa using hn), dotted_eq_intercalate (by simpa using ht)]

end Key

end TraceTables.Arguments
