import Mathlib.Data.List.Basic
import TraceTables.Proofs.Arguments.Path

/-! What can be read off a key. Names without dots and opening brackets stand apart in it, each with its index, so that a
full key has one path, and the flat key is the full one without its indices. -/

namespace TraceTables.Arguments

/-! ## The segments of a key -/

/-- The parts of a text between its dots are the texts that it was put together from. -/
theorem splitOn_dotted {texts : List String} (hne : texts ≠ []) (h : ∀ text ∈ texts, text ≠ "" ∧ '.' ∉ text.toList) :
    (dotted texts).toList.splitOn '.' = texts.map String.toList := by
  have hhead : ∀ text, texts.head? = some text → text ≠ "" := fun text ht => (h text (List.mem_of_mem_head? ht)).1
  rw [dotted_eq_intercalate hhead, String.toList_intercalate]
  refine List.splitOn_intercalate '.' (fun l hl => ?_) (by simpa using hne)
  obtain ⟨text, ht, rfl⟩ := List.mem_map.1 hl
  exact (h text ht).2

theorem dotted_ne_empty {texts : List String} (hne : texts ≠ []) (h : ∀ text ∈ texts, text ≠ "") :
    dotted texts ≠ "" := by
  cases texts with
  | nil => exact absurd rfl hne
  | cons text texts =>
    have ht : text ≠ "" := h text List.mem_cons_self
    rw [dotted_eq_intercalate (by simpa using ht), ← String.isEmpty_eq_false_iff]
    exact isEmpty_intercalate_cons (String.isEmpty_eq_false_iff.2 ht) texts

theorem dotted_inj {as bs : List String} (ha : ∀ a ∈ as, a ≠ "" ∧ '.' ∉ a.toList)
    (hb : ∀ b ∈ bs, b ≠ "" ∧ '.' ∉ b.toList) (h : dotted as = dotted bs) : as = bs := by
  by_cases hnil : as = [] ∨ bs = []
  · rcases hnil with rfl | rfl
    · by_contra hne
      exact dotted_ne_empty (Ne.symm hne) (fun b hm => (hb b hm).1) h.symm
    · by_contra hne
      exact dotted_ne_empty hne (fun a hm => (ha a hm).1) h
  · rw [not_or] at hnil
    have hsplit := congrArg (fun s => s.toList.splitOn '.') h
    simp only [splitOn_dotted hnil.1 ha, splitOn_dotted hnil.2 hb] at hsplit
    exact (List.map_inj_right fun _ _ => String.toList_inj.1).1 hsplit

/-! ## The name and the index in a segment -/

/-- A name that stands apart in a key: not empty, and without dots and opening brackets. -/
structure Legible (name : String) : Prop where
  nonempty : name ≠ ""
  dotless : '.' ∉ name.toList
  bracketless : '[' ∉ name.toList

/-- What stands behind a name. -/
def brackets : Option Nat → List Char
  | none => []
  | some i => '[' :: ((toString i).toList ++ [']'])

theorem isDigit_of_mem_toString {i : Nat} {c : Char} (h : c ∈ (toString i).toList) : c.isDigit = true := by
  rw [Nat.toString_eq_ofList_toDigits, String.toList_ofList] at h
  exact Nat.isDigit_of_mem_toDigits (by decide) (by decide) h

theorem toString_inj {i j : Nat} (h : (toString i).toList = (toString j).toList) : i = j := by
  have hvalue := congrArg (fun ds => Nat.ofDigitChars 10 ds 0) h
  simpa [Nat.toString_eq_ofList_toDigits] using hvalue

theorem brackets_inj {i j : Option Nat} (h : brackets i = brackets j) : i = j := by
  cases i <;> cases j <;> simp only [brackets, reduceCtorEq, List.cons.injEq, true_and] at h
  · rfl
  · rw [toString_inj (List.append_cancel_right h)]

namespace Segment

variable {s s' : Segment}

theorem toList_text (s : Segment) : s.text.toList = s.name.toList ++ brackets s.index := by
  unfold text brackets
  cases s.index <;> simp

theorem text_ne_empty (hs : Legible s.name) : s.text ≠ "" := by
  have hn : s.name.toList ≠ [] := by simpa using hs.nonempty
  intro h
  have hl := congrArg String.toList h
  rw [toList_text] at hl
  exact hn (List.append_eq_nil_iff.1 hl).1

theorem dot_notMem_text (hs : Legible s.name) : '.' ∉ s.text.toList := by
  rw [toList_text, List.mem_append, not_or]
  refine ⟨hs.dotless, ?_⟩
  cases s.index with
  | none => exact List.not_mem_nil
  | some i =>
    have hi : '.' ∉ (toString i).toList := fun h => absurd (isDigit_of_mem_toString h) (by decide)
    simpa [brackets] using hi

theorem takeWhile_text (hs : Legible s.name) : s.text.toList.takeWhile (· ≠ '[') = s.name.toList := by
  have hname : ∀ c ∈ s.name.toList, decide (c ≠ '[') = true := by
    intro c hc
    rw [decide_eq_true_eq]
    rintro rfl
    exact hs.bracketless hc
  rw [toList_text, List.takeWhile_append_of_pos hname]
  cases s.index <;> simp [brackets]

theorem eq_of_text_eq (hs : Legible s.name) (hs' : Legible s'.name) (h : s.text = s'.text) : s = s' := by
  have hname : s.name.toList = s'.name.toList := by rw [← takeWhile_text hs, ← takeWhile_text hs', h]
  have hindex : brackets s.index = brackets s'.index := by
    have hl := congrArg String.toList h
    rw [toList_text, toList_text, hname] at hl
    exact List.append_cancel_left hl
  rcases s with ⟨name, index⟩
  rcases s' with ⟨name', index'⟩
  obtain rfl := String.toList_inj.1 hname
  obtain rfl := brackets_inj hindex
  rfl

theorem eq_of_map_text_eq {path path' : List Segment} (hp : ∀ s ∈ path, Legible s.name)
    (hp' : ∀ s ∈ path', Legible s.name) (h : path.map text = path'.map text) : path = path' := by
  induction path generalizing path' with
  | nil => simpa using h
  | cons s path ih =>
    cases path' with
    | nil => cases h
    | cons s' path' =>
      rw [List.forall_mem_cons] at hp hp'
      simp only [List.map_cons, List.cons.injEq] at h
      rw [eq_of_text_eq hp.1 hp'.1 h.1, ih hp.2 hp'.2 h.2]

end Segment

/-- Paths of legible names are told apart by their full keys. -/
theorem Key.eq_of_full_ofPath_eq {path path' : List Segment} (hp : ∀ s ∈ path, Legible s.name)
    (hp' : ∀ s ∈ path', Legible s.name) (h : (ofPath path).full = (ofPath path').full) : path = path' := by
  have htexts {path : List Segment} (hp : ∀ s ∈ path, Legible s.name) :
      ∀ text ∈ path.map Segment.text, text ≠ "" ∧ '.' ∉ text.toList := by
    intro text ht
    obtain ⟨s, hs, rfl⟩ := List.mem_map.1 ht
    exact ⟨Segment.text_ne_empty (hp s hs), Segment.dot_notMem_text (hp s hs)⟩
  exact Segment.eq_of_map_text_eq hp hp' (dotted_inj (htexts hp) (htexts hp') h)

/-! ## A key without its indices -/

/-- What is left of a text without the brackets in it and all between them, from a place inside of brackets or not. -/
def unindexed : Bool → List Char → List Char
  | _, [] => []
  | true, c :: cs => unindexed (c ≠ ']') cs
  | false, c :: cs => if c = '[' then unindexed true cs else c :: unindexed false cs

theorem unindexed_append {cs : List Char} (h : '[' ∉ cs) (rest : List Char) :
    unindexed false (cs ++ rest) = cs ++ unindexed false rest := by
  induction cs with
  | nil => rfl
  | cons c cs ih =>
    rw [List.mem_cons, not_or] at h
    rw [List.cons_append, unindexed, if_neg (Ne.symm h.1), ih h.2, List.cons_append]

theorem unindexed_inside {cs : List Char} (h : ']' ∉ cs) (rest : List Char) :
    unindexed true (cs ++ ']' :: rest) = unindexed false rest := by
  induction cs with
  | nil => rfl
  | cons c cs ih =>
    rw [List.mem_cons, not_or] at h
    rw [List.cons_append, unindexed, decide_eq_true (Ne.symm h.1), ih h.2]

theorem unindexed_brackets (index : Option Nat) (rest : List Char) :
    unindexed false (brackets index ++ rest) = unindexed false rest := by
  cases index with
  | none => rfl
  | some i =>
    have hi : ']' ∉ (toString i).toList := fun h => absurd (isDigit_of_mem_toString h) (by decide)
    rw [brackets, List.cons_append, List.append_assoc, unindexed, if_pos rfl]
    exact unindexed_inside hi rest

theorem Segment.unindexed_text {s : Segment} (hs : Legible s.name) (rest : List Char) :
    unindexed false (s.text.toList ++ rest) = s.name.toList ++ unindexed false rest := by
  rw [toList_text, List.append_assoc, unindexed_append hs.bracketless, unindexed_brackets]

theorem unindexed_intercalate {path : List Segment} (hp : ∀ s ∈ path, Legible s.name) :
    unindexed false (['.'].intercalate (path.map fun s => s.text.toList)) =
      ['.'].intercalate (path.map fun s => s.name.toList) := by
  induction path with
  | nil => rfl
  | cons s path ih =>
    rw [List.forall_mem_cons] at hp
    cases path with
    | nil =>
      have hs := Segment.unindexed_text hp.1 []
      rw [List.append_nil] at hs
      simpa [unindexed] using hs
    | cons s' path =>
      have hdot (rest : List Char) : unindexed false (['.'] ++ rest) = ['.'] ++ unindexed false rest :=
        unindexed_append (by decide) rest
      have hrest := ih hp.2
      simp only [List.map_cons, List.intercalate_cons_cons, List.append_assoc] at hrest ⊢
      rw [Segment.unindexed_text hp.1, hdot, hrest]

/-- The flat key of a path of legible names is the full one without its indices. -/
theorem Key.unindexed_full_ofPath {path : List Segment} (hp : ∀ s ∈ path, Legible s.name) :
    unindexed false (ofPath path).full.toList = (ofPath path).flat.toList := by
  have hhead : ∀ s, path.head? = some s → s.name ≠ "" := fun s hs => (hp s (List.mem_of_mem_head? hs)).nonempty
  rw [ofPath_eq_intercalate hhead, String.toList_intercalate, String.toList_intercalate, List.map_map, List.map_map]
  exact unindexed_intercalate hp

end TraceTables.Arguments
