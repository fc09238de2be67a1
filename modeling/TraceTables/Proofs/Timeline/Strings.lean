import Mathlib.Data.List.Infix
import TraceTables.Proofs.Numbering
import TraceTables.Proofs.Timeline.History

/-! The strings of a timeline. Each has the number that it was given when it first came, the empty one zero from the
start, and none is ever given up. -/

namespace TraceTables.Timeline

/-- The state after some strings have been interned, one after the other. -/
def interned (calls : List String) : Timeline := calls.foldl (fun t s => (t.intern s).2) empty

/-- The number that a string is given behind some others. -/
def given (before : List String) (s : String) : StringId := ((interned before).intern s).1

/-- The distinct strings in the order in which they came. The empty one is there first. -/
def distinct (calls : List String) : List String := ("" :: calls).eraseDups

theorem nodup_distinct (calls : List String) : (distinct calls).Nodup := nodup_eraseDups _

theorem mem_distinct {s : String} {calls : List String} : s ∈ distinct calls ↔ s = "" ∨ s ∈ calls := by
  rw [distinct, List.mem_eraseDups, List.mem_cons]

theorem distinct_concat (calls : List String) (s : String) :
    distinct (calls ++ [s]) = if s ∈ distinct calls then distinct calls else distinct calls ++ [s] :=
  eraseDups_concat ("" :: calls) s

theorem distinct_prefix {before calls : List String} (h : before <+: calls) : distinct before <+: distinct calls :=
  eraseDups_prefix (List.cons_prefix_cons.2 ⟨rfl, h⟩)

theorem items_interned (calls : List String) : (interned calls).strings.items = distinct calls := by
  induction calls using List.reverseRecOn with
  | nil => rfl
  | append_singleton calls s ih =>
    have hstep : interned (calls ++ [s]) = ((interned calls).intern s).2 := by simp [interned]
    rw [hstep, distinct_concat, ← ih]
    exact Numbering.items_number _ s

theorem size_interned (calls : List String) : (interned calls).strings.size = (distinct calls).length := by
  rw [Numbering.size, items_interned]

theorem idxOf_distinct_empty (calls : List String) : (distinct calls).idxOf "" = 0 := by
  rw [distinct, List.eraseDups_cons, List.idxOf_cons_self]

section Calls

variable {before calls : List String} {s : String}

theorem mem_distinct_of_call (h : before ++ [s] <+: calls) : s ∈ distinct calls :=
  mem_distinct.2 (Or.inr (h.subset (by simp)))

/-- A string is given its place among the distinct ones, whatever comes behind it. -/
theorem given_eq (h : before ++ [s] <+: calls) : given before s = (distinct calls).idxOf s := by
  have hmem : s ∈ distinct (before ++ [s]) := mem_distinct_of_call (List.prefix_refl _)
  obtain ⟨rest, hrest⟩ := distinct_prefix h
  calc
    given before s = (distinct before).idxOf s := by
      rw [← items_interned]
      exact Numbering.fst_number _ s
    _ = (distinct (before ++ [s])).idxOf s := by
      rw [distinct_concat]
      by_cases hold : s ∈ distinct before
      · rw [if_pos hold]
      · rw [if_neg hold, List.idxOf_append_of_notMem hold, List.idxOf_eq_length hold, List.idxOf_cons_self,
          Nat.add_zero]
    _ = (distinct calls).idxOf s := by rw [← hrest, List.idxOf_append_of_mem hmem]

/-- The numbers of the calls are all places but the first, which may be one too. -/
theorem lt_length_distinct_iff {id : StringId} :
    id < (distinct calls).length ↔ id = 0 ∨ ∃ before s, before ++ [s] <+: calls ∧ given before s = id := by
  constructor
  · intro hlt
    have hid := (nodup_distinct calls).idxOf_getElem id hlt
    have hmem := List.getElem_mem hlt
    generalize (distinct calls)[id] = s at hid hmem
    rcases mem_distinct.1 hmem with rfl | hs
    · exact Or.inl (hid.symm.trans (idxOf_distinct_empty calls))
    · obtain ⟨before, after, rfl⟩ := List.append_of_mem hs
      have h : before ++ [s] <+: before ++ s :: after := ⟨after, by simp⟩
      exact Or.inr ⟨before, s, h, (given_eq h).trans hid⟩
  · rintro (rfl | ⟨before, s, h, rfl⟩)
    · exact List.length_pos_of_mem (mem_distinct.2 (Or.inl rfl))
    · rw [given_eq h]
      exact List.idxOf_lt_length_of_mem (mem_distinct_of_call h)

end Calls

/-- A string can be looked up under the number that it was given, at any later time. Two calls are given one number if
and only if they are for one string. Zero belongs to the empty string, which is there from the start, and with it the
numbers that were given are those from zero up to the size. The size grows by one with each string that was not there
before. So it is the number of distinct strings, the empty one included, and 32 bits hold the numbers of as many strings
as they count. -/
theorem intern_numbers_strings (calls : List String) :
    (∀ before s, before ++ [s] <+: calls → (interned calls).strings.get? (given before s) = some s) ∧
      (∀ before s before' s', before ++ [s] <+: calls → before' ++ [s'] <+: calls →
        (given before s = given before' s' ↔ s = s')) ∧
      (∀ id, id < (interned calls).strings.size ↔
        id = 0 ∨ ∃ before s, before ++ [s] <+: calls ∧ given before s = id) ∧
      (interned calls).strings.get? 0 = some "" ∧
      (∀ before s, before ++ [s] <+: calls → (given before s = 0 ↔ s = "")) ∧
      (∀ before s, before ++ [s] <+: calls → (interned (before ++ [s])).strings.size =
        (interned before).strings.size + if s = "" ∨ s ∈ before then 0 else 1) ∧
      (interned calls).strings.size = (distinct calls).length := by
  have hget {s : String} (hs : s ∈ distinct calls) :
      (interned calls).strings.get? ((distinct calls).idxOf s) = some s := by
    rw [Numbering.get?, items_interned]
    exact List.getElem?_idxOf hs
  have hsame {s s' : String} (hs : s ∈ distinct calls) :
      (distinct calls).idxOf s = (distinct calls).idxOf s' ↔ s = s' := List.idxOf_inj hs
  refine ⟨?_, ?_, ?_, ?_, ?_, ?_, size_interned calls⟩
  · intro before s h
    rw [given_eq h]
    exact hget (mem_distinct_of_call h)
  · intro before s before' s' h h'
    rw [given_eq h, given_eq h']
    exact hsame (mem_distinct_of_call h)
  · intro id
    rw [size_interned]
    exact lt_length_distinct_iff
  · have hempty := hget (mem_distinct.2 (Or.inl rfl))
    rwa [idxOf_distinct_empty] at hempty
  · intro before s h
    rw [given_eq h, ← idxOf_distinct_empty calls]
    exact hsame (mem_distinct_of_call h)
  · intro before s _
    rw [size_interned, size_interned, distinct_concat]
    simp only [mem_distinct]
    split <;> simp

/-- The empty string comes by itself, and one string again. -/
example : given ["cat", "name", ""] "cat" = 1 ∧ given ["cat", "name"] "" = 0 ∧
    (interned ["cat", "name", "", "cat"]).strings.size = 3 := by
  decide

end TraceTables.Timeline
