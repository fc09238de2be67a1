import TraceTables.Assoc

/-! Numbers for values: each distinct value gets the next free number when it first comes, and keeps it. The values are
kept in the order of their numbers, and a map beside them has the number of each. `number` never changes the number of
an earlier value, since the values only grow at their end. -/

namespace TraceTables

/-- The values numbered so far. The number of a value is its place, and the map knows it. -/
structure Numbering (α : Type) [DecidableEq α] where
  items : List α
  numbers : Assoc α Nat
  get?_numbers : ∀ a, numbers.get? a = items.idxOf? a

namespace Numbering

variable {α : Type} [DecidableEq α]

def empty : Numbering α := ⟨[], .empty, fun _ => rfl⟩

/-- Gives the next number to a value that has none. -/
def push (n : Numbering α) (a : α) (h : n.numbers.get? a = none) : Numbering α where
  items := n.items ++ [a]
  numbers := n.numbers.insert a n.items.length
  get?_numbers b := by
    rw [Assoc.get?_insert, n.get?_numbers]
    by_cases hb : a = b
    · subst hb
      have hnew : n.items.findIdx? (· == a) = none := (n.get?_numbers a).symm.trans h
      simp [List.idxOf?, List.findIdx?_append, hnew]
    · simp [List.idxOf?, List.findIdx?_append, hb]

/-- The number of `a` and the numbering that knows it. -/
def number (n : Numbering α) (a : α) : Nat × Numbering α :=
  match h : n.numbers.get? a with
  | some i => (i, n)
  | none => (n.items.length, n.push a h)

def get? (n : Numbering α) (i : Nat) : Option α := n.items[i]?

def size (n : Numbering α) : Nat := n.items.length

theorem items_prefix_number (n : Numbering α) (a : α) : n.items <+: (n.number a).2.items := by
  unfold number
  split
  · exact List.prefix_refl _
  · exact List.prefix_append _ _

/-- The number of a value leads back to it. -/
theorem get?_number (n : Numbering α) (a : α) : (n.number a).2.get? (n.number a).1 = some a := by
  unfold number get?
  split
  · rename_i i h
    rw [n.get?_numbers] at h
    obtain ⟨h1, h2, -⟩ := List.findIdx?_eq_some_iff_getElem.1 h
    simp only [beq_iff_eq] at h2
    rw [List.getElem?_eq_getElem h1, h2]
  · simp [push]

end Numbering

end TraceTables
