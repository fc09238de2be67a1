import Mathlib.Data.List.Induction
import TraceTables.Numbering

/-! The number of a value is its place among the distinct values, in the order in which they first came. -/

namespace TraceTables

variable {α : Type} [DecidableEq α]

theorem eraseDups_concat (l : List α) (a : α) :
    (l ++ [a]).eraseDups = if a ∈ l.eraseDups then l.eraseDups else l.eraseDups ++ [a] := by
  rw [List.eraseDups_append]
  by_cases h : a ∈ l <;> simp [List.removeAll, List.eraseDups_cons, h]

theorem nodup_concat_new {l : List α} (h : l.Nodup) (a : α) : (if a ∈ l then l else l ++ [a]).Nodup := by
  split
  · exact h
  · rename_i ha
    rw [List.nodup_append]
    refine ⟨h, by simp, ?_⟩
    rintro b hb c hc rfl
    rw [List.mem_singleton.1 hc] at hb
    exact ha hb

theorem nodup_eraseDups (l : List α) : l.eraseDups.Nodup := by
  induction l using List.reverseRecOn with
  | nil => exact List.nodup_nil
  | append_singleton l a ih =>
    rw [eraseDups_concat]
    exact nodup_concat_new ih a

/-- The distinct items of a front come first among those of the whole. -/
theorem eraseDups_prefix {l l' : List α} (h : l <+: l') : l.eraseDups <+: l'.eraseDups := by
  obtain ⟨rest, rfl⟩ := h
  rw [List.eraseDups_append]
  exact List.prefix_append _ _

/-- If no two values are mapped to one, the distinct images are those of the distinct values, in the same order. -/
theorem eraseDups_map {β : Type} [DecidableEq β] {g : α → β} {l : List α}
    (h : ∀ a ∈ l, ∀ b ∈ l, g a = g b → a = b) : (l.map g).eraseDups = l.eraseDups.map g := by
  induction l using List.reverseRecOn with
  | nil => rfl
  | append_singleton l a ih =>
    have hl := ih fun b hb c hc => h b (List.mem_append_left _ hb) c (List.mem_append_left _ hc)
    have hmem : g a ∈ l.eraseDups.map g ↔ a ∈ l.eraseDups := by
      constructor
      · intro hm
        obtain ⟨b, hb, hba⟩ := List.mem_map.1 hm
        have hbl : b ∈ l := List.mem_eraseDups.1 hb
        rwa [← h b (List.mem_append_left _ hbl) a (by simp) hba]
      · exact List.mem_map_of_mem
    rw [List.map_append, List.map_singleton, eraseDups_concat, eraseDups_concat, hl]
    simp only [hmem]
    split <;> simp

/-- The places of the items of a list without repetitions are the numbers from zero on. -/
theorem map_idxOf_self {l : List α} (h : l.Nodup) : l.map (l.idxOf ·) = List.range l.length := by
  refine List.ext_getElem (by simp) fun i hi _ => ?_
  rw [List.getElem_map, List.getElem_range]
  exact h.idxOf_getElem i _

/-- A value keeps its place if the list is mapped, as long as no other value is mapped to its image. -/
theorem idxOf_map_eq {β : Type} [BEq β] [LawfulBEq β] {g : α → β} {a : α} {b : β} (h : ∀ x, g x = b ↔ x = a)
    (l : List α) : (l.map g).idxOf b = l.idxOf a := by
  induction l with
  | nil => rfl
  | cons x l ih =>
    rw [List.map_cons, List.idxOf_cons, List.idxOf_cons, ih]
    by_cases hx : x = a
    · simp [hx, (h a).2 rfl]
    · have hg : g x ≠ b := fun hg => hx ((h x).1 hg)
      simp [beq_eq_false_iff_ne.2 hx, beq_eq_false_iff_ne.2 hg]

namespace Numbering

/-- A value that is new has the next number, the place behind all others. -/
theorem fst_number (n : Numbering α) (a : α) : (n.number a).1 = n.items.idxOf a := by
  unfold number
  split
  · rename_i i h
    rw [n.get?_numbers] at h
    exact (List.findIdx?_eq_some_iff_findIdx_eq.1 h).2.symm
  · rename_i h
    rw [n.get?_numbers] at h
    exact (List.idxOf_eq_length (List.idxOf?_eq_none_iff.1 h)).symm

theorem items_number (n : Numbering α) (a : α) :
    (n.number a).2.items = if a ∈ n.items then n.items else n.items ++ [a] := by
  unfold number
  split
  · rename_i i h
    rw [n.get?_numbers] at h
    obtain ⟨hlt, hi⟩ := List.findIdx?_eq_some_iff_findIdx_eq.1 h
    have ha : a ∈ n.items := List.idxOf_lt_length_iff.1 (Nat.lt_of_le_of_lt (Nat.le_of_eq hi) hlt)
    rw [if_pos ha]
  · rename_i h
    rw [n.get?_numbers] at h
    rw [if_neg (List.idxOf?_eq_none_iff.1 h), push]

theorem nodup_number {n : Numbering α} (h : n.items.Nodup) (a : α) : (n.number a).2.items.Nodup := by
  rw [items_number]
  exact nodup_concat_new h a

theorem get?_of_isPrefix {n n' : Numbering α} (h : n.items <+: n'.items) {i : Nat} {a : α} (hi : n.get? i = some a) :
    n'.get? i = some a := by
  obtain ⟨rest, hr⟩ := h
  unfold get? at hi ⊢
  rw [← hr, List.getElem?_append_left (List.getElem?_eq_some_iff.1 hi).1, hi]

/-- Distinct values have distinct numbers. -/
theorem get?_eq_some_iff {n : Numbering α} (h : n.items.Nodup) {i : Nat} {a : α} (hi : n.get? i = some a) (j : Nat) :
    n.get? j = some a ↔ j = i := by
  constructor
  · intro hj
    have hlt : j < n.items.length := (List.getElem?_eq_some_iff.1 hj).1
    exact (List.getElem?_inj hlt h).1 (hj.trans hi.symm)
  · rintro rfl
    exact hi

end Numbering

end TraceTables
