import Mathlib.Data.List.Basic
import TraceTables.Schema.Load

/-! A name that is relative stands for a message type in the innermost of the scopes around it that has one of that
name. The search through the scopes finds just this. -/

namespace TraceTables.Schema

/-- A scope around another one: that itself, what is in front of one of its dots, or the empty one. -/
def Around (outer scope : String) : Prop := outer = scope ∨ (∃ rest, scope = outer ++ "." ++ rest) ∨ outer = ""

/-- Of the scopes around one, the innermost in which a name is known. -/
structure Innermost (known : String → Prop) (scope name outer : String) : Prop where
  around : Around outer scope
  isKnown : known (outer ++ "." ++ name)
  longest : ∀ other, Around other scope → known (other ++ "." ++ name) → other.length ≤ outer.length

/-- The full name for which a name stands in a scope. -/
inductive Means (known : String → Prop) (scope : String) : String → String → Prop where
  | absolute {name : String} (h : name.toList.head? = some '.') : Means known scope name name
  | relative {name outer : String} (hn : name ≠ "") (hr : name.toList.head? ≠ some '.')
      (h : Innermost known scope name outer) : Means known scope name (outer ++ "." ++ name)

/-! ## The scopes around a scope -/

theorem mem_cuts {name front : List Char} : front ∈ cuts name ↔ ∃ rest, name = front ++ '.' :: rest := by
  induction name generalizing front with
  | nil => simp [cuts]
  | cons c cs ih =>
    rw [cuts, List.mem_append, List.mem_map]
    cases front with
    | nil => by_cases hc : c = '.' <;> simp [hc]
    | cons a front =>
      have hend : a :: front ∉ (if c = '.' then [[]] else [] : List (List Char)) := by
        split <;> simp
      simp only [hend, or_false, List.cons_append, List.cons.injEq]
      constructor
      · rintro ⟨q, hq, rfl, rfl⟩
        obtain ⟨rest, hrest⟩ := ih.1 hq
        exact ⟨rest, rfl, hrest⟩
      · rintro ⟨rest, rfl, hrest⟩
        exact ⟨front, ih.2 ⟨rest, hrest⟩, rfl, rfl⟩

theorem mem_scopes {outer scope : String} : outer ∈ scopes scope ↔ Around outer scope := by
  have hcut : outer ∈ (cuts scope.toList).map String.ofList ↔ ∃ rest, scope = outer ++ "." ++ rest := by
    simp only [List.mem_map, mem_cuts]
    constructor
    · rintro ⟨front, ⟨rest, hrest⟩, rfl⟩
      refine ⟨String.ofList rest, String.toList_inj.1 ?_⟩
      simp [hrest]
    · rintro ⟨rest, rfl⟩
      exact ⟨outer.toList, ⟨rest.toList, by simp⟩, String.ofList_toList⟩
  simp only [scopes, Around, List.mem_cons, List.mem_append, hcut, List.not_mem_nil, or_false]

theorem pairwise_cuts (name : List Char) : (cuts name).Pairwise fun a b => b.length < a.length := by
  induction name with
  | nil => exact List.Pairwise.nil
  | cons c cs ih =>
    rw [cuts, List.pairwise_append, List.pairwise_map]
    refine ⟨ih.imp fun h => Nat.succ_lt_succ h, ?_, ?_⟩
    · split
      · exact List.pairwise_singleton _ _
      · exact List.Pairwise.nil
    · intro a ha b hb
      obtain ⟨q, -, rfl⟩ := List.mem_map.1 ha
      split at hb
      · rw [List.mem_singleton.1 hb]
        exact Nat.succ_pos _
      · cases hb

/-- The scopes are gone through from the longest to the shortest. -/
theorem pairwise_scopes (scope : String) : (scopes scope).Pairwise fun a b => b.length ≤ a.length := by
  rw [scopes, List.pairwise_cons, List.pairwise_append, List.pairwise_map]
  refine ⟨?_, (pairwise_cuts scope.toList).imp ?_, List.pairwise_singleton _ _, ?_⟩
  · intro b hb
    rcases List.mem_append.1 hb with hb | hb
    · obtain ⟨front, hfront, rfl⟩ := List.mem_map.1 hb
      obtain ⟨rest, hrest⟩ := mem_cuts.1 hfront
      rw [← String.length_toList, ← String.length_toList, String.toList_ofList, hrest, List.length_append]
      exact Nat.le_add_right _ _
    · rw [List.mem_singleton.1 hb]
      exact Nat.zero_le _
  · intro a b h
    simpa using Nat.le_of_lt h
  · intro a _ b hb
    rw [List.mem_singleton.1 hb]
    exact Nat.zero_le _

/-! ## The search -/

theorem find?_longest {p : String → Bool} {ss : List String} (hs : ss.Pairwise fun a b => b.length ≤ a.length)
    {outer : String} (h : ss.find? p = some outer) : ∀ other ∈ ss, p other = true → other.length ≤ outer.length := by
  obtain ⟨-, before, after, rfl, hbefore⟩ := List.find?_eq_some_iff_append.1 h
  intro other hother hp
  rw [List.pairwise_append, List.pairwise_cons] at hs
  rcases List.mem_append.1 hother with hm | hm
  · have hfalse := hbefore other hm
    rw [hp] at hfalse
    cases hfalse
  · rcases List.mem_cons.1 hm with rfl | hm
    · exact Nat.le_refl _
    · exact hs.2.1.1 other hm

theorem Innermost.of_find? {known : String → Bool} {scope name outer : String}
    (h : (scopes scope).find? (fun s => known (s ++ "." ++ name)) = some outer) :
    Innermost (known · = true) scope name outer where
  around := mem_scopes.1 (List.mem_of_find?_eq_some h)
  isKnown := List.find?_some (p := fun s => known (s ++ "." ++ name)) h
  longest other ho hk := find?_longest (pairwise_scopes scope) h other (mem_scopes.2 ho) hk

theorem Around.isPrefix {outer scope : String} (h : Around outer scope) : outer.toList <+: scope.toList := by
  rcases h with rfl | ⟨rest, rfl⟩ | rfl
  · exact List.prefix_refl _
  · rw [String.toList_append, String.toList_append, List.append_assoc]
    exact List.prefix_append _ _
  · exact List.nil_prefix

/-- There is one innermost scope at most. -/
theorem Innermost.unique {known : String → Prop} {scope name outer other : String}
    (h : Innermost known scope name outer) (h' : Innermost known scope name other) : outer = other := by
  have hle := h.longest other h'.around h'.isKnown
  have hge := h'.longest outer h.around h.isKnown
  rw [← String.length_toList, ← String.length_toList] at hle hge
  have hp := List.prefix_of_prefix_length_le h.around.isPrefix h'.around.isPrefix hge
  exact String.toList_inj.1 (hp.eq_of_length (Nat.le_antisymm hge hle))

theorem resolve_eq_some_iff {known : String → Bool} {scope name full : String} :
    resolve known scope name = some full ↔ Means (known · = true) scope name full := by
  unfold resolve
  by_cases hn : name = ""
  · subst hn
    have hno : ¬ Means (known · = true) scope "" full := by
      rintro (h | ⟨hn, -, -⟩)
      · cases h
      · exact hn rfl
    simp [hno]
  · have hempty : name.isEmpty = false := by simpa using hn
    rw [hempty, if_neg Bool.false_ne_true]
    by_cases hr : name.toList.head? = some '.'
    · rw [if_pos hr]
      constructor
      · rintro ⟨⟩
        exact .absolute hr
      · rintro (h | ⟨-, h, -⟩)
        · rfl
        · exact absurd hr h
    · rw [if_neg hr, List.find?_map, Option.map_eq_some_iff]
      constructor
      · rintro ⟨outer, ho, rfl⟩
        exact .relative hn hr (Innermost.of_find? ho)
      · rintro (h | ⟨-, -, h⟩)
        · exact absurd h hr
        · rename_i outer
          cases hf : (scopes scope).find? (known ∘ fun s => s ++ "." ++ name) with
          | some found => exact ⟨found, rfl, by rw [h.unique (Innermost.of_find? hf)]⟩
          | none =>
            have hk := List.find?_eq_none.1 hf outer (mem_scopes.2 h.around)
            exact absurd h.isKnown hk

example : resolve (fun name => name = ".p.B.D" ∨ name = ".B.D") ".p.A.C" "B.D" = some ".p.B.D" := by cbv

/-! ## Full names -/

theorem qualify_of_head? {name : String} (h : name.toList.head? = some '.') : qualify name = name := if_pos h

/-- Scopes are empty or start with a dot. -/
def IsScope (scope : String) : Prop := scope = "" ∨ scope.toList.head? = some '.'

theorem FileEntry.isScope (f : FileEntry) : IsScope f.scope := by
  unfold FileEntry.scope
  split
  · exact Or.inl rfl
  · exact Or.inr (head?_qualify f.package)

theorem IsScope.head?_append {scope : String} (h : IsScope scope) (name : String) :
    (scope ++ "." ++ name).toList.head? = some '.' := by
  rcases h with rfl | h
  · simp
  · simp [String.toList_append, List.head?_append, h]

theorem Around.isScope {outer scope : String} (h : Around outer scope) (hs : IsScope scope) : IsScope outer := by
  rcases h with rfl | ⟨rest, rfl⟩ | rfl
  · exact hs
  · by_cases ho : outer = ""
    · exact Or.inl ho
    · right
      obtain ⟨c, cs, hc⟩ := List.exists_cons_of_ne_nil (mt String.toList_eq_nil_iff.1 ho)
      rcases hs with hs | hs
      · simp at hs
      · simpa [String.toList_append, hc] using hs
  · exact Or.inl rfl

theorem Means.head?_full {known : String → Prop} {scope name full : String} (h : Means known scope name full)
    (hs : IsScope scope) : full.toList.head? = some '.' := by
  cases h with
  | absolute h => exact h
  | relative _ _ h => exact (h.around.isScope hs).head?_append name

theorem qualify_resolve {known : String → Bool} {scope name full : String} (hs : IsScope scope)
    (h : resolve known scope name = some full) : qualify full = full :=
  qualify_of_head? ((resolve_eq_some_iff.1 h).head?_full hs)

end TraceTables.Schema
