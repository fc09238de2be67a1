/-! Finite maps as lists of pairs, the keys in the order in which they first came. Each operation is
described through `get?`: after an insertion the key has its new value and every other key its old
one. -/

namespace TraceTables

section Pairs

variable {κ ν : Type} [DecidableEq κ]

/-- Binds `k` to `v`, in place of an earlier binding of `k` and else at the end. -/
def upsert (k : κ) (v : ν) : List (κ × ν) → List (κ × ν)
  | [] => [(k, v)]
  | p :: ps => if p.1 = k then (k, v) :: ps else p :: upsert k v ps

/-- The value of the first pair with key `k`. -/
def valueAt (k : κ) : List (κ × ν) → Option ν
  | [] => none
  | p :: ps => if p.1 = k then some p.2 else valueAt k ps

theorem keys_upsert (k : κ) (v : ν) (ps : List (κ × ν)) :
    (upsert k v ps).map Prod.fst =
      if k ∈ ps.map Prod.fst then ps.map Prod.fst else ps.map Prod.fst ++ [k] := by
  induction ps with
  | nil => rfl
  | cons p ps ih =>
    by_cases h : p.1 = k
    · simp [upsert, h]
    · have h' : ¬ k = p.1 := fun e => h e.symm
      by_cases hk : k ∈ ps.map Prod.fst <;> simp_all [upsert]

theorem nodup_upsert (k : κ) (v : ν) {ps : List (κ × ν)} (h : (ps.map Prod.fst).Nodup) :
    ((upsert k v ps).map Prod.fst).Nodup := by
  rw [keys_upsert]
  split
  · exact h
  · rename_i hk
    rw [List.nodup_append]
    refine ⟨h, by simp, ?_⟩
    intro a ha b hb hab
    simp only [List.mem_singleton] at hb
    exact hk (hb ▸ hab ▸ ha)

theorem valueAt_upsert (k : κ) (v : ν) (ps : List (κ × ν)) (j : κ) :
    valueAt j (upsert k v ps) = if k = j then some v else valueAt j ps := by
  induction ps with
  | nil => rfl
  | cons p ps ih => by_cases hp : p.1 = k <;> by_cases hk : k = j <;> grind [upsert, valueAt]

theorem valueAt_remove (k : κ) (ps : List (κ × ν)) (j : κ) :
    valueAt j (ps.filter fun p => p.1 ≠ k) = if k = j then none else valueAt j ps := by
  induction ps with
  | nil => simp [valueAt]
  | cons p ps ih => by_cases hp : p.1 = k <;> by_cases hk : k = j <;> grind [valueAt]

theorem valueAt_eq_none_iff (k : κ) (ps : List (κ × ν)) :
    valueAt k ps = none ↔ k ∉ ps.map Prod.fst := by
  induction ps with
  | nil => simp [valueAt]
  | cons p ps ih => by_cases h : p.1 = k <;> grind [valueAt]

end Pairs

/-- A finite map. No key occurs twice, so the number of pairs is the number of keys. -/
structure Assoc (κ ν : Type) where
  pairs : List (κ × ν)
  nodup : (pairs.map Prod.fst).Nodup

namespace Assoc

section Views

variable {κ ν : Type}

def empty : Assoc κ ν := ⟨[], List.nodup_nil⟩

instance : Inhabited (Assoc κ ν) := ⟨empty⟩

def keys (m : Assoc κ ν) : List κ := m.pairs.map Prod.fst

def values (m : Assoc κ ν) : List ν := m.pairs.map Prod.snd

def size (m : Assoc κ ν) : Nat := m.pairs.length

theorem nodup_keys (m : Assoc κ ν) : m.keys.Nodup := m.nodup

end Views

section Operations

variable {κ ν : Type} [DecidableEq κ]

def get? (m : Assoc κ ν) (k : κ) : Option ν := valueAt k m.pairs

def contains (m : Assoc κ ν) (k : κ) : Bool := (m.get? k).isSome

def insert (m : Assoc κ ν) (k : κ) (v : ν) : Assoc κ ν := ⟨upsert k v m.pairs, nodup_upsert k v m.nodup⟩

def erase (m : Assoc κ ν) (k : κ) : Assoc κ ν :=
  ⟨m.pairs.filter fun p => p.1 ≠ k, m.nodup.sublist (List.filter_sublist.map _)⟩

/-- Binds the pairs one after the other, so that of two with one key the later counts. -/
def ofList (ps : List (κ × ν)) : Assoc κ ν := ps.foldl (fun m p => m.insert p.1 p.2) empty

@[simp] theorem get?_empty (k : κ) : (empty : Assoc κ ν).get? k = none := rfl

@[simp] theorem get?_insert (m : Assoc κ ν) (k : κ) (v : ν) (j : κ) :
    (m.insert k v).get? j = if k = j then some v else m.get? j :=
  valueAt_upsert k v m.pairs j

@[simp] theorem get?_erase (m : Assoc κ ν) (k j : κ) :
    (m.erase k).get? j = if k = j then none else m.get? j :=
  valueAt_remove k m.pairs j

theorem get?_eq_none_iff (m : Assoc κ ν) (k : κ) : m.get? k = none ↔ k ∉ m.keys :=
  valueAt_eq_none_iff k m.pairs

theorem keys_insert (m : Assoc κ ν) (k : κ) (v : ν) :
    (m.insert k v).keys = if k ∈ m.keys then m.keys else m.keys ++ [k] :=
  keys_upsert k v m.pairs

end Operations

end Assoc

end TraceTables
