import Mathlib.Data.List.Basic
import TraceTables.Proofs.Numbering
import TraceTables.Assoc

/-! More about maps. The weight of a map is the sum of the weights of its values; a binding that is replaced leaves
nothing behind. Bindings that are made one after the other leave each key in its first place with its last value. -/

namespace TraceTables

variable {κ ν : Type} (w : ν → Nat)

def weigh : List (κ × ν) → Nat
  | [] => 0
  | p :: ps => w p.2 + weigh ps

def Assoc.weight (m : Assoc κ ν) : Nat := weigh w m.pairs

variable [DecidableEq κ]

/-- The value of a key, if it has one, is replaced. -/
theorem weigh_upsert (k : κ) (v : ν) (ps : List (κ × ν)) :
    weigh w (upsert k v ps) + ((valueAt k ps).map w).getD 0 = weigh w ps + w v := by
  induction ps with
  | nil => simp [weigh, upsert, valueAt]
  | cons p ps ih =>
    by_cases h : p.1 = k
    · simp only [upsert, valueAt, h, if_true, weigh, Option.map_some, Option.getD_some]
      omega
    · simp only [upsert, valueAt, h, if_false, weigh]
      omega

theorem weigh_remove (k : κ) {ps : List (κ × ν)} (hn : (ps.map Prod.fst).Nodup) :
    weigh w (ps.filter fun p => p.1 ≠ k) + ((valueAt k ps).map w).getD 0 = weigh w ps := by
  induction ps with
  | nil => rfl
  | cons p ps ih =>
    rw [List.map_cons, List.nodup_cons] at hn
    have hrest := ih hn.2
    by_cases h : p.1 = k
    · have hk : valueAt k ps = none := (valueAt_eq_none_iff k ps).2 (h ▸ hn.1)
      rw [hk] at hrest
      simp only [List.filter_cons, valueAt, h, ne_eq, not_true_eq_false, decide_false, Bool.false_eq_true, if_false,
        if_true, weigh, Option.map_some, Option.getD_some]
      simp only [Option.map_none, Option.getD_none, ne_eq] at hrest
      omega
    · simp only [List.filter_cons, valueAt, h, ne_eq, not_false_eq_true, decide_true, if_true, if_false, weigh]
      simp only [ne_eq] at hrest
      omega

theorem Assoc.weight_insert (m : Assoc κ ν) (k : κ) (v : ν) :
    (m.insert k v).weight w + ((m.get? k).map w).getD 0 = m.weight w + w v :=
  weigh_upsert w k v m.pairs

theorem Assoc.weight_erase (m : Assoc κ ν) (k : κ) :
    (m.erase k).weight w + ((m.get? k).map w).getD 0 = m.weight w :=
  weigh_remove w k m.nodup

theorem mem_of_valueAt {k : κ} {v : ν} {ps : List (κ × ν)} (h : valueAt k ps = some v) : (k, v) ∈ ps := by
  induction ps with
  | nil => cases h
  | cons p ps ih =>
    rw [valueAt] at h
    split at h
    · rename_i hk
      cases h
      subst hk
      exact List.mem_cons_self
    · exact List.mem_cons_of_mem p (ih h)

theorem valueAt_of_mem {k : κ} {v : ν} {ps : List (κ × ν)} (hn : (ps.map Prod.fst).Nodup) (h : (k, v) ∈ ps) :
    valueAt k ps = some v := by
  induction ps with
  | nil => cases h
  | cons p ps ih =>
    rw [List.map_cons, List.nodup_cons] at hn
    rcases List.mem_cons.1 h with rfl | h
    · simp [valueAt]
    · have hne : p.1 ≠ k := by
        rintro rfl
        exact hn.1 (List.mem_map.2 ⟨(p.1, v), h, rfl⟩)
      rw [valueAt, if_neg hne, ih hn.2 h]

theorem Assoc.get?_of_mem (m : Assoc κ ν) {k : κ} {v : ν} (h : (k, v) ∈ m.pairs) : m.get? k = some v :=
  valueAt_of_mem m.nodup h

theorem upsert_upsert (k : κ) (v v' : ν) (ps : List (κ × ν)) : upsert k v' (upsert k v ps) = upsert k v' ps := by
  induction ps with
  | nil => simp [upsert]
  | cons p ps ih =>
    by_cases h : p.1 = k
    · simp [upsert, h]
    · simp [upsert, h, ih]

theorem Assoc.insert_insert (m : Assoc κ ν) (k : κ) (v v' : ν) : (m.insert k v).insert k v' = m.insert k v' := by
  simp only [insert, upsert_upsert]

/-! ## Bindings one after the other -/

/-- The last value of each key, in the order in which the keys first come. -/
def lastOfEach (ps : List (κ × ν)) : List (κ × ν) :=
  (ps.map Prod.fst).eraseDups.filterMap fun k => (valueAt k ps.reverse).map (k, ·)

theorem mem_of_mem_lastOfEach {p : κ × ν} {ps : List (κ × ν)} (h : p ∈ lastOfEach ps) : p ∈ ps := by
  obtain ⟨k, -, hk⟩ := List.mem_filterMap.1 h
  obtain ⟨v, hv, rfl⟩ := Option.map_eq_some_iff.1 hk
  exact List.mem_reverse.1 (mem_of_valueAt hv)

theorem valueAt_map {ν' : Type} (f : ν → ν') (k : κ) (ps : List (κ × ν)) :
    valueAt k (ps.map (Prod.map id f)) = (valueAt k ps).map f := by
  induction ps with
  | nil => rfl
  | cons p ps ih => by_cases h : p.1 = k <;> simp [valueAt, h, ih]

theorem lastOfEach_map {ν' : Type} (f : ν → ν') (ps : List (κ × ν)) :
    lastOfEach (ps.map (Prod.map id f)) = (lastOfEach ps).map (Prod.map id f) := by
  unfold lastOfEach
  rw [List.map_filterMap, List.map_map, ← List.map_reverse]
  simp only [valueAt_map, Option.map_map]
  rfl

/-- Distinct keys and their values are all that there is to a list of pairs. -/
theorem filterMap_valueAt {ps : List (κ × ν)} (hn : (ps.map Prod.fst).Nodup) :
    (ps.map Prod.fst).filterMap (fun k => (valueAt k ps).map (k, ·)) = ps := by
  rw [List.filterMap_map]
  calc
    ps.filterMap ((fun k => (valueAt k ps).map (k, ·)) ∘ Prod.fst) = ps.filterMap some := by
      refine List.filterMap_congr fun p hp => ?_
      rw [Function.comp_apply, valueAt_of_mem hn hp, Option.map_some]
    _ = ps := by simp

theorem foldl_upsert (ps : List (κ × ν)) : ps.foldl (fun done p => upsert p.1 p.2 done) [] = lastOfEach ps := by
  have hfold : ((ps.foldl (fun done p => upsert p.1 p.2 done) []).map Prod.fst = (ps.map Prod.fst).eraseDups) ∧
      ∀ k, valueAt k (ps.foldl (fun done p => upsert p.1 p.2 done) []) = valueAt k ps.reverse := by
    induction ps using List.reverseRecOn with
    | nil => exact ⟨rfl, fun _ => rfl⟩
    | append_singleton ps p ih =>
      rw [List.foldl_append, List.map_append, List.map_singleton, eraseDups_concat, List.reverse_concat]
      refine ⟨?_, fun k => ?_⟩
      · rw [List.foldl_cons, List.foldl_nil, keys_upsert, ih.1]
      · rw [List.foldl_cons, List.foldl_nil, valueAt_upsert, ih.2, valueAt]
  have hn : ((ps.foldl (fun done p => upsert p.1 p.2 done) []).map Prod.fst).Nodup := by
    rw [hfold.1]
    exact nodup_eraseDups _
  rw [← filterMap_valueAt hn, hfold.1]
  simp only [hfold.2]
  rfl

end TraceTables
