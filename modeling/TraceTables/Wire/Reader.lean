import TraceTables.Wire.Field

/-! Readers take values off the front of a byte string. `Reader.all` repeats one until the bytes are used up or
a fault stops it; a fault is always the last thing a reading holds. -/

namespace TraceTables.Wire

theorem map_eq_ok {ε α β : Type} {f : α → β} {x : Except ε α} {b : β} :
    x.map f = .ok b ↔ ∃ a, x = .ok a ∧ f a = b := by
  cases x <;> simp [Except.map]

/-- Reads one value and gives the bytes behind it, fewer than before. -/
structure Reader (α : Type) where
  read : List UInt8 → Except Fault (α × List UInt8)
  shorter : ∀ {bytes rest a}, read bytes = .ok (a, rest) → rest.length < bytes.length

/-- Values in the order of their bytes, and the fault behind them if not all bytes could be read. -/
structure Reading (α : Type) where
  values : List α
  fault? : Option Fault

namespace Reader

variable {α : Type}

def all (r : Reader α) (bytes : List UInt8) : Reading α :=
  if bytes.isEmpty then ⟨[], none⟩
  else
    match _h : r.read bytes with
    | .error e => ⟨[], some e⟩
    | .ok (a, rest) =>
      let tail := all r rest
      ⟨a :: tail.values, tail.fault?⟩
termination_by bytes.length
decreasing_by exact r.shorter ‹_›

@[simp] theorem all_nil (r : Reader α) : r.all [] = ⟨[], none⟩ := by
  unfold all; rfl

theorem all_of_error (r : Reader α) {bytes : List UInt8} {e : Fault} (hne : bytes ≠ [])
    (h : r.read bytes = .error e) : r.all bytes = ⟨[], some e⟩ := by
  unfold all
  rw [if_neg (by simpa using hne)]
  split
  · rename_i e' h'; rw [h] at h'; cases h'; rfl
  · rename_i a rest h'; rw [h] at h'; cases h'

theorem all_of_ok (r : Reader α) {bytes rest : List UInt8} {a : α} (h : r.read bytes = .ok (a, rest)) :
    r.all bytes = ⟨a :: (r.all rest).values, (r.all rest).fault?⟩ := by
  have hne : ¬ bytes.isEmpty = true := by
    have := r.shorter h
    intro he
    rw [List.isEmpty_iff.1 he] at this
    simp at this
  rw [all, if_neg hne]
  split
  · rename_i e' h'; rw [h] at h'; cases h'
  · rename_i a' rest' h'; rw [h] at h'; cases h'; rfl

theorem all_eq_nil_iff (r : Reader α) {bytes : List UInt8} : r.all bytes = ⟨[], none⟩ ↔ bytes = [] := by
  constructor
  · intro h
    cases bytes with
    | nil => rfl
    | cons b bs =>
      match hr : r.read (b :: bs) with
      | .error e => simp [all_of_error r (by simp) hr] at h
      | .ok (a, rest) => simp [all_of_ok r hr] at h
  · rintro rfl
    exact all_nil r

theorem all_eq_cons_iff (r : Reader α) {bytes : List UInt8} {a : α} {as : List α} {fault? : Option Fault} :
    r.all bytes = ⟨a :: as, fault?⟩ ↔ ∃ rest, r.read bytes = .ok (a, rest) ∧ r.all rest = ⟨as, fault?⟩ := by
  constructor
  · intro h
    by_cases hb : bytes = []
    · simp [hb] at h
    · match hr : r.read bytes with
      | .error e => simp [all_of_error r hb hr] at h
      | .ok (b, rest) =>
        rw [all_of_ok r hr] at h
        cases h
        exact ⟨rest, rfl, rfl⟩
  · rintro ⟨rest, hr, ha⟩
    rw [all_of_ok r hr, ha]

theorem all_eq_fault_iff (r : Reader α) {bytes : List UInt8} {fault? : Option Fault} :
    r.all bytes = ⟨[], fault?⟩ ↔
      bytes = [] ∧ fault? = none ∨ bytes ≠ [] ∧ ∃ e, r.read bytes = .error e ∧ fault? = some e := by
  by_cases hb : bytes = []
  · simp [hb, eq_comm]
  · match hr : r.read bytes with
    | .error e => simp [r.all_of_error hb hr, hb, eq_comm]
    | .ok (a, rest) => simp [r.all_of_ok hr, hb]

/-- To show something of all bytes it is shown where nothing is read, and carried from what is behind a value. -/
@[elab_as_elim]
theorem all_induction (r : Reader α) {motive : List UInt8 → Prop} (nil : motive [])
    (fault : ∀ {bytes e}, bytes ≠ [] → r.read bytes = .error e → motive bytes)
    (value : ∀ {bytes rest a}, r.read bytes = .ok (a, rest) → motive rest → motive bytes) (bytes : List UInt8) :
    motive bytes := by
  induction h : bytes.length using Nat.strongRecOn generalizing bytes with
  | ind n ih =>
    subst h
    by_cases hb : bytes = []
    · rw [hb]
      exact nil
    · match hr : r.read bytes with
      | .error e => exact fault hb hr
      | .ok (a, rest) => exact value hr (ih rest.length (r.shorter hr) rest rfl)

/-- Every value comes off the front of some bytes. -/
theorem exists_read_of_mem (r : Reader α) {bytes : List UInt8} {a : α} (h : a ∈ (r.all bytes).values) :
    ∃ front rest, r.read front = .ok (a, rest) := by
  induction bytes using r.all_induction with
  | nil => simp at h
  | fault hb hr => simp [r.all_of_error hb hr] at h
  | @value bytes rest b hr ih =>
    rw [r.all_of_ok hr] at h
    obtain rfl | hmem := List.mem_cons.1 h
    · exact ⟨bytes, rest, hr⟩
    · exact ih hmem

end Reader

/-- A number by its bytes, the least significant one first. -/
def littleEndian (bytes : List UInt8) : Nat := bytes.foldr (fun b n => b.toNat + 256 * n) 0

/-- The next `n` bytes. -/
def take (n : Nat) (bytes : List UInt8) : Except Fault (List UInt8 × List UInt8) :=
  if bytes.length < n then .error (.truncated n bytes.length) else .ok (bytes.take n, bytes.drop n)

theorem take_eq_ok {n : Nat} {bytes a rest : List UInt8} (h : take n bytes = .ok (a, rest)) :
    bytes = a ++ rest ∧ a.length = n := by
  unfold take at h
  split at h
  · cases h
  · cases h
    exact ⟨(List.take_append_drop n bytes).symm, by rw [List.length_take]; omega⟩

end TraceTables.Wire
