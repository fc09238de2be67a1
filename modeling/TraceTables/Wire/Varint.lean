import TraceTables.Power
import TraceTables.Wire.Reader

/-! Variable-length numbers: seven bits a byte, the low ones first, the high bit set on all bytes but the last.
A reading takes any form of at most ten bytes whose value fits into 64 bits, over-long ones too; a writing
gives the shortest. -/

namespace TraceTables.Wire.Varint

/-- The number at the front, if it ends within `limit` bytes. -/
def readWithin : Nat → List UInt8 → Option (Nat × List UInt8)
  | 0, _ => none
  | _ + 1, [] => none
  | limit + 1, b :: rest =>
    if b < 0x80 then some (b.toNat, rest)
    else (readWithin limit rest).map fun r => (b.toNat - 0x80 + 0x80 * r.1, r.2)

def read (bytes : List UInt8) : Except Fault (UInt64 × List UInt8) :=
  match readWithin 10 bytes with
  | none => .error .badVarint
  | some (v, rest) => if v < 2 ^ 64 then .ok (UInt64.ofNat v, rest) else .error .badVarint

/-- The shortest form. -/
def write (n : Nat) : List UInt8 :=
  if n < 0x80 then [UInt8.ofNat n] else UInt8.ofNat (n % 0x80 + 0x80) :: write (n / 0x80)

theorem length_readWithin {limit v : Nat} {bytes rest : List UInt8}
    (h : readWithin limit bytes = some (v, rest)) : rest.length < bytes.length := by
  induction limit generalizing bytes v rest with
  | zero => simp [readWithin] at h
  | succ limit ih =>
    cases bytes with
    | nil => simp [readWithin] at h
    | cons b bs =>
      unfold readWithin at h
      split at h
      · simp_all
      · obtain ⟨⟨_, _⟩, hr, he⟩ := Option.map_eq_some_iff.1 h
        cases he
        have := ih hr
        simp only [List.length_cons]
        omega

theorem length_read {bytes rest : List UInt8} {v : UInt64} (h : read bytes = .ok (v, rest)) :
    rest.length < bytes.length := by
  unfold read at h
  split at h
  · cases h
  · rename_i hr
    split at h
    · cases h; exact length_readWithin hr
    · cases h

theorem readWithin_write {limit n : Nat} (rest : List UInt8) (h : n < 0x80 ^ (limit + 1)) :
    readWithin (limit + 1) (write n ++ rest) = some (n, rest) := by
  induction limit generalizing n with
  | zero =>
    have hn : n < 0x80 := by simpa using h
    have hb : UInt8.ofNat n < 0x80 := by
      rw [UInt8.lt_iff_toNat_lt, UInt8.toNat_ofNat']; simp; omega
    unfold write readWithin
    rw [if_pos hn]
    simp only [List.cons_append, List.nil_append]
    rw [if_pos hb, UInt8.toNat_ofNat', Nat.mod_eq_of_lt (by omega)]
  | succ limit ih =>
    unfold write
    by_cases hn : n < 0x80
    · have hb : UInt8.ofNat n < 0x80 := by
        rw [UInt8.lt_iff_toNat_lt, UInt8.toNat_ofNat']; simp; omega
      rw [if_pos hn]
      simp only [List.cons_append, List.nil_append, readWithin]
      rw [if_pos hb, UInt8.toNat_ofNat', Nat.mod_eq_of_lt (by omega)]
    · have hv : (UInt8.ofNat (n % 0x80 + 0x80)).toNat = n % 0x80 + 0x80 := by
        rw [UInt8.toNat_ofNat', Nat.mod_eq_of_lt (by omega)]
      have hb : ¬ UInt8.ofNat (n % 0x80 + 0x80) < 0x80 := by
        rw [UInt8.lt_iff_toNat_lt, hv]; simp
      have hq : n / 0x80 < 0x80 ^ (limit + 1) := by
        rw [Nat.div_lt_iff_lt_mul (by omega)]
        rw [Nat.pow_succ] at h
        exact h
      rw [if_neg hn]
      simp only [List.cons_append]
      rw [readWithin, if_neg hb, ih hq, hv]
      simp only [Option.map_some, Option.some.injEq, Prod.mk.injEq, and_true]
      omega

/-- What is written is read back, whatever follows. -/
theorem read_write (v : UInt64) (rest : List UInt8) : read (write v.toNat ++ rest) = .ok (v, rest) := by
  have hv := v.toNat_lt
  unfold read
  rw [readWithin_write rest (by omega : v.toNat < 0x80 ^ (9 + 1))]
  simp [hv]

end TraceTables.Wire.Varint
