import TraceTables.Wire.Varint

/-! The forms of a varint. `read` takes a form off the front and gives its value, and it takes nothing else: of the
numbers that need ten bytes those below `2 ^ 64` are told by their last byte alone. -/

namespace TraceTables.Wire.Varint

/-- Bytes that go on, and one that ends them. -/
inductive Run : List UInt8 → Prop where
  | last {b : UInt8} : b < 0x80 → Run [b]
  | more {b : UInt8} {bytes : List UInt8} : 0x80 ≤ b → Run bytes → Run (b :: bytes)

/-- The number that the low seven bits of the bytes make, the first byte's being the lowest. -/
def base128 (bytes : List UInt8) : Nat := bytes.foldr (fun b n => b.toNat % 0x80 + 0x80 * n) 0

/-- The bytes are a form of `v`. Over-long forms are, as long as they have at most ten bytes. -/
structure Form (v : UInt64) (bytes : List UInt8) : Prop where
  run : Run bytes
  short : bytes.length ≤ 10
  tenth : ∀ b, bytes[9]? = some b → b < 2
  value : v.toNat = base128 bytes

theorem base128_append (a b : List UInt8) : base128 (a ++ b) = base128 a + 0x80 ^ a.length * base128 b := by
  induction a with
  | nil => simp [base128]
  | cons x a ih =>
    have h : base128 ((x :: a) ++ b) = x.toNat % 0x80 + 0x80 * base128 (a ++ b) := rfl
    have h' : base128 (x :: a) = x.toNat % 0x80 + 0x80 * base128 a := rfl
    rw [h, h', ih, List.length_cons, Nat.pow_succ, Nat.mul_add, Nat.mul_comm (0x80 ^ a.length) 0x80, Nat.mul_assoc]
    omega

theorem base128_lt (bytes : List UInt8) : base128 bytes < 0x80 ^ bytes.length := by
  induction bytes with
  | nil => simp [base128]
  | cons b bytes ih =>
    have h : base128 (b :: bytes) = b.toNat % 0x80 + 0x80 * base128 bytes := rfl
    rw [h, List.length_cons, Nat.pow_succ]
    omega

theorem Run.ne_nil {bytes : List UInt8} (h : Run bytes) : bytes ≠ [] := by
  cases h <;> simp

theorem Run.getLast_lt {bytes : List UInt8} (h : Run bytes) : bytes.getLast h.ne_nil < 0x80 := by
  induction h with
  | last hb => exact hb
  | more _ hr ih => rwa [List.getLast_cons hr.ne_nil]

/-- The number at the front is that of a run of no more bytes than the limit. -/
theorem readWithin_eq_some_iff {limit v : Nat} {bytes rest : List UInt8} :
    readWithin limit bytes = some (v, rest) ↔
      ∃ p, Run p ∧ p.length ≤ limit ∧ v = base128 p ∧ bytes = p ++ rest := by
  induction limit generalizing bytes v with
  | zero =>
    simp only [readWithin]
    refine ⟨?_, ?_⟩
    · intro h
      cases h
    · rintro ⟨p, hp, hl, -⟩
      exact absurd (List.length_eq_zero_iff.1 (Nat.le_zero.1 hl)) hp.ne_nil
  | succ limit ih =>
    cases bytes with
    | nil =>
      simp only [readWithin]
      refine ⟨?_, ?_⟩
      · intro h
        cases h
      · rintro ⟨p, hp, -, -, he⟩
        exact absurd (List.append_eq_nil_iff.1 he.symm).1 hp.ne_nil
    | cons b bytes =>
      rw [readWithin]
      split
      · rename_i hb
        have hb' : b.toNat % 0x80 = b.toNat := Nat.mod_eq_of_lt (UInt8.lt_iff_toNat_lt.1 hb)
        refine ⟨?_, ?_⟩
        · intro h
          cases h
          exact ⟨[b], .last hb, by simp, by simp [base128, hb'], rfl⟩
        · rintro ⟨p, hp, -, rfl, he⟩
          cases hp with
          | last =>
            obtain ⟨rfl, rfl⟩ := List.cons.inj he
            simp [base128, hb']
          | more hc =>
            obtain ⟨rfl, -⟩ := List.cons.inj he
            exact absurd hb (UInt8.not_lt.2 hc)
      · rename_i hb
        have hc : 0x80 ≤ b := UInt8.not_lt.1 hb
        have hb' : b.toNat % 0x80 = b.toNat - 0x80 := by
          have h1 : 0x80 ≤ b.toNat := UInt8.le_iff_toNat_le.1 hc
          have h2 := b.toNat_lt
          omega
        rw [Option.map_eq_some_iff]
        refine ⟨?_, ?_⟩
        · rintro ⟨⟨w, r⟩, hr, he⟩
          cases he
          obtain ⟨p, hp, hl, rfl, rfl⟩ := ih.1 hr
          exact ⟨b :: p, .more hc hp, by simp [hl], by simp [base128, hb'], rfl⟩
        · rintro ⟨p, hp, hl, rfl, he⟩
          cases hp with
          | last hd =>
            obtain ⟨rfl, -⟩ := List.cons.inj he
            exact absurd hd hb
          | more _ hp =>
            obtain ⟨rfl, rfl⟩ := List.cons.inj he
            refine ⟨(base128 _, rest), ih.2 ⟨_, hp, Nat.le_of_succ_le_succ hl, rfl, rfl⟩, ?_⟩
            simp [base128, hb']

/-- Among at most ten bytes, those of a number below `2 ^ 64` have no tenth byte above one. -/
theorem base128_lt_iff {bytes : List UInt8} (hr : Run bytes) (hl : bytes.length ≤ 10) :
    base128 bytes < 2 ^ 64 ↔ ∀ b, bytes[9]? = some b → b < 2 := by
  by_cases h : bytes.length = 10
  · -- nine bytes and the tenth, which counts `2 ^ 63`
    have hlt := base128_lt (bytes.take 9)
    have hsplit := base128_append (bytes.take 9) [bytes[9]]
    rw [← List.take_succ_eq_append_getElem (by omega), List.take_of_length_le (by omega)] at hsplit
    rw [List.length_take, Nat.min_eq_left (by omega)] at hlt hsplit
    have hone : base128 [bytes[9]] = bytes[9].toNat % 0x80 := by simp [base128]
    have hlast : bytes[9].toNat < 0x80 := by
      have := UInt8.lt_iff_toNat_lt.1 hr.getLast_lt
      rwa [List.getLast_eq_getElem, show bytes[bytes.length - 1] = bytes[9] by simp [h]] at this
    rw [List.getElem?_eq_getElem (by omega)]
    simp only [Option.some.injEq, forall_eq', UInt8.lt_iff_toNat_lt]
    rw [hsplit, hone, Nat.mod_eq_of_lt hlast]
    refine ⟨?_, ?_⟩
    · intro h'
      simp
      omega
    · intro h'
      simp at h'
      omega
  · have hn : bytes[9]? = none := List.getElem?_eq_none (by omega)
    have hlt := base128_lt bytes
    have hle : 0x80 ^ bytes.length ≤ 0x80 ^ 9 := Nat.pow_le_pow_right (by omega) (by omega)
    simp only [hn]
    refine ⟨?_, ?_⟩
    · intro _ _ h'
      cases h'
    · intro _
      omega

theorem read_eq_ok_iff {v : UInt64} {bytes rest : List UInt8} :
    read bytes = .ok (v, rest) ↔ ∃ p, Form v p ∧ bytes = p ++ rest := by
  unfold read
  refine ⟨?_, ?_⟩
  · intro h
    split at h
    · cases h
    · rename_i n r hn
      obtain ⟨p, hp, hl, rfl, rfl⟩ := readWithin_eq_some_iff.1 hn
      split at h
      · rename_i hv
        cases h
        refine ⟨p, ⟨hp, hl, (base128_lt_iff hp hl).1 hv, ?_⟩, rfl⟩
        rw [UInt64.toNat_ofNat', Nat.mod_eq_of_lt hv]
      · cases h
  · rintro ⟨p, hp, rfl⟩
    have hn : readWithin 10 (p ++ rest) = some (v.toNat, rest) :=
      readWithin_eq_some_iff.2 ⟨p, hp.run, hp.short, hp.value, rfl⟩
    rw [hn]
    simp [v.toNat_lt]

/-- The shortest form is one. -/
theorem form_write (v : UInt64) : Form v (write v.toNat) := by
  obtain ⟨p, hp, he⟩ := read_eq_ok_iff.1 (read_write v [])
  rw [List.append_nil, List.append_nil] at he
  rwa [he]

end TraceTables.Wire.Varint
