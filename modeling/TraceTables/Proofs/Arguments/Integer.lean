import Mathlib.Logic.Function.Basic
import TraceTables.Proofs.Arguments.Scalar

/-! Integers of all types from what stands on the wire. A number of 32 bits is made of the low half of a varint, so
that every varint is a number of every type, and one that was written is read back. Zigzag coding on words gives what
it gives on integers. -/

namespace TraceTables.Arguments

open Schema (FieldType)

theorem zigzag_unzigzag (n : Nat) : zigzag (unzigzag n) = n := by
  unfold zigzag unzigzag
  split <;> split <;> omega

/-! ## Zigzag coding on words -/

/-- The code of a number: twice the number, and its sign over all bits. -/
def zigzag32 (n : Int32) : UInt32 := ((n <<< 1) ^^^ (n >>> 31)).toUInt32

def zigzag64 (n : Int64) : UInt64 := ((n <<< 1) ^^^ (n >>> 63)).toUInt64

/-- The number of a code: half of the code, and its lowest bit over all bits. -/
def unzigzag32 (code : UInt32) : Int32 := (code >>> 1).toInt32 ^^^ -(code &&& 1).toInt32

def unzigzag64 (code : UInt64) : Int64 := (code >>> 1).toInt64 ^^^ -(code &&& 1).toInt64

section Words

variable {m : Nat} (x : BitVec (m + 1))

/-- A word is below the middle and its own number, or from the middle on and negative. -/
theorem sign_cases : x.msb = false ∧ x.toNat < 2 ^ m ∧ x.toInt = x.toNat ∨
    x.msb = true ∧ 2 ^ m ≤ x.toNat ∧ x.toNat < 2 ^ m * 2 ∧ x.toInt = x.toNat - (2 ^ m * 2 : Nat) := by
  have hx := x.isLt
  have hcond := BitVec.toInt_eq_msb_cond x
  rw [Nat.pow_succ] at hx hcond
  cases hm : x.msb with
  | false =>
    have hlt := BitVec.toNat_lt_of_msb_false hm
    rw [hm, if_neg Bool.false_ne_true] at hcond
    exact Or.inl ⟨rfl, hlt, hcond⟩
  | true =>
    have hge := BitVec.le_toNat_of_msb_true hm
    rw [hm, if_pos rfl] at hcond
    exact Or.inr ⟨rfl, hge, hx, hcond⟩

theorem sshiftRight_sign : x.sshiftRight m = if x.msb then BitVec.allOnes (m + 1) else 0#(m + 1) := by
  obtain ⟨hm, hlt, -⟩ | ⟨hm, hge, hlt, -⟩ := sign_cases x
  · rw [BitVec.sshiftRight_eq_of_msb_false hm, hm, if_neg Bool.false_ne_true, ← BitVec.toNat_inj,
      BitVec.toNat_ushiftRight, Nat.shiftRight_eq_div_pow]
    exact Nat.div_eq_of_lt hlt
  · have hfill : ~~~x >>> m = 0#(m + 1) := by
      rw [← BitVec.toNat_inj, BitVec.toNat_ushiftRight, BitVec.toNat_not, Nat.shiftRight_eq_div_pow, Nat.pow_succ]
      exact Nat.div_eq_of_lt (by omega)
    rw [BitVec.sshiftRight_eq_of_msb_true hm, hfill, hm, if_pos rfl, BitVec.not_zero]

theorem toNat_double : (x <<< 1).toNat = x.toNat % 2 ^ m * 2 := by
  rw [BitVec.toNat_shiftLeft, Nat.shiftLeft_eq, Nat.pow_one, Nat.pow_succ, Nat.mul_mod_mul_right]

theorem toNat_zigzag : ((x <<< 1) ^^^ x.sshiftRight m).toNat = zigzag x.toInt := by
  unfold zigzag
  obtain ⟨hm, hlt, hz⟩ | ⟨hm, hge, hlt, hz⟩ := sign_cases x
  · rw [sshiftRight_sign, hm, if_neg Bool.false_ne_true, BitVec.xor_zero, toNat_double, Nat.mod_eq_of_lt hlt,
      if_pos (by omega)]
    omega
  · rw [sshiftRight_sign, hm, if_pos rfl, BitVec.xor_allOnes, BitVec.toNat_not, toNat_double,
      Nat.mod_eq_sub_mod hge, Nat.mod_eq_of_lt (by omega), Nat.pow_succ, if_neg (by omega)]
    omega

theorem toNat_half : (x >>> 1).toNat = x.toNat / 2 := by
  rw [BitVec.toNat_ushiftRight, Nat.shiftRight_eq_div_pow, Nat.pow_one]

theorem toInt_half : (x >>> 1).toInt = (x.toNat / 2 : Nat) := by
  have hx := x.isLt
  rw [← toNat_half]
  exact BitVec.toInt_eq_toNat_of_lt (by rw [toNat_half]; omega)

theorem and_one : x &&& 1#(m + 1) = BitVec.ofNat (m + 1) (x.toNat % 2) := by
  have htwo : 2 ≤ 2 ^ (m + 1) := by
    rw [Nat.pow_succ]
    exact Nat.le_mul_of_pos_left 2 (Nat.two_pow_pos m)
  rw [← BitVec.toNat_inj, BitVec.toNat_and, BitVec.toNat_ofNat, BitVec.toNat_ofNat, Nat.mod_eq_of_lt (by omega),
    Nat.mod_eq_of_lt (a := x.toNat % 2) (by omega), Nat.and_one_is_mod]

theorem toInt_unzigzag : ((x >>> 1) ^^^ -(x &&& 1#(m + 1))).toInt = unzigzag x.toNat := by
  have hx := x.isLt
  rw [Nat.pow_succ] at hx
  rw [and_one]
  unfold unzigzag
  rcases Nat.mod_two_eq_zero_or_one x.toNat with h | h
  · rw [h, if_pos rfl, BitVec.neg_zero, BitVec.xor_zero, toInt_half]
  · rw [h, if_neg (by omega), BitVec.neg_one_eq_allOnes, BitVec.xor_allOnes]
    -- half of a word is below the middle, so turned it is negative
    obtain ⟨-, hlt, -⟩ | ⟨-, -, -, hz⟩ := sign_cases (~~~(x >>> 1))
    · rw [BitVec.toNat_not, toNat_half, Nat.pow_succ] at hlt
      omega
    · rw [hz, BitVec.toNat_not, toNat_half, Nat.pow_succ]
      omega

/-- The lowest bit is zero or one, and turned to the sign it is zero or minus one. -/
theorem toInt_and_one (hm : 0 < m) :
    (x &&& 1#(m + 1)).toInt = (x.toNat % 2 : Nat) ∧ (-(x &&& 1#(m + 1))).toInt = -(x.toNat % 2 : Nat) := by
  rw [and_one]
  rcases Nat.mod_two_eq_zero_or_one x.toNat with h | h
  · rw [h, BitVec.neg_zero, BitVec.toInt_zero]
    exact ⟨rfl, rfl⟩
  · rw [h, BitVec.neg_one_eq_allOnes, BitVec.toInt_one (by omega), BitVec.toInt_allOnes, if_pos (Nat.succ_pos m)]
    exact ⟨rfl, rfl⟩

end Words

theorem toNat_zigzag32 (n : Int32) : (zigzag32 n).toNat = zigzag n.toInt := toNat_zigzag n.toBitVec

theorem toNat_zigzag64 (n : Int64) : (zigzag64 n).toNat = zigzag n.toInt := toNat_zigzag n.toBitVec

theorem toInt_unzigzag32 (code : UInt32) : (unzigzag32 code).toInt = unzigzag code.toNat := toInt_unzigzag code.toBitVec

theorem toInt_unzigzag64 (code : UInt64) : (unzigzag64 code).toInt = unzigzag code.toNat := toInt_unzigzag code.toBitVec

theorem unzigzag32_zigzag32 (n : Int32) : unzigzag32 (zigzag32 n) = n := by
  rw [← Int32.toInt_inj, toInt_unzigzag32, toNat_zigzag32, unzigzag_zigzag]

theorem unzigzag64_zigzag64 (n : Int64) : unzigzag64 (zigzag64 n) = n := by
  rw [← Int64.toInt_inj, toInt_unzigzag64, toNat_zigzag64, unzigzag_zigzag]

theorem zigzag32_unzigzag32 (code : UInt32) : zigzag32 (unzigzag32 code) = code := by
  rw [← UInt32.toNat_inj, toNat_zigzag32, toInt_unzigzag32, zigzag_unzigzag]

theorem zigzag64_unzigzag64 (code : UInt64) : zigzag64 (unzigzag64 code) = code := by
  rw [← UInt64.toNat_inj, toNat_zigzag64, toInt_unzigzag64, zigzag_unzigzag]

/-! ## Numbers from the wire -/

theorem low32_eq (v : UInt64) : low32 v = v.toUInt32.toNat := (UInt64.toNat_toUInt32 v).symm

theorem bmod_toNat (v : UInt32) : Int.bmod v.toNat (2 ^ 32) = v.toInt32.toInt :=
  (BitVec.toInt_eq_toNat_bmod v.toBitVec).symm

/-- The number that a word holds in two's complement is the word itself, up to a multiple of the number of words. -/
theorem toInt_emod {w : Nat} (x : BitVec w) : x.toInt % (2 ^ w : Nat) = x.toNat := by
  rw [BitVec.toInt_eq_toNat_bmod, Int.bmod_emod]
  exact Int.emod_eq_of_lt (Int.natCast_nonneg _) (Int.ofNat_lt.2 x.isLt)

theorem toInt_toInt32_emod (v : UInt32) : v.toInt32.toInt % 2 ^ 32 = v.toNat := toInt_emod v.toBitVec

theorem toInt_toInt64_emod (v : UInt64) : v.toInt64.toInt % 2 ^ 64 = v.toNat := toInt_emod v.toBitVec

section Varints

variable (v : UInt64)

theorem scalar?_int32 : scalar? .int32 (.varint v) = some (.int v.toUInt32.toInt32.toInt64) := by
  simp only [scalar?, low32_eq, bmod_toNat, Int64.ofInt_int32ToInt]

theorem scalar?_enum : scalar? .enum (.varint v) = some (.int v.toUInt32.toInt32.toInt64) := scalar?_int32 v

theorem scalar?_uint32 : scalar? .uint32 (.varint v) = some (.uint v.toUInt32.toUInt64) := by
  simp only [scalar?, low32_eq, UInt64.ofNat_uInt32ToNat]

theorem scalar?_sint32 : scalar? .sint32 (.varint v) = some (.int (unzigzag32 v.toUInt32).toInt64) := by
  simp only [scalar?, low32_eq, ← toInt_unzigzag32, Int64.ofInt_int32ToInt]

theorem scalar?_sint64 : scalar? .sint64 (.varint v) = some (.int (unzigzag64 v)) := by
  simp only [scalar?, ← toInt_unzigzag64, Int64.ofInt_toInt]

end Varints

theorem toInt32_toUInt64 (z : Int64) : z.toUInt64.toUInt32.toInt32 = z.toInt32 := by
  rw [← Int32.toBitVec_inj]
  exact (BitVec.signExtend_eq_setWidth_of_le z.toBitVec (by decide)).symm

/-- What stands in a row for a varint, by its type. Of 32 bits are the numbers of the low half, in two's complement,
without a sign, or by their zigzag code. -/
structure ReadsVarint (v : UInt64) : Prop where
  int32 : ∀ t ∈ [FieldType.int32, .enum], ∃ n : Int32,
    scalar? t (.varint v) = some (.int n.toInt64) ∧ n.toInt % 2 ^ 32 = v.toNat % 2 ^ 32
  int64 : ∃ n : Int64, scalar? .int64 (.varint v) = some (.int n) ∧ n.toInt % 2 ^ 64 = v.toNat
  uint32 : ∃ n : UInt32, scalar? .uint32 (.varint v) = some (.uint n.toUInt64) ∧ n.toNat = v.toNat % 2 ^ 32
  uint64 : scalar? .uint64 (.varint v) = some (.uint v)
  sint32 : ∃ n : Int32, scalar? .sint32 (.varint v) = some (.int n.toInt64) ∧ n = unzigzag32 v.toUInt32 ∧
    (zigzag32 n).toNat = v.toNat % 2 ^ 32
  sint64 : ∃ n : Int64, scalar? .sint64 (.varint v) = some (.int n) ∧ n = unzigzag64 v ∧ zigzag64 n = v

theorem readsVarint (v : UInt64) : ReadsVarint v := by
  have hlow : v.toUInt32.toNat = v.toNat % 2 ^ 32 := UInt64.toNat_toUInt32 v
  have hsigned : v.toUInt32.toInt32.toInt % 2 ^ 32 = v.toNat % 2 ^ 32 := by
    rw [toInt_toInt32_emod, hlow]
    exact Int.natCast_emod _ _
  refine ⟨?_, ⟨_, rfl, toInt_toInt64_emod v⟩, ⟨_, scalar?_uint32 v, hlow⟩, rfl, ?_, ?_⟩
  · intro t ht
    simp only [List.mem_cons, List.not_mem_nil, or_false] at ht
    obtain rfl | rfl := ht
    · exact ⟨_, scalar?_int32 v, hsigned⟩
    · exact ⟨_, scalar?_enum v, hsigned⟩
  · exact ⟨_, scalar?_sint32 v, rfl, by rw [zigzag32_unzigzag32, hlow]⟩
  · exact ⟨_, scalar?_sint64 v, rfl, zigzag64_unzigzag64 v⟩

/-- What stands in a row for words of a fixed size. -/
structure ReadsFixed (w : UInt32) (v : UInt64) : Prop where
  sfixed32 : ∃ n : Int32, scalar? .sfixed32 (.fixed32 w) = some (.int n.toInt64) ∧ n.toInt % 2 ^ 32 = w.toNat
  sfixed64 : ∃ n : Int64, scalar? .sfixed64 (.fixed64 v) = some (.int n) ∧ n.toInt % 2 ^ 64 = v.toNat
  fixed32 : scalar? .fixed32 (.fixed32 w) = some (.uint w.toUInt64)
  fixed64 : scalar? .fixed64 (.fixed64 v) = some (.uint v)

theorem readsFixed (w : UInt32) (v : UInt64) : ReadsFixed w v := by
  refine ⟨⟨w.toInt32, ?_, toInt_toInt32_emod w⟩, ⟨_, rfl, toInt_toInt64_emod v⟩, rfl, rfl⟩
  simp only [scalar?, Int64.ofInt_int32ToInt]

/-! ## Numbers that were written -/

/-- The number that a row holds. -/
def Value.integer? : Value → Option Int
  | .int n => some n.toInt
  | .uint n => some n.toNat
  | _ => none

/-- The number that is written. -/
def Scalar.integer? : Scalar → Option Int
  | .int64 v | .sfixed64 v | .sint64 v => some v.toInt
  | .int32 v | .enum v | .sfixed32 v | .sint32 v => some v.toInt
  | .uint64 v | .fixed64 v => some v.toNat
  | .uint32 v | .fixed32 v => some v.toNat
  | _ => none

theorem Scalar.integer?_value (s : Scalar) : s.value.integer? = s.integer? := by
  cases s with
  | int32 v | enum v | sfixed32 v | sint32 v => exact congrArg some (Int32.toInt_toInt64 v)
  | _ => rfl

theorem Scalar.writable {s : Scalar} {z : Int} (h : s.integer? = some z) {number : Nat} (h0 : number ≠ 0)
    (hn : number < 2 ^ 29) : Wire.Field.Writable ⟨number, s.wire⟩ := by
  refine ⟨h0, hn, fun payload hb => ?_, fun body hb => absurd hb (s.wire_ne_group body)⟩
  cases s with
  | string => cases h
  | _ => cases hb

/-- Every varint is read as a number of each varint type, and every fixed word as one of each fixed type. Each word is
the zigzag code of one number, and no step from it to the number leaves the range of words. A number that is written
with its type is read back, and of one that is written with a wider type the low bits are read. -/
theorem integers_convert :
    (∀ v, ReadsVarint v) ∧ (∀ w v, ReadsFixed w v) ∧
      Function.Bijective zigzag32 ∧ Function.Bijective zigzag64 ∧
      (∀ code : UInt32, (code >>> 1).toInt32.toInt = (code.toNat / 2 : Nat) ∧
        (code &&& 1).toInt32.toInt = (code.toNat % 2 : Nat) ∧
        (-(code &&& 1).toInt32).toInt = -(code.toNat % 2 : Nat)) ∧
      (∀ code : UInt64, (code >>> 1).toInt64.toInt = (code.toNat / 2 : Nat) ∧
        (code &&& 1).toInt64.toInt = (code.toNat % 2 : Nat) ∧
        (-(code &&& 1).toInt64).toInt = -(code.toNat % 2 : Nat)) ∧
      (∀ (s : Scalar) z number, s.integer? = some z → number ≠ 0 → number < 2 ^ 29 →
        Wire.fields (Wire.Field.write ⟨number, s.wire⟩) = ⟨[⟨number, s.wire⟩], none⟩ ∧
          ∃ x, scalar? s.type s.wire = some x ∧ x.integer? = some z) ∧
      (∀ n, (Scalar.sint32 n).wire = .varint (zigzag32 n).toUInt64) ∧
      (∀ n, (Scalar.sint64 n).wire = .varint (zigzag64 n)) ∧
      (∀ z, scalar? .int32 (Scalar.int64 z).wire = some (.int z.toInt32.toInt64)) ∧
      (∀ z, scalar? .uint32 (Scalar.uint64 z).wire = some (.uint z.toUInt32.toUInt64)) ∧
      ∀ z, scalar? .sint32 (Scalar.sint64 z).wire = some (.int (unzigzag32 (zigzag64 z).toUInt32).toInt64) := by
  have hwire32 (n : Int32) : (Scalar.sint32 n).wire = .varint (zigzag32 n).toUInt64 := by
    simp only [Scalar.wire, ← toNat_zigzag32, UInt64.ofNat_uInt32ToNat]
  have hwire64 (n : Int64) : (Scalar.sint64 n).wire = .varint (zigzag64 n) := by
    simp only [Scalar.wire, ← toNat_zigzag64, UInt64.ofNat_toNat]
  refine ⟨readsVarint, readsFixed, ?_, ?_, ?_, ?_, ?_, hwire32, hwire64, ?_, ?_, ?_⟩
  · exact Function.bijective_iff_has_inverse.2 ⟨unzigzag32, unzigzag32_zigzag32, zigzag32_unzigzag32⟩
  · exact Function.bijective_iff_has_inverse.2 ⟨unzigzag64, unzigzag64_zigzag64, zigzag64_unzigzag64⟩
  · intro code
    exact ⟨toInt_half code.toBitVec, toInt_and_one code.toBitVec (by decide)⟩
  · intro code
    exact ⟨toInt_half code.toBitVec, toInt_and_one code.toBitVec (by decide)⟩
  · intro s z number hz h0 hn
    have hall : ∀ f ∈ [(⟨number, s.wire⟩ : Wire.Field)], f.Writable := by
      intro f hf
      rw [List.mem_singleton.1 hf]
      exact Scalar.writable hz h0 hn
    have hfields := Wire.fields_write hall
    rw [List.flatMap_singleton] at hfields
    exact ⟨hfields, s.value, s.scalar?_wire, s.integer?_value.trans hz⟩
  · intro z
    rw [Scalar.wire, scalar?_int32, toInt32_toUInt64]
  · intro z
    exact scalar?_uint32 z
  · intro z
    rw [hwire64, scalar?_sint32]

/-- The least numbers, and one that is cut. -/
example : [zigzag32 (-2147483648), zigzag32 2147483647] = [0xFFFFFFFF, 0xFFFFFFFE] ∧
    scalar? .int32 (.varint 0x180000000) = some (.int (-2147483648)) := by
  decide +kernel

end TraceTables.Arguments
