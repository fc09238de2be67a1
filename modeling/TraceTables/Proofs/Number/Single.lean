import TraceTables.Number.Binary64

/-! Numbers of single precision and the doubles they are widened to. Sign and value stay as they are; what is no
number stays none. -/

namespace TraceTables

/-- A number of single precision by its bits: sign, 8 bits of exponent, 23 of fraction. -/
structure Binary32 where
  bits : UInt32

namespace Binary32

def negative (x : Binary32) : Bool := x.bits.toNat / 2 ^ 31 = 1

def exponentField (x : Binary32) : Nat := x.bits.toNat / 2 ^ 23 % 2 ^ 8

def fraction (x : Binary32) : Nat := x.bits.toNat % 2 ^ 23

def isFinite (x : Binary32) : Bool := x.exponentField < 0xFF

def isNaN (x : Binary32) : Bool := x.exponentField = 0xFF && x.fraction ≠ 0

def significand (x : Binary32) : Nat := if x.exponentField = 0 then x.fraction else 2 ^ 23 + x.fraction

/-- The power of two that the significand counts. -/
def scale (x : Binary32) : Int := if x.exponentField = 0 then -149 else (x.exponentField : Int) - 150

end Binary32

namespace Binary64

/-- The double is the single, whose value both count in units of `2 ^ -1074` here. -/
structure Widens (x : Binary32) (y : Binary64) : Prop where
  negative : y.negative = x.negative
  finite : y.isFinite = x.isFinite
  nan : y.isNaN = x.isNaN
  value : x.isFinite = true →
    y.significand * 2 ^ (y.scale + 1074).toNat = x.significand * 2 ^ (x.scale + 1074).toNat

theorem parts_ofMagnitude {q r : Nat} (hq : q < 2 ^ 11) (hr : r < 2 ^ 52) (b : Bool) :
    (ofMagnitude b (q * 2 ^ 52 + r)).negative = b ∧ (ofMagnitude b (q * 2 ^ 52 + r)).exponentField = q ∧
      (ofMagnitude b (q * 2 ^ 52 + r)).fraction = r := by
  have hbits : (ofMagnitude b (q * 2 ^ 52 + r)).bits.toNat = q * 2 ^ 52 + r + if b then 2 ^ 63 else 0 := by
    rw [ofMagnitude, UInt64.toNat_ofNat', Nat.mod_eq_of_lt]
    split <;> omega
  unfold exponentField fraction magnitude negative
  rw [hbits]
  cases b with
  | true =>
    refine ⟨?_, ?_, ?_⟩
    · simp
      omega
    · simp only [if_true]
      omega
    · simp only [if_true]
      omega
  | false =>
    refine ⟨?_, ?_, ?_⟩
    · simp
      omega
    · simp only [Bool.false_eq_true, if_false]
      omega
    · simp only [Bool.false_eq_true, if_false]
      omega

section Widening

variable {x : Binary32}

theorem exponentField_lt (x : Binary32) : x.exponentField < 2 ^ 8 := Nat.mod_lt _ (by decide)

theorem fraction_lt (x : Binary32) : x.fraction < 2 ^ 23 := Nat.mod_lt _ (by decide)

/-- Infinity and what is no number: the fraction is kept, and a quiet bit does not make it zero. -/
theorem widens_special (h : x.exponentField = 0xFF) : Widens x (ofSingle x.bits) := by
  have hf := fraction_lt x
  obtain ⟨r, hr, hz, hs⟩ : ∃ r, r < 2 ^ 52 ∧ (r = 0 ↔ x.fraction = 0) ∧
      ofSingle x.bits = ofMagnitude x.negative (0x7FF * 2 ^ 52 + r) := by
    refine ⟨x.fraction * 2 ^ 29 + if x.fraction ≠ 0 && x.fraction < 2 ^ 22 then 2 ^ 51 else 0, ?_, ?_, ?_⟩
    · split
      · rename_i hq
        simp at hq
        omega
      · omega
    · split
      · rename_i hq
        simp at hq
        omega
      · omega
    · rw [← Nat.add_assoc]
      exact if_pos h
  obtain ⟨hn, he, hr'⟩ := parts_ofMagnitude (q := 0x7FF) (by decide) hr x.negative
  rw [hs]
  generalize ofMagnitude x.negative (0x7FF * 2 ^ 52 + r) = y at hn he hr' ⊢
  refine ⟨hn, ?_, ?_, ?_⟩
  · simp [isFinite, Binary32.isFinite, he, h]
  · simp [isNaN, Binary32.isNaN, he, hr', h, hz]
  · simp [Binary32.isFinite, h]

theorem widens_zero (h : x.exponentField = 0) (h0 : x.fraction = 0) : Widens x (ofSingle x.bits) := by
  have hs : ofSingle x.bits = ofMagnitude x.negative (0 * 2 ^ 52 + 0) := by
    have hx : ¬ x.exponentField = 0xFF := by omega
    exact (if_neg hx).trans ((if_pos h).trans (if_pos h0))
  obtain ⟨hn, he, hr⟩ := parts_ofMagnitude (q := 0) (r := 0) (by decide) (by decide) x.negative
  rw [hs]
  generalize ofMagnitude x.negative (0 * 2 ^ 52 + 0) = y at hn he hr ⊢
  refine ⟨hn, ?_, ?_, ?_⟩
  · simp [isFinite, Binary32.isFinite, he, h]
  · simp [isNaN, Binary32.isNaN, he, h]
  · simp [significand, Binary32.significand, he, hr, h, h0]

/-- The leading one of a subnormal single moves to the hidden place of the double. -/
theorem widens_subnormal (h : x.exponentField = 0) (h0 : x.fraction ≠ 0) : Widens x (ofSingle x.bits) := by
  have hf := fraction_lt x
  obtain ⟨k, hk⟩ : ∃ k, k = Nat.log2 x.fraction := ⟨_, rfl⟩
  have hlow : 2 ^ k ≤ x.fraction := by
    rw [hk]
    exact Nat.log2_self_le h0
  have hhigh : x.fraction < 2 ^ (k + 1) := by
    rw [hk]
    exact Nat.lt_log2_self
  have hk23 : k < 23 := (Nat.pow_lt_pow_iff_right (by decide)).1 (Nat.lt_of_le_of_lt hlow hf)
  have hp : 2 ^ k * 2 ^ (52 - k) = 2 ^ 52 := by
    rw [← Nat.pow_add]
    congr 1
    omega
  have hr : (x.fraction - 2 ^ k) * 2 ^ (52 - k) < 2 ^ 52 := by
    rw [← hp]
    refine Nat.mul_lt_mul_of_pos_right ?_ (Nat.two_pow_pos _)
    rw [Nat.pow_succ] at hhigh
    omega
  have hs : ofSingle x.bits = ofMagnitude x.negative ((k + 874) * 2 ^ 52 + (x.fraction - 2 ^ k) * 2 ^ (52 - k)) := by
    have hx : ¬ x.exponentField = 0xFF := by omega
    rw [hk]
    exact (if_neg hx).trans ((if_pos h).trans (if_neg h0))
  obtain ⟨hn, he, hr'⟩ := parts_ofMagnitude (q := k + 874) (by omega) hr x.negative
  rw [hs]
  generalize ofMagnitude x.negative _ = y at hn he hr' ⊢
  refine ⟨hn, ?_, ?_, ?_⟩
  · simp [isFinite, Binary32.isFinite, he, h]
    omega
  · simp [isNaN, Binary32.isNaN, he, h]
    omega
  · intro _
    have hsig : 2 ^ 52 + (x.fraction - 2 ^ k) * 2 ^ (52 - k) = x.fraction * 2 ^ (52 - k) := by
      rw [← hp, ← Nat.add_mul]
      congr 1
      omega
    have hsc : ((k + 874 : Nat) : Int) - 1075 + 1074 = ((k + 873 : Nat) : Int) := by omega
    simp only [significand, scale, Binary32.significand, Binary32.scale, he, hr', h, if_true]
    have hexp : 52 - k + (k + 873) = (-149 + 1074 : Int).toNat := by omega
    rw [if_neg (by omega), if_neg (by omega), hsig, hsc, Int.toNat_natCast, Nat.mul_assoc, ← Nat.pow_add, hexp]

theorem widens_normal (h : x.exponentField ≠ 0) (h' : x.exponentField ≠ 0xFF) : Widens x (ofSingle x.bits) := by
  have hf := fraction_lt x
  have hx := exponentField_lt x
  have hs : ofSingle x.bits = ofMagnitude x.negative ((x.exponentField + 896) * 2 ^ 52 + x.fraction * 2 ^ 29) :=
    (if_neg h').trans (if_neg h)
  obtain ⟨hn, he, hr⟩ :=
    parts_ofMagnitude (q := x.exponentField + 896) (r := x.fraction * 2 ^ 29) (by omega) (by omega) x.negative
  rw [hs]
  generalize ofMagnitude x.negative _ = y at hn he hr ⊢
  refine ⟨hn, ?_, ?_, ?_⟩
  · simp [isFinite, Binary32.isFinite, he]
    omega
  · simp [isNaN, Binary32.isNaN, he, h']
    omega
  · intro _
    have hsc : ((x.exponentField + 896 : Nat) : Int) - 1075 + 1074 = ((x.exponentField + 895 : Nat) : Int) := by omega
    have hsc' : (x.exponentField : Int) - 150 + 1074 = ((x.exponentField + 924 : Nat) : Int) := by omega
    have hsig : 2 ^ 52 + x.fraction * 2 ^ 29 = (2 ^ 23 + x.fraction) * 2 ^ 29 := by omega
    have hexp : 29 + (x.exponentField + 895) = x.exponentField + 924 := by omega
    simp only [significand, scale, Binary32.significand, Binary32.scale, he, hr]
    rw [if_neg (by omega), if_neg (by omega), if_neg h, if_neg h, hsc, hsc', Int.toNat_natCast, Int.toNat_natCast,
      hsig, Nat.mul_assoc, ← Nat.pow_add, hexp]

end Widening

/-- Widening keeps a number of single precision as it is. -/
theorem widens_ofSingle (x : Binary32) : Widens x (ofSingle x.bits) := by
  by_cases h : x.exponentField = 0
  · by_cases h0 : x.fraction = 0
    · exact widens_zero h h0
    · exact widens_subnormal h h0
  · by_cases h' : x.exponentField = 0xFF
    · exact widens_special h'
    · exact widens_normal h h'

end Binary64

end TraceTables
