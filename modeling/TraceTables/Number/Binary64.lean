import TraceTables.Power

/-! Binary numbers of double precision, held as their 64 bits. A finite one is `significand * 2 ^ scale`;
`ofRatio` picks the one nearest to a fraction, of two equally near ones that with the even significand, and
products and quotients are rounded like that. -/

namespace TraceTables

/-- A double by its bits: sign, 11 bits of exponent, 52 of fraction. -/
structure Binary64 where
  bits : UInt64
deriving DecidableEq

namespace Binary64

def negative (x : Binary64) : Bool := x.bits.toNat / 2 ^ 63 = 1

/-- The bits without the sign. -/
def magnitude (x : Binary64) : Nat := x.bits.toNat % 2 ^ 63

def exponentField (x : Binary64) : Nat := x.magnitude / 2 ^ 52

def fraction (x : Binary64) : Nat := x.magnitude % 2 ^ 52

def isFinite (x : Binary64) : Bool := x.exponentField < 0x7FF

def isNaN (x : Binary64) : Bool := x.exponentField = 0x7FF && x.fraction ≠ 0

def significand (x : Binary64) : Nat :=
  if x.exponentField = 0 then x.fraction else 2 ^ 52 + x.fraction

/-- The power of two that the significand counts. -/
def scale (x : Binary64) : Int :=
  if x.exponentField = 0 then -1074 else (x.exponentField : Int) - 1075

/-- Nothing below it, the least magnitude, is a finite number's. -/
def infinityMagnitude : Nat := 0x7FF * 2 ^ 52

def ofMagnitude (negative : Bool) (magnitude : Nat) : Binary64 :=
  ⟨UInt64.ofNat (magnitude + if negative then 2 ^ 63 else 0)⟩

/-- `num / den` to the nearest integer, a half to the even one. -/
def roundDiv (num den : Nat) : Nat :=
  let q := num / den
  let r := num % den
  if 2 * r < den then q
  else if den < 2 * r then q + 1
  else q + q % 2

/-- The largest `k` with `2 ^ k * den ≤ num`, for positive `num` and `den`. -/
def floorLog2 (num den : Nat) : Int :=
  let k : Int := (Nat.log2 num : Int) - (Nat.log2 den : Int)
  let fits := if 0 ≤ k then den * 2 ^ k.toNat ≤ num else den ≤ num * 2 ^ (-k).toNat
  if fits then k else k - 1

/-- The magnitude nearest to the positive number `num / den`, that of infinity or more if it is too large.
The significand carries over into the exponent by itself when it rounds up to the next power of two. -/
def nearestMagnitude (num den : Nat) : Nat :=
  let q := max (floorLog2 num den - 52) (-1074)
  let rounded :=
    if 0 ≤ q then roundDiv num (den * 2 ^ q.toNat) else roundDiv (num * 2 ^ (-q).toNat) den
  (q + 1074).toNat * 2 ^ 52 + rounded

def infinity : Binary64 := ofMagnitude false infinityMagnitude

/-- The double nearest to `num / den`. -/
def ofRatio (num den : Nat) : Binary64 :=
  if num = 0 then ofMagnitude false 0
  else ofMagnitude false (min (nearestMagnitude num den) infinityMagnitude)

/-- The magnitude of a finite number as a fraction. -/
def ratio (x : Binary64) : Nat × Nat :=
  if 0 ≤ x.scale then (x.significand * 2 ^ x.scale.toNat, 1) else (x.significand, 2 ^ (-x.scale).toNat)

/-- The product of two finite numbers without their signs. -/
def times (x y : Binary64) : Binary64 := ofRatio (x.ratio.1 * y.ratio.1) (x.ratio.2 * y.ratio.2)

/-- The quotient of two finite numbers without their signs, the second one not zero. -/
def quotient (x y : Binary64) : Binary64 := ofRatio (x.ratio.1 * y.ratio.2) (x.ratio.2 * y.ratio.1)

/-- The double equal to a number of single precision, given by its bits. Infinity and the numbers that are
none keep their fraction, and a quiet bit is set in the latter. -/
def ofSingle (bits : UInt32) : Binary64 :=
  let negative : Bool := bits.toNat / 2 ^ 31 = 1
  let exponent := bits.toNat / 2 ^ 23 % 2 ^ 8
  let fraction := bits.toNat % 2 ^ 23
  if exponent = 0xFF then
    let quiet := if fraction ≠ 0 && fraction < 2 ^ 22 then 2 ^ 51 else 0
    ofMagnitude negative (infinityMagnitude + fraction * 2 ^ 29 + quiet)
  else if exponent = 0 then
    if fraction = 0 then ofMagnitude negative 0
    else
      -- a subnormal single is normal as a double: its leading one moves to the hidden place
      let k := Nat.log2 fraction
      ofMagnitude negative ((k + 874) * 2 ^ 52 + (fraction - 2 ^ k) * 2 ^ (52 - k))
  else ofMagnitude negative ((exponent + 896) * 2 ^ 52 + fraction * 2 ^ 29)

example : ofRatio 1 2 = ⟨0x3FE0000000000000⟩ := by decide +kernel
example : ofRatio 9007199254740993 1 = ⟨0x4340000000000000⟩ := by decide +kernel
example : ofRatio 1 (10 ^ 400) = ⟨0⟩ := by decide +kernel
example : ofRatio (10 ^ 309) 1 = infinity := by decide +kernel
example : (ofRatio 1 3).times (ofRatio 3 1) = ofRatio 1 1 := by decide +kernel
example : ofSingle 0x3FC00000 = ⟨0x3FF8000000000000⟩ := by decide +kernel
example : ofSingle 1 = ⟨0x36A0000000000000⟩ := by decide +kernel

end Binary64

end TraceTables
