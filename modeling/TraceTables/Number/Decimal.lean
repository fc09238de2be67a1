import TraceTables.Number.Binary64

/-! Doubles for decimal numbers, found without long arithmetic: the double nearest to the digits is multiplied with a
power of ten or divided by one, and both steps round. What comes out is near to the decimal number and not always the
nearest. -/

namespace TraceTables.Binary64

def powerOfTen (exponent : Nat) : Binary64 := ofRatio (10 ^ exponent) 1

/-- The largest exponent of a power of ten that is finite. -/
def maxPower : Nat := 308

/-- Divides by a power of ten, one that is too large in several steps. -/
def dividedBy (x : Binary64) (exponent : Nat) : Binary64 :=
  if exponent ≤ maxPower then x.quotient (powerOfTen exponent)
  else if x.magnitude = 0 then x
  else dividedBy (x.quotient (powerOfTen maxPower)) (exponent - maxPower)
termination_by exponent
decreasing_by
  simp only [maxPower] at *
  omega

/-- The double for `digits * 10 ^ exponent`, if it is finite. A power that is too large is not even tried, unless there
are no digits but zeros. -/
def ofDecimal? (negative : Bool) (digits : Nat) (exponent : Int) : Option Binary64 :=
  let x := ofRatio digits 1
  let scaled :=
    if exponent < 0 then x.dividedBy (-exponent).toNat
    else if exponent ≤ maxPower then x.times (powerOfTen exponent.toNat)
    else if digits = 0 then x
    else infinity
  if scaled.isFinite then some (ofMagnitude negative scaled.magnitude) else none

example : ofDecimal? true 0 7 = some ⟨0x8000000000000000⟩ := by decide +kernel
example : ofDecimal? false 18 307 = none := by decide +kernel

/-- Neither ten to its 23rd power nor three times that is a double, and it is not the nearest one that comes out. -/
example : ofDecimal? false 3 23 = some ⟨0x44CFC3842BD1F071⟩ ∧ ofRatio (3 * 10 ^ 23) 1 = ⟨0x44CFC3842BD1F072⟩ := by
  decide +kernel

end TraceTables.Binary64
