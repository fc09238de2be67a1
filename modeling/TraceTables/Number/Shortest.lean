import TraceTables.Number.Binary64

/-! The decimal text of a double: the fewest digits that read back as the same number, and of those the
nearest to it. All is exact arithmetic on natural numbers; the layout of the digits is a record. -/

namespace TraceTables.Shortest

/-- `digits * 10 ^ exponent`. -/
structure Decimal where
  digits : Nat
  exponent : Int
deriving DecidableEq

/-- A positive double in a common unit `1 / den`: its value `num`, and the ends of the interval of the numbers
that round to it, themselves inside if `closed`. -/
structure Span where
  low : Nat
  num : Nat
  high : Nat
  den : Nat
  closed : Bool

/-- The interval of a finite positive double. It reaches half way to the neighbours; the lower neighbour of a
power of two is only half as far away. The unit is a quarter of the last place. -/
def Span.of (x : Binary64) : Span :=
  let m := x.significand
  let below := if x.fraction = 0 && 1 < x.exponentField then 1 else 2
  let scale := x.scale - 2
  let up := if 0 ≤ scale then 2 ^ scale.toNat else 1
  let den := if 0 ≤ scale then 1 else 2 ^ (-scale).toNat
  ⟨(4 * m - below) * up, 4 * m * up, (4 * m + 2) * up, den, m % 2 = 0⟩

/-- Does `digits * 10 ^ exponent` round to the double? -/
def Span.holds (s : Span) (digits : Nat) (exponent : Int) : Bool :=
  let value := if 0 ≤ exponent then digits * 10 ^ exponent.toNat * s.den else digits * s.den
  let unit := if 0 ≤ exponent then 1 else 10 ^ (-exponent).toNat
  if s.closed then s.low * unit ≤ value && value ≤ s.high * unit
  else s.low * unit < value && value < s.high * unit

/-- The point of the grid of multiples of `10 ^ exponent` that reads back as the double and is nearest to it; of
two at one distance the even one. -/
def Span.hit? (s : Span) (exponent : Int) : Option Nat :=
  let num := if 0 ≤ exponent then s.num else s.num * 10 ^ (-exponent).toNat
  let den := if 0 ≤ exponent then s.den * 10 ^ exponent.toNat else s.den
  let floor := num / den
  let near := Binary64.roundDiv num den
  let far := if near = floor then floor + 1 else floor
  if s.holds near exponent then some near
  else if s.holds far exponent then some far
  else none

/-- The largest `k` with `10 ^ k ≤ num / den`. The estimate from the binary logarithm is one too low at most. -/
def floorLog10 (num den : Nat) : Int :=
  let estimate := Int.fdiv (Binary64.floorLog2 num den * 30103) 100000
  let next := estimate + 1
  let fits :=
    if 0 ≤ next then den * 10 ^ next.toNat ≤ num else den ≤ num * 10 ^ (-next).toNat
  if fits then next else estimate

/-- Tries grids from coarse to fine: `more` of them, the first with steps of `10 ^ exponent`. -/
def firstHit (s : Span) : Nat → Int → Decimal
  | 0, exponent => ⟨Binary64.roundDiv s.num s.den, exponent⟩
  | more + 1, exponent =>
    match s.hit? exponent with
    | some digits => ⟨digits, exponent⟩
    | none => firstHit s more (exponent - 1)

/-- Drops the zeros at the end of the digits; `more` bounds their number. -/
def Decimal.stripZeros : Nat → Decimal → Decimal
  | 0, d => d
  | more + 1, d => if d.digits % 10 = 0 then stripZeros more ⟨d.digits / 10, d.exponent + 1⟩ else d

/-- The digits of a finite positive double. Seventeen always suffice. -/
def decimal (x : Binary64) : Decimal :=
  let s := Span.of x
  (firstHit s 18 (floorLog10 s.num s.den)).stripZeros 18

/-- How digits are laid out: positional while the first digit's exponent lies in `[positionalFrom,
scientificFrom)`, with `.0` behind an integer if `showFraction`; else one digit before the point and
the exponent behind `mark`. -/
structure Layout where
  positionalFrom : Int
  scientificFrom : Int
  showFraction : Bool
  mark : String
  plus : String

def zeros (n : Nat) : String := String.ofList (List.replicate n '0')

def Layout.positional (l : Layout) (ds : List Char) (exponent : Int) : String :=
  if 0 ≤ exponent then
    String.ofList ds ++ zeros exponent.toNat ++ if l.showFraction then ".0" else ""
  else
    let places := (-exponent).toNat
    if places < ds.length then
      String.ofList (ds.take (ds.length - places)) ++ "." ++ String.ofList (ds.drop (ds.length - places))
    else "0." ++ zeros (places - ds.length) ++ String.ofList ds

def Layout.scientific (l : Layout) (ds : List Char) (exponent : Int) : String :=
  let point := if ds.length ≤ 1 then "" else "."
  let sign := if exponent < 0 then "-" else l.plus
  String.ofList (ds.take 1) ++ point ++ String.ofList (ds.drop 1) ++ l.mark ++ sign ++
    toString exponent.natAbs

def Layout.render (l : Layout) (d : Decimal) : String :=
  let ds := Nat.toDigits 10 d.digits
  let exponent := d.exponent + (ds.length - 1 : Nat)
  if l.positionalFrom ≤ exponent && exponent < l.scientificFrom then l.positional ds d.exponent
  else l.scientific ds exponent

/-- The text of a finite double. -/
def Layout.text (l : Layout) (x : Binary64) : String :=
  let sign := if x.negative then "-" else ""
  if x.magnitude = 0 then sign ++ l.positional ['0'] 0
  else sign ++ l.render (decimal x)

example : decimal ⟨1⟩ = ⟨5, -324⟩ := by decide +kernel
example : decimal ⟨0x3FB999999999999A⟩ = ⟨1, -1⟩ := by decide +kernel
example : decimal ⟨0x4340000000000000⟩ = ⟨9007199254740992, 0⟩ := by decide +kernel
example : decimal ⟨0x7FEFFFFFFFFFFFFF⟩ = ⟨17976931348623157, 292⟩ := by decide +kernel

end TraceTables.Shortest
