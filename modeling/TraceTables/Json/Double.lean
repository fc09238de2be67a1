import TraceTables.Json.Token
import TraceTables.Number.Decimal

/-! How the program reads numbers that are no integers. Digits count as long as 64 bits can hold them all. Of the others
those before the point still count as places. -/

namespace TraceTables.Json.Token

/-- Puts digits behind a number while 64 bits can hold it; the digits that are left over come with it. -/
def gather (n : Nat) : List Char → Nat × List Char
  | [] => (n, [])
  | c :: cs => if 10 * n + digit c < 2 ^ 64 then gather (10 * n + digit c) cs else (n, c :: cs)

/-- The digits that count, and the power of ten that they are multiplied with. -/
def Literal.decimal (l : Literal) : Nat × Int :=
  let fraction := l.fraction.getD []
  let whole := gather 0 l.whole
  let all := gather whole.1 fraction
  (all.1, l.exponent.getD 0 + whole.2.length - (fraction.length - all.2.length : Nat))

instance : Reals where
  double? l := Binary64.ofDecimal? l.negative l.decimal.1 l.decimal.2

end TraceTables.Json.Token
