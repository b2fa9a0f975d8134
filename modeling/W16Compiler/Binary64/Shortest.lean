import W16Compiler.Binary64.Basic

/-!
# Shortest decimals

The decimal with the fewest digits that rounds back to a given number, and among those of that
length the nearest one. For one to seventeen digits the two neighbours of the number on that decimal
grid are tried against the interval of reals that round to it. A number halfway between two decimals
has two nearest ones, and a `Tie` says which of them is meant.
-/

namespace W16Compiler.Binary64

/-- Where a number halfway between two decimals goes. -/
inductive Tie where
  | up
  | toEven
  deriving DecidableEq

def Tie.goesUp : Tie → Nat → Bool
  | up, _ => true
  | toEven, q => q % 2 == 1

/-- The positive number `0.d₁d₂… * 10 ^ point`, without trailing zeros among the digits. -/
structure Decimal where
  digits : List Char
  point : Int
  deriving DecidableEq

/-- The reals that round to `mantissa * 2 ^ exponent`, in units of `2 ^ (exponent - 2)`. -/
structure Rounding where
  low : Nat
  mid : Nat
  high : Nat
  inclusive : Bool

def Rounding.ofMantissa (mantissa : Nat) (exponent : Int) : Rounding where
  low := if mantissa == twoTo 52 && exponent > -1074 then 4 * mantissa - 1 else 4 * mantissa - 2
  mid := 4 * mantissa
  high := 4 * mantissa + 2
  inclusive := mantissa % 2 == 0

def Rounding.contains (r : Rounding) (num den : Nat) : Bool :=
  if r.inclusive then r.low * den ≤ num && num ≤ r.high * den
  else r.low * den < num && num < r.high * den

def decimalPoint (num den : Nat) : Int :=
  if den ≤ num then (Nat.toDigits 10 (num / den)).length
  else -((Nat.toDigits 10 (den / num)).length - 1 : Int)

def tenPower (e : Int) : Nat × Nat :=
  if 0 ≤ e then (tenTo e.toNat, 1) else (1, tenTo (-e).toNat)

def onGrid (tie : Tie) (r : Rounding) (num den : Nat) (point : Int) (count : Nat) : Option Nat :=
  let (t, u) := tenPower (point - count)
  let q := (r.mid * num * u) / (den * t)
  let inside (q : Nat) : Bool := r.contains (q * t * den) (u * num)
  let below := r.mid * num * u - q * (den * t)
  let above := (q + 1) * (den * t) - r.mid * num * u
  let upward := above < below || above == below && tie.goesUp q
  if inside q then if inside (q + 1) && upward then some (q + 1) else some q
  else if inside (q + 1) then some (q + 1)
  else none

def stripZeros (ds : List Char) : List Char := (ds.reverse.dropWhile (· == '0')).reverse

def Decimal.ofGrid (q : Nat) (unit : Int) : Decimal :=
  let ds := Nat.toDigits 10 q
  { digits := stripZeros ds, point := ds.length + unit }

def shortest (tie : Tie) (mantissa : Nat) (exponent : Int) : Decimal :=
  let r := Rounding.ofMantissa mantissa exponent
  let (num, den) := scaledQuotient 1 1 (2 - exponent)
  let point := decimalPoint (r.mid * num) den
  let counts := (List.range 17).map (· + 1)
  match counts.findSome? (fun n ↦ (onGrid tie r num den point n).map (·, n)) with
  | some (q, n) => .ofGrid q (point - n)
  | none => .ofGrid (r.mid * num / den) 0

end W16Compiler.Binary64
