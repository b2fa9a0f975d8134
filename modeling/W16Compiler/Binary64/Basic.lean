import W16Compiler.Words

/-!
# IEEE double precision numbers

A number is kept as its sixty-four bits. Arithmetic is exact first and rounded once: every finite
result is a quotient of natural numbers, which `roundQuotient` takes to the nearest number with a
given count of significant bits, ties going to the even one.
-/

namespace W16Compiler

structure Binary64 where
  bits : UInt64
  deriving DecidableEq, Inhabited, Repr

namespace Binary64

/-- What a bit pattern stands for: a finite number is `mantissa * 2 ^ exponent` with a sign. -/
inductive Value where
  | nan
  | infinite (negative : Bool)
  | finite (negative : Bool) (mantissa : Nat) (exponent : Int)
  deriving DecidableEq

def negative (x : Binary64) : Bool := x.bits >>> 63 == 1

def value (x : Binary64) : Value :=
  let field := ((x.bits >>> 52) &&& 0x7ff).toNat
  let fraction := (x.bits &&& 0xfffffffffffff).toNat
  if field == 0x7ff then if fraction == 0 then .infinite x.negative else .nan
  else if field == 0 then .finite x.negative fraction (-1074)
  else .finite x.negative (fraction + twoTo 52) (field - 1075)

def isNaN (x : Binary64) : Bool := x.value == .nan

def signBit (negative : Bool) : Nat := if negative then twoTo 63 else 0

def infinity (negative : Bool) : Binary64 := ⟨.ofNat (signBit negative + 0x7ff * twoTo 52)⟩

def zero (negative : Bool) : Binary64 := ⟨.ofNat (signBit negative)⟩

def invalid : Binary64 := ⟨0xfff8000000000000⟩

def quiet (x : Binary64) : Binary64 := ⟨x.bits ||| 0x8000000000000⟩

def scaledQuotient (num den : Nat) (exponent : Int) : Nat × Nat :=
  if 0 ≤ exponent then (num, den * twoTo exponent.toNat) else (num * twoTo (-exponent).toNat, den)

/-- The exponent of the power of two at or below `num / den`, both positive. -/
def floorLog (num den : Nat) : Int :=
  let guess : Int := (num.log2 : Int) - den.log2
  let (n, d) := scaledQuotient num den guess
  if n < d then guess - 1 else guess

/-- Rounds a quotient to a natural number, ties to even. -/
def roundHalfEven (num den : Nat) : Nat :=
  let q := num / den
  let twice := 2 * (num % den)
  if twice < den then q else if twice > den then q + 1 else q + q % 2

/-- The mantissa and exponent nearest to `num / den`: at most `precision` bits, and an exponent not
below `least`. -/
def roundQuotient (precision : Nat) (least : Int) (num den : Nat) : Nat × Int :=
  if num == 0 then (0, least)
  else
    let exponent := max (floorLog num den - (precision - 1)) least
    let (n, d) := scaledQuotient num den exponent
    let m := roundHalfEven n d
    if m == twoTo precision then (m / 2, exponent + 1) else (m, exponent)

/-- The number with a mantissa below `2 ^ 53`, full unless the exponent is the least one. -/
def assemble (negative : Bool) (mantissa : Nat) (exponent : Int) : Binary64 :=
  if exponent > 971 then infinity negative
  else if mantissa < twoTo 52 then ⟨.ofNat (signBit negative + mantissa)⟩
  else ⟨.ofNat (signBit negative + (exponent + 1074).toNat * twoTo 52 + mantissa)⟩

def ofQuotient (negative : Bool) (num den : Nat) : Binary64 :=
  let (m, e) := roundQuotient 53 (-1074) num den
  assemble negative m e

def ofScaled (negative : Bool) (mantissa : Nat) (exponent : Int) : Binary64 :=
  let (n, d) := scaledQuotient mantissa 1 (-exponent)
  ofQuotient negative n d

def ofInt (n : Int) : Binary64 := ofQuotient (n < 0) n.natAbs 1

def tenTo (digits : Nat) : Nat := Nat.pow 10 digits

/-- The number written `digits * 10 ^ exponent`. A power of ten that leaves the range of doubles
whatever the digits are is settled before it is computed. -/
def ofDecimal (digits : Nat) (exponent : Int) : Binary64 :=
  let size : Int := (Nat.toDigits 10 digits).length + exponent
  if digits == 0 || size < -330 then zero false
  else if size > 320 then infinity false
  else if 0 ≤ exponent then ofQuotient false (digits * tenTo exponent.toNat) 1
  else ofQuotient false digits (tenTo (-exponent).toNat)

/-! ## Arithmetic -/

def neg (x : Binary64) : Binary64 := ⟨x.bits ^^^ 0x8000000000000000⟩

/-- An operation on numbers; a NaN among the operands is the result, the first one first. -/
def lift (op : Value → Value → Binary64) (x y : Binary64) : Binary64 :=
  if x.isNaN then x.quiet else if y.isNaN then y.quiet else op x.value y.value

def signedMantissa (negative : Bool) (mantissa : Nat) : Int :=
  if negative then -mantissa else mantissa

/-- The exact sum of two finite numbers, over the smaller of the two exponents. -/
def addFinite (s₁ : Bool) (m₁ : Nat) (e₁ : Int) (s₂ : Bool) (m₂ : Nat) (e₂ : Int) : Binary64 :=
  let e := min e₁ e₂
  let sum := signedMantissa s₁ m₁ * twoTo (e₁ - e).toNat + signedMantissa s₂ m₂ * twoTo (e₂ - e).toNat
  if sum == 0 then zero (s₁ && s₂) else ofScaled (sum < 0) sum.natAbs e

def add : Binary64 → Binary64 → Binary64 := lift fun
  | .infinite s, .infinite t => if s == t then infinity s else invalid
  | .infinite s, _ => infinity s
  | _, .infinite t => infinity t
  | .finite s₁ m₁ e₁, .finite s₂ m₂ e₂ => addFinite s₁ m₁ e₁ s₂ m₂ e₂
  | _, _ => invalid

def sub (x y : Binary64) : Binary64 := if y.isNaN then add x y else add x (neg y)

def mul : Binary64 → Binary64 → Binary64 := lift fun
  | .infinite s, .infinite t => infinity (s != t)
  | .infinite s, .finite t m _ => if m == 0 then invalid else infinity (s != t)
  | .finite s m _, .infinite t => if m == 0 then invalid else infinity (s != t)
  | .finite s m e, .finite t n f =>
    if m * n == 0 then zero (s != t) else ofScaled (s != t) (m * n) (e + f)
  | _, _ => invalid

def div : Binary64 → Binary64 → Binary64 := lift fun
  | .infinite _, .infinite _ => invalid
  | .infinite s, .finite t _ _ => infinity (s != t)
  | .finite s _ _, .infinite t => zero (s != t)
  | .finite s m e, .finite t n f =>
    if n == 0 then if m == 0 then invalid else infinity (s != t)
    else if m == 0 then zero (s != t)
    else
      let (num, den) := scaledQuotient m n (f - e)
      ofQuotient (s != t) num den
  | _, _ => invalid

/-! ## Comparison -/

def compare? (x y : Binary64) : Option Ordering :=
  match x.value, y.value with
  | .nan, _ => none
  | _, .nan => none
  | .infinite s, .infinite t => some (compare t.toNat s.toNat)
  | .infinite s, _ => some (if s then .lt else .gt)
  | _, .infinite t => some (if t then .gt else .lt)
  | .finite s m e, .finite t n f =>
    let g := min e f
    some (compare (signedMantissa s m * twoTo (e - g).toNat) (signedMantissa t n * twoTo (f - g).toNat))

def isZero (x : Binary64) : Bool :=
  match x.value with
  | .finite _ m _ => m == 0
  | _ => false

/-! ## Conversions -/

/-- The integer part, held to the range of sixty-four bits; a NaN gives zero. -/
def toInt64 (x : Binary64) : Int :=
  let bound : Int := twoTo 63
  let clamp (n : Int) : Int := max (-bound) (min (bound - 1) n)
  match x.value with
  | .nan => 0
  | .infinite s => if s then -bound else bound - 1
  | .finite s m e =>
    let (n, d) := scaledQuotient m 1 (-e)
    clamp (signedMantissa s (n / d))

def isIntegral (x : Binary64) : Bool :=
  match x.value with
  | .finite _ m e => let (n, d) := scaledQuotient m 1 (-e); n % d == 0
  | _ => false

def roundSingle (mantissa : Nat) (exponent : Int) : Nat × Int :=
  let (n, d) := scaledQuotient mantissa 1 (-exponent)
  roundQuotient 24 (-149) n d

/-- The double equal to the nearest single precision number. -/
def toSingle (x : Binary64) : Binary64 :=
  match x.value with
  | .nan => quiet ⟨x.bits &&& 0xffffffffe0000000⟩
  | .infinite _ => x
  | .finite s m e =>
    let (m', e') := roundSingle m e
    if e' > 104 then infinity s else ofScaled s m' e'

def singleBits (x : Binary64) : Nat :=
  let sign (s : Bool) := if s then twoTo 31 else 0
  match x.value with
  | .nan => sign x.negative + 0x7fc00000 ||| ((x.bits &&& 0x7ffffffffffff).toNat >>> 29)
  | .infinite s => sign s + 0x7f800000
  | .finite s m e =>
    let (m', e') := roundSingle m e
    if e' > 104 then sign s + 0x7f800000
    else if m' < twoTo 23 then sign s + m'
    else sign s + (e' + 149).toNat * twoTo 23 + m'

end Binary64

end W16Compiler
