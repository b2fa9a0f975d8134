/-!
# Wrap-around integers

Values are integers; a width is applied by wrapping. Sizes and offsets count words in thirty-two
bits, constants have sixty-four.
-/

namespace W16Compiler

/-- How many numbers there are of so many bits. -/
def twoTo (bits : Nat) : Nat := Nat.pow 2 bits

def total (counts : List Nat) : Nat := counts.foldr (· + ·) 0

/-- Wraps to `bits` bits, as a signed or an unsigned number. Widths count modulo sixty-four. -/
def wrapBits (value : Int) (bits : Nat) (signed : Bool) : Int :=
  let count := twoTo (bits % 64)
  if signed then Int.bmod value count else value % count

def wrap64 (value : Int) : Int := Int.bmod value (twoTo 64)

def wrap32 (value : Int) : Int := Int.bmod value (twoTo 32)

def addWords (a b : Nat) : Nat := (a + b) % twoTo 32

/-- Whether a value fits a signed field of so many bits. Widths count modulo thirty-two. -/
def fitsSigned (value : Int) (bits : Nat) : Bool :=
  let bits := bits % 32
  0 < bits && -(twoTo (bits - 1)) ≤ value && value < twoTo (bits - 1)

/-- Bitwise operations on two's complement numbers of sixty-four bits. -/
def bitwise64 (op : UInt64 → UInt64 → UInt64) (a b : Int) : Int :=
  wrap64 (op (.ofInt a) (.ofInt b)).toNat

end W16Compiler
