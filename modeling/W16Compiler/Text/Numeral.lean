/-!
# Numerals

Texts of integers: with a forced sign, in hexadecimal, and padded to a width.
-/

namespace W16Compiler.Text

def padLeft (width : Nat) (fill : Char) (s : String) : String :=
  String.ofList (List.replicate (width - s.length) fill) ++ s

def padRight (width : Nat) (s : String) : String :=
  s ++ String.ofList (List.replicate (width - s.length) ' ')

/-- The decimal numeral with `+` before a number that is not negative. -/
def signed (n : Int) : String := if n < 0 then toString n else "+" ++ toString n

def hexDigits (n : Nat) : String := String.ofList (Nat.toDigits 16 n)

def hex (width n : Nat) : String := padLeft width '0' (hexDigits n)

def hexValue (c : Char) : Option Nat :=
  if '0' ≤ c && c ≤ '9' then some (c.toNat - '0'.toNat)
  else if 'a' ≤ c && c ≤ 'f' then some (c.toNat - 'a'.toNat + 10)
  else if 'A' ≤ c && c ≤ 'F' then some (c.toNat - 'A'.toNat + 10)
  else none

/-- The number written by `cs` in base `radix`, if every character is a digit of that base. -/
def readDigits (radix : Nat) (cs : List Char) : Option Nat :=
  cs.foldl (fun acc c ↦ do
    let n ← acc
    let d ← hexValue c
    if d < radix then some (n * radix + d) else none) (some 0)

end W16Compiler.Text
