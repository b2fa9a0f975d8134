import W16Compiler.Binary64.Shortest

/-!
# Texts of numbers

The digits of a number are always the shortest that read back. What differs from one place to
another is how they are laid out, and a `Layout` says how.
-/

namespace W16Compiler.Binary64

structure Layout where
  /-- The exponents of the first digit that are written without an exponent mark; all if absent. -/
  positional : Option (Int × Int)
  /-- Whether a number without a fraction is written with `.0`. -/
  point : Bool
  plus : Bool
  /-- Where a number halfway between two decimals of the shortest length goes. -/
  tie : Tie
  infinity : String
  nan : String

def zeros (n : Int) : List Char := List.replicate n.toNat '0'

def Layout.plain (layout : Layout) (d : Decimal) : List Char :=
  if d.point ≤ 0 then ['0', '.'] ++ zeros (-d.point) ++ d.digits
  else
    let whole := d.digits.take d.point.toNat
    let fraction := d.digits.drop d.point.toNat
    let padded := whole ++ zeros (d.point - whole.length)
    if fraction.isEmpty then if layout.point then padded ++ ['.', '0'] else padded
    else padded ++ '.' :: fraction

def Layout.scientific (layout : Layout) (d : Decimal) : List Char :=
  let e := d.point - 1
  let mark := if 0 ≤ e && layout.plus then ['e', '+'] else ['e']
  let fraction := if d.digits.length ≤ 1 then [] else '.' :: d.digits.drop 1
  d.digits.take 1 ++ fraction ++ mark ++ (toString e).toList

def Layout.decimal (layout : Layout) (d : Decimal) : List Char :=
  match layout.positional with
  | some (low, high) =>
    if low ≤ d.point - 1 && d.point - 1 < high then layout.plain d else layout.scientific d
  | none => layout.plain d

def text (layout : Layout) (x : Binary64) : String :=
  let sign (s : Bool) := if s then "-" else ""
  match x.value with
  | .nan => layout.nan
  | .infinite s => sign s ++ layout.infinity
  | .finite s m e =>
    if m == 0 then sign s ++ (if layout.point then "0.0" else "0")
    else sign s ++ String.ofList (layout.decimal (shortest layout.tie m e))

end W16Compiler.Binary64
