/-!
# Conversion faults

Why a value of one type does not become a value of another. Both types are given as diagnostics
write them.
-/

namespace W16Compiler

inductive ConversionFault where
  | losesData (source target : String)
  | losesPrecision (source target : String)
  | needsCast (source target : String)
  | incompatibleNeedsCast (source target : String)
  | incompatible (source target : String)
  | discardsQualifiers (source target : String)
  | incompatiblePointers (source target : String)
  | invalidCast (source target : String)
  /-- The offset of a base is two to the power of thirty-one. -/
  | negation
  deriving DecidableEq, Repr

def ConversionFault.message : ConversionFault → String
  | losesData s t => s!"conversion from '{s}' to '{t}' may lose data; use a cast"
  | losesPrecision s t => s!"conversion from '{s}' to '{t}' may lose precision; use a cast"
  | needsCast s t => s!"conversion from '{s}' to '{t}' requires a cast"
  | incompatibleNeedsCast s t => s!"incompatible types: '{s}' to '{t}' requires a cast"
  | incompatible s t => s!"incompatible types: cannot convert '{s}' to '{t}'"
  | discardsQualifiers s t => s!"conversion from '{s}*' to '{t}*' discards qualifiers"
  | incompatiblePointers s t => s!"incompatible pointer types: '{s}*' to '{t}*'"
  | invalidCast s t => s!"invalid cast from '{s}' to '{t}'"
  | negation => "attempt to negate with overflow"

end W16Compiler
