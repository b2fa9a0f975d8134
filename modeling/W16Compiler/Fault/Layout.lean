/-!
# Layout faults

Why a struct or union cannot have the body it is given.
-/

namespace W16Compiler

inductive LayoutFault where
  | unionWithBases (name : String)
  | duplicateMember (name : String)
  | incompleteBase (name : String)
  | derivesFromItself (name : String)
  | incompleteField (name : String)
  | tooLarge (name : String) (words : Nat)
  deriving DecidableEq, Repr

def LayoutFault.message : LayoutFault → String
  | unionWithBases name => s!"union '{name}' cannot have base types"
  | duplicateMember name => s!"duplicate member '{name}'"
  | incompleteBase name => s!"base '{name}' is an incomplete type"
  | derivesFromItself name => s!"'{name}' cannot derive from itself"
  | incompleteField name => s!"field '{name}' has incomplete type"
  | tooLarge name words => s!"'{name}' is too large ({words} words)"

end W16Compiler
