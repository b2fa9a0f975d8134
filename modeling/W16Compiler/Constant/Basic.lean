import W16Compiler.Binary64.Basic

/-!
# Constants

Values that are known before the program runs.
-/

namespace W16Compiler

inductive Constant where
  | int (value : Int)
  | float (value : Binary64)
  | address (label : String) (offset : Int)
  deriving DecidableEq

namespace Constant

def truth : Constant → Bool
  | int value => value != 0
  | float value => !value.isZero
  | address .. => true

def asInt : Constant → Option Int
  | int value => some value
  | _ => none

def ofBool (b : Bool) : Constant := int (if b then 1 else 0)

end Constant

end W16Compiler
