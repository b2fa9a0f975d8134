/-!
# Source locations

A location names a logical file and line, which line directives move, a column, and the physical
line of the text that was read.
-/

namespace W16Compiler

structure Location where
  file : String
  line : Nat
  col : Nat
  physicalLine : Nat
  deriving DecidableEq, Inhabited, Repr

namespace Location

/-- The location of code and data that no source line wrote. -/
def builtin : Location := ⟨"<builtin>", 0, 0, 0⟩

def text (loc : Location) : String := s!"{loc.file}:{loc.line}.{loc.col}"

end Location

end W16Compiler
