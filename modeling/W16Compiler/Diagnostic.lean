import W16Compiler.Fault.Grammatical
import W16Compiler.Fault.Internal
import W16Compiler.Fault.Lexical
import W16Compiler.Fault.Semantic

/-!
# Diagnostics

A fault together with the location it is reported at, and its text.
-/

namespace W16Compiler

inductive Diagnostic where
  | lexical (loc : Location) (fault : LexicalFault)
  | grammatical (loc : Location) (fault : GrammarFault)
  | semantic (loc : Location) (fault : SemanticFault)
  | frameTooLarge (loc : Location) (function : String) (words : Nat)
  | internal (fault : InternalFault)
  deriving DecidableEq

namespace Diagnostic

def loc : Diagnostic → Option Location
  | lexical loc _ | grammatical loc _ | semantic loc _ | frameTooLarge loc .. => some loc
  | internal _ => none

def message : Diagnostic → String
  | lexical _ fault => fault.message
  | grammatical _ fault => fault.message
  | semantic _ fault => fault.message
  | frameTooLarge _ function words => s!"stack frame of '{function}' is {words} words, too large"
  | internal fault => s!"internal compiler error: {fault.message}"

def text (d : Diagnostic) : String :=
  match d.loc with
  | some loc => loc.text ++ ": " ++ d.message
  | none => d.message

def note : Diagnostic → Option (Location × String)
  | semantic _ fault => fault.note
  | _ => none

def render (d : Diagnostic) : String :=
  match d.note with
  | some (loc, text) => d.text ++ "\n" ++ loc.text ++ ": " ++ text
  | none => d.text

/-- A fault of the compiler ends the compilation; any other is collected. -/
def isFatal : Diagnostic → Bool
  | internal _ => true
  | _ => false

end Diagnostic

end W16Compiler
