import W16Compiler.Machine.Knowledge
import W16Compiler.Machine.Liveness

/-!
# Optimization of machine code

What is known about registers and what is read of them is used in turn, until neither changes the
code.
-/

namespace W16Compiler

namespace Code

def maxRounds : Nat := 16

def optimizeWithin : Nat → Code → Code
  | 0, code => code
  | rounds + 1, code =>
    let next := code.simplify.removeDead
    if next = code then code else optimizeWithin rounds next

def optimize (code : Code) : Code := optimizeWithin maxRounds code

end Code

def MachineFunction.optimize (f : MachineFunction) : MachineFunction := { f with code := f.code.optimize }

end W16Compiler
