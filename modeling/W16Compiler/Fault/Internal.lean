import W16Compiler.Arena

/-!
# Internal faults

Broken invariants of the compiler itself.
-/

namespace W16Compiler

inductive InternalFault where
  -- Reading
  /-- A bound on the work was too small. -/
  | outOfSteps
  | switchLost
  | unbalancedStacks
  | operandUnderflow
  | pendingQuestion
  | virtualWithoutSlot (name : String)
  | callThroughNonFunction
  | bodyOfNonFunction
  | declarationWithoutFunctionType
  | functionLost
  /-- A result does not fit. Nothing is reported; the compiler stops. -/
  | overflow (verb : String)
  -- Lowering
  | noStorage (name : String)
  | unknownTry
  | caseMarkerRange
  | breakOutsideLoop
  | continueOutsideLoop
  | gotoUnknown (label : String)
  | tryWithoutHandler
  | addressOfArgument
  -- Machine code
  | comparisonSelected (op : String)
  | multiWordAddress
  | returnedWords (words : Nat)
  | resultWords (words : Nat)
  | blockComparison
  | noFrameOffset (slot : Nat)
  | depthConflict (function : String) (first second : Int)
  | undefinedLabel (label : String)
  | undefinedLabelIn (function label : String)
  | shortOutOfReach (function form label : String)
  | fieldRange (value : Int) (bits : Nat)
  | unresolvedDisplacement
  | compareOperand
  -- Linked lists
  | links (fault : Arena.Fault)
  deriving DecidableEq

def InternalFault.message : InternalFault → String
  | outOfSteps => "out of steps"
  | switchLost => "switch context lost"
  | unbalancedStacks => "unbalanced expression stacks"
  | operandUnderflow => "operand stack underflow"
  | pendingQuestion => "reducing a pending '?'"
  | virtualWithoutSlot name => s!"virtual '{name}' has no slot"
  | callThroughNonFunction => "call through a non-function type"
  | bodyOfNonFunction => "function body for a non-function"
  | declarationWithoutFunctionType => "function declaration without function type"
  | functionLost => "function state lost"
  | overflow verb => s!"attempt to {verb} with overflow"
  | noStorage name => s!"'{name}' has no storage"
  | unknownTry => "jump out of an unknown try"
  | caseMarkerRange => "case marker out of range"
  | breakOutsideLoop => "break outside of a loop"
  | continueOutsideLoop => "continue outside of a loop"
  | gotoUnknown label => s!"goto unknown label '{label}'"
  | tryWithoutHandler => "try without catch or finally"
  | addressOfArgument => "address of an outgoing argument"
  | comparisonSelected op => s!"comparison '{op}' reached arithmetic selection"
  | multiWordAddress => "multi-word address operand"
  | returnedWords words => s!"{words}-word value returned in registers"
  | resultWords words => s!"{words}-word call result in registers"
  | blockComparison => "block comparison"
  | noFrameOffset slot => s!"slot s{slot} has no frame offset"
  | depthConflict function first second =>
    s!"{function}: stack depth {first} and {second} meet at one instruction"
  | undefinedLabel label => s!"undefined label {label}"
  | undefinedLabelIn function label => s!"{function}: undefined label {label}"
  | shortOutOfReach function form label => s!"{function}: short form of '{form}' cannot reach {label}"
  | fieldRange value bits => s!"value {value} does not fit {bits} bits"
  | unresolvedDisplacement => "unresolved stack displacement"
  | compareOperand => "compare-and-branch operand above r3"
  | links fault => fault.message

end W16Compiler
