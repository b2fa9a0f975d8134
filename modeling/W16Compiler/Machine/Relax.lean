import W16Compiler.Machine.Encode
import W16Compiler.Machine.Text
import W16Compiler.Text.Blank

/-!
# Short forms

Branches, jumps and loads of label addresses start in their long form. Each round takes the short
form wherever the target is in its reach. Code only becomes shorter by that, so distances only
shrink and no short form has to become long again.
-/

namespace W16Compiler

/-- The width of the distance in the short form of an instruction that has two forms. -/
def Instr.shortBits : Instr → Option Nat
  | .branch .. => some 5
  | .branchZero .. | .loadLabel .. => some 8
  | .jump .. => some 12
  | _ => none

namespace Relax

def shortOffset (address target : Nat) : Int := wrap32 (target - (address + 1))

/-- Takes the short forms that reach in code with the given addresses; a label that is not defined
ends the round. -/
def round (function : String) (labels : List (Label × Nat)) :
    List (Nat × Item Instr) → Option InternalFault × Code
  | [] => (none, [])
  | (address, i) :: rest =>
    let keep (i : Item Instr) : Option InternalFault × Code :=
      let (fault, code) := round function labels rest
      (fault, i :: code)
    match i.value.isShort, i.value.shortBits, i.value.relaxTarget with
    | false, some bits, some l =>
      match labels.lookup l with
      | none => (some (.undefinedLabelIn function l.text), i :: rest.map (·.2))
      | some target =>
        if fitsSigned (shortOffset address target) bits then keep { i with value := i.value.shorten }
        else keep i
    | _, _, _ => keep i

def longForms (code : Code) : Nat := code.countP fun i ↦ !i.value.isShort

/-- Repeats the round as long as it takes a short form. -/
def rounds (function : String) (code : Code) : Option InternalFault × Code :=
  match round function (code.labelAddresses 0) (code.addressed 0) with
  | (some fault, next) => (some fault, next)
  | (none, next) => if longForms next < longForms code then rounds function next else (none, next)
termination_by longForms code

/-- The first short form that does not reach its target. -/
def check (function : String) (code : Code) : Option InternalFault :=
  let labels := code.labelAddresses 0
  (code.addressed 0).findSome? fun (address, i) ↦
    match i.value.isShort, i.value.shortBits, i.value.relaxTarget with
    | true, some bits, some l =>
      match labels.lookup l with
      | none => some (.undefinedLabelIn function l.text)
      | some target =>
        if fitsSigned (shortOffset address target) bits then none
        else some (.shortOutOfReach function (Text.trim i.value.text) l.text)
    | _, _, _ => none

end Relax

/-- The function with short forms where they reach. After a fault it is as far as the rounds came. -/
def MachineFunction.relax (f : MachineFunction) : Option InternalFault × MachineFunction :=
  match Relax.rounds f.label f.code with
  | (some fault, code) => (some fault, { f with code })
  | (none, code) => (Relax.check f.label code, { f with code })

end W16Compiler
