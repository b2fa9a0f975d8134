import W16Compiler.Machine.Basic
import W16Compiler.Prim.Text

/-!
# Texts of machine instructions

The assembly that stands for each instruction. The long form of a branch is the opposite branch over
a jump.
-/

namespace W16Compiler

def Disp.text : Disp → String
  | num value => toString value
  | slot s offset => withOffset s.text offset
  | param offset => "param" ++ Text.signed offset
  | frame factor => s!"frame*{factor}"

namespace Instr

def text : Instr → String
  | label l _ => l.text ++ ":"
  | alu op rd ra rb => s!"\t{op.mnemonic}\t{rd.name},{ra.name},{rb.name}"
  | unary op rd ra => s!"\t{op.mnemonic}\t{rd.name},{ra.name}"
  | addImm rd ra imm => s!"\taddi\t{rd.name},{ra.name},#{imm.text}"
  | loadImm rd value =>
    let mnemonic := if fitsSigned value 8 then "ldi" else "ldl"
    s!"\t{mnemonic}\t{rd.name},#{value}"
  | loadSymbol rd symbol offset => s!"\tldl\t{rd.name},#{withOffset symbol offset}"
  | loadLabel rd l short =>
    if short then s!"\tlea\t{rd.name},{l.text}" else s!"\tldl\t{rd.name},#{l.text}"
  | load rd base disp => s!"\tld\t{rd.name},{disp.text}({base.name})"
  | store rs base disp => s!"\tst\t{rs.name},{disp.text}({base.name})"
  | branch cond ra rb target short =>
    if short then s!"\t{cond.mnemonic}\t{ra.name},{rb.name},{target.text}"
    else s!"\t{cond.negate.mnemonic}\t{ra.name},{rb.name},.+3\n\tjmp\t{target.text}"
  | branchZero nonzero ra target short =>
    let mnemonic := if nonzero == short then "bnz" else "bz"
    if short then s!"\t{mnemonic}\t{ra.name},{target.text}"
    else s!"\t{mnemonic}\t{ra.name},.+3\n\tjmp\t{target.text}"
  | jump target short => if short then "\tbr\t" ++ target.text else "\tjmp\t" ++ target.text
  | jumpSymbol symbol => "\tjmp\t" ++ symbol
  | call symbol => "\tcall\t" ++ symbol
  | callReg ra => "\tcallr\t" ++ ra.name
  | jumpReg ra _ => "\tjr\t" ++ ra.name
  | ret _ => "\tret"

end Instr

def MachineFunction.text (f : MachineFunction) : String :=
  f.label ++ ":\n" ++ String.join (f.code.map fun i ↦ i.value.text ++ "\n")

end W16Compiler
