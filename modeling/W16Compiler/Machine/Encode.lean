import W16Compiler.Fault.Internal
import W16Compiler.Machine.Basic
import W16Compiler.Text.Numeral

/-!
# Encoding

An instruction is one word with its opcode in the top four bits. Jumps, calls and long loads have a
second word with an absolute value, which is marked for relocation if it is an address. The long
form of a branch is the opposite branch over a jump.
-/

namespace W16Compiler

namespace Encode

/-- Mnemonics with the opcode and the further code that goes into a field of its own. -/
def mnemonics : List (String × Nat × Nat) :=
  [("add", 0, 0), ("addi", 2, 0), ("and", 0, 2), ("beq", 7, 0), ("bge", 7, 3), ("bgeu", 7, 5),
    ("blt", 7, 2), ("bltu", 7, 4), ("bne", 7, 1), ("bnz", 6, 0), ("br", 8, 0), ("bz", 6, 1),
    ("call", 9, 1), ("callr", 1, 6), ("jmp", 9, 0), ("jr", 1, 5), ("ld", 4, 0), ("ldi", 3, 0),
    ("ldl", 10, 0), ("lea", 3, 1), ("mov", 1, 0), ("neg", 1, 1), ("not", 1, 2), ("or", 0, 3),
    ("ret", 1, 7), ("sar", 0, 7), ("shl", 0, 5), ("shr", 0, 6), ("st", 5, 0), ("sub", 0, 1),
    ("sxb", 1, 3), ("xor", 0, 4), ("zxb", 1, 4)]

def lookup (mnemonic : String) : Option (Nat × Nat) := mnemonics.lookup mnemonic

def opcode (mnemonic : String) : Nat := ((lookup mnemonic).getD (0, 0)).1 * twoTo 12

def subcode (mnemonic : String) : Nat := ((lookup mnemonic).getD (0, 0)).2

end Encode

/-- A word of code; a relocated word holds an offset from a symbol or from the start of the code. -/
structure CodeWord where
  value : Nat
  relocated : Bool := false
  deriving DecidableEq

namespace CodeWord

def plain (value : Nat) : CodeWord := ⟨value, false⟩

/-- The low sixteen bits of a value that is known only later. -/
def reloc (value : Int) : CodeWord := ⟨(value % twoTo 16).toNat, true⟩

def text (w : CodeWord) : String := Text.hex 4 w.value ++ if w.relocated then "'" else ""

end CodeWord

namespace Encode

def field (value : Int) (bits : Nat) : Except InternalFault Nat :=
  if fitsSigned value bits then .ok (value % twoTo bits).toNat else .error (.fieldRange value bits)

def atBit (r : Reg) (bit : Nat) : Nat := r.number * twoTo bit

def jumpWords (mnemonic : String) (address : Int) : List CodeWord :=
  [.plain (opcode mnemonic + subcode mnemonic * twoTo 11), .reloc address]

def longLoad (rd : Reg) : CodeWord := .plain (opcode "ldl" + atBit rd 9)

def branchWord (cond : BranchCond) (ra rb : Reg) (offset : Int) : Except InternalFault CodeWord := do
  let f ← field offset 5
  return .plain (opcode cond.mnemonic + subcode cond.mnemonic * twoTo 9 + atBit ra 7 + atBit rb 5 + f)

def branchZeroWord (nonzero : Bool) (ra : Reg) (offset : Int) : Except InternalFault CodeWord := do
  let mnemonic := if nonzero then "bnz" else "bz"
  let f ← field offset 8
  return .plain (opcode mnemonic + atBit ra 9 + subcode mnemonic * twoTo 8 + f)

def dispWord (mnemonic : String) (r base : Reg) (disp : Disp) : Except InternalFault CodeWord := do
  let some v := disp.value | throw .unresolvedDisplacement
  let f ← field v 6
  return .plain (opcode mnemonic + atBit r 9 + atBit base 6 + f)

end Encode

open Encode in
def Instr.encode (labels : Label → Option Nat) (address : Nat) :
    Instr → Except InternalFault (List CodeWord)
  | .label .. => .ok []
  | .alu op rd ra rb =>
    .ok [.plain (opcode op.mnemonic + atBit rd 9 + atBit ra 6 + atBit rb 3 + subcode op.mnemonic)]
  | .unary op rd ra =>
    .ok [.plain (opcode op.mnemonic + atBit rd 9 + atBit ra 6 + subcode op.mnemonic)]
  | .callReg ra => .ok [.plain (opcode "callr" + atBit ra 6 + subcode "callr")]
  | .jumpReg ra _ => .ok [.plain (opcode "jr" + atBit ra 6 + subcode "jr")]
  | .ret _ => .ok [.plain (opcode "ret" + subcode "ret")]
  | .addImm rd ra imm => return [← dispWord "addi" rd ra imm]
  | .load rd base disp => return [← dispWord "ld" rd base disp]
  | .store rs base disp => return [← dispWord "st" rs base disp]
  | .loadImm rd value =>
    if fitsSigned value 8 then
      return [.plain (opcode "ldi" + atBit rd 9 + subcode "ldi" * twoTo 8 + (← field value 8))]
    else return [longLoad rd, .plain (value % twoTo 16).toNat]
  | .loadSymbol rd _ offset => return [longLoad rd, .reloc offset]
  | .loadLabel rd l short =>
    if short then
      return [.plain (opcode "lea" + atBit rd 9 + subcode "lea" * twoTo 8 + (← field (← distance l) 8))]
    else return [longLoad rd, .reloc (← target l)]
  | .branch cond ra rb l short =>
    if ra.number > 3 || rb.number > 3 then throw .compareOperand
    else if short then return [← branchWord cond ra rb (← distance l)]
    else return (← branchWord cond.negate ra rb 2) :: jumpWords "jmp" (← target l)
  | .branchZero nonzero ra l short =>
    if short then return [← branchZeroWord nonzero ra (← distance l)]
    else return (← branchZeroWord (!nonzero) ra 2) :: jumpWords "jmp" (← target l)
  | .jump l short =>
    if short then return [.plain (opcode "br" + (← field (← distance l) 12))]
    else return jumpWords "jmp" (← target l)
  | .jumpSymbol _ => return jumpWords "jmp" 0
  | .call _ => return jumpWords "call" 0
where
  target (l : Label) : Except InternalFault Int :=
    match labels l with
    | some a => .ok a
    | none => .error (.undefinedLabel l.text)
  /-- From the word behind a short form to a label. -/
  distance (l : Label) : Except InternalFault Int := return wrap32 ((← target l) - (address + 1))

namespace Code

def addressed (base : Nat) : Code → List (Nat × Item Instr)
  | [] => []
  | i :: rest => (base, i) :: addressed (addWords base i.value.size) rest

def labelAddresses (code : Code) (base : Nat) : List (Label × Nat) :=
  ((code.addressed base).filterMap fun (a, i) ↦ i.value.definedLabel.map (·, a)).reverse

def encode (code : Code) (base : Nat) : Except InternalFault (List (Nat × List CodeWord)) :=
  let labels := code.labelAddresses base
  (code.addressed base).mapM fun (a, i) ↦ do return (a, ← i.value.encode (labels.lookup ·) a)

end Code

end W16Compiler
