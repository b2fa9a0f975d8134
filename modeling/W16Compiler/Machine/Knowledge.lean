import W16Compiler.Machine.Frame

/-!
# Knowledge about registers

A walk through the code keeps what is known about the contents of each general register, and
replaces instructions that the knowledge makes cheaper: operations on constants become loads of
constants, constant operands of additions become immediate, accesses through a register at a known
distance from the stack pointer go through the stack pointer, and loads and extensions that change
nothing go away. At a label and after a call nothing is known.
-/

namespace W16Compiler

/-- What is known about a register. -/
inductive RegValue where
  | unknown
  /-- A number of sixteen bits with its sign. -/
  | const (value : Int)
  /-- So many words above the stack pointer. -/
  | stack (offset : Int)
  | signedByte
  | unsignedByte
  deriving DecidableEq

/-- The general registers with what is known about them; the others are unknown. -/
structure Knowledge where
  known : Reg → RegValue

namespace Knowledge

def nothing : Knowledge := ⟨fun _ ↦ .unknown⟩

def get (k : Knowledge) (r : Reg) : RegValue := if r = .sp then .stack 0 else k.known r

def stackLost (k : Knowledge) : Knowledge :=
  ⟨fun r ↦ match k.known r with
    | .stack _ => .unknown
    | v => v⟩

def stackMoved (k : Knowledge) (by_ : Int) : Knowledge :=
  ⟨fun r ↦ match k.known r with
    | .stack offset => .stack (wrap32 (offset - by_))
    | v => v⟩

def set (k : Knowledge) (r : Reg) (v : RegValue) : Knowledge :=
  if r = .sp then k.stackLost else ⟨fun q ↦ if q = r then v else k.known q⟩

def constant (k : Knowledge) (r : Reg) : Option Int :=
  match k.get r with
  | .const c => some c
  | _ => none

def aluValue (op : AluOp) : RegValue → RegValue → RegValue
  | .const a, .const b => .const (op.eval a b)
  | .stack o, .const c =>
    match op with
    | .add => .stack (wrap32 (o + c))
    | .sub => .stack (wrap32 (o - c))
    | _ => .unknown
  | _, _ => .unknown

def unaryValue (op : UnaryInstr) : RegValue → RegValue
  | .const c => .const (op.eval c)
  | v => match op with
    | .mov => v
    | .sxb => .signedByte
    | .zxb => .unsignedByte
    | _ => .unknown

def step (k : Knowledge) : Instr → Knowledge
  | .label .. | .call _ | .callReg _ | .jump .. | .jumpSymbol _ | .jumpReg .. | .ret _ => nothing
  | .alu op rd ra rb =>
    if rd = .sp then
      match op, ra, k.constant rb with
      | .add, .sp, some c => k.stackMoved c
      | _, _, _ => k.stackLost
    else k.set rd (aluValue op (k.get ra) (k.get rb))
  | .unary op rd ra => k.set rd (unaryValue op (k.get ra))
  | .addImm rd ra imm =>
    if rd = .sp then
      match ra, imm.value with
      | .sp, some v => k.stackMoved v
      | _, _ => k.stackLost
    else
      match k.get ra, imm.value with
      | .const c, some v => k.set rd (.const (AluOp.add.eval c v))
      | .stack o, some v => k.set rd (.stack (wrap32 (o + v)))
      | _, _ => k.set rd .unknown
  | .loadImm rd value => k.set rd (.const (UnaryInstr.mov.eval value))
  | .loadSymbol rd .. | .loadLabel rd .. | .load rd .. => k.set rd .unknown
  | .store .. | .branch .. | .branchZero .. => k

/-- The displacement from the stack pointer of an access through another register. -/
def stackRelative (k : Knowledge) (base : Reg) (d : Int) : Option Disp :=
  if base = .sp then none
  else match k.get base with
    | .stack o =>
      let d := wrap32 (o + d)
      if fitsSigned d Frame.dispBits then some (.num d) else none
    | _ => none

inductive Simplified where
  | keep
  | drop
  | replace (i : Instr)
  deriving DecidableEq

def simplifyAlu (k : Knowledge) (op : AluOp) (rd ra rb : Reg) : Simplified :=
  let immediate (v : Int) : Simplified :=
    if fitsSigned v Frame.dispBits then .replace (.addImm rd ra (.num v)) else .keep
  match k.constant ra, k.constant rb with
  | some a, some b => .replace (.loadImm rd (op.eval a b))
  | none, some c =>
    match op with
    | .add => immediate c
    | .sub => immediate (-c)
    | _ => .keep
  | _, none => .keep

def simplifyUnary (k : Knowledge) (op : UnaryInstr) (rd ra : Reg) : Simplified :=
  let moved : Simplified := if rd = ra then .drop else .replace (.unary .mov rd ra)
  match op, k.get ra with
  | _, .const c => .replace (.loadImm rd (op.eval c))
  | .sxb, .signedByte => moved
  | .zxb, .unsignedByte => moved
  | _, _ => .keep

def simplify (k : Knowledge) : Instr → Simplified
  | .alu op rd ra rb => if rd = .sp then .keep else k.simplifyAlu op rd ra rb
  | .unary op rd ra => if rd = .sp then .keep else k.simplifyUnary op rd ra
  | .addImm rd ra (.num v) =>
    if rd = .sp then .keep
    else match k.constant ra with
      | some c => .replace (.loadImm rd (AluOp.add.eval c v))
      | none => .keep
  | .loadImm rd value =>
    if k.constant rd = some (UnaryInstr.mov.eval value) then .drop else .keep
  | .load rd base (.num d) =>
    match k.stackRelative base d with
    | some disp => .replace (.load rd .sp disp)
    | none => .keep
  | .store rs base (.num d) =>
    match k.stackRelative base d with
    | some disp => .replace (.store rs .sp disp)
    | none => .keep
  | _ => .keep

def walk (k : Knowledge) : Code → Code
  | [] => []
  | i :: rest =>
    match k.simplify i.value with
    | .drop => walk k rest
    | .keep => i :: walk (k.step i.value) rest
    | .replace instr => { i with value := instr } :: walk (k.step instr) rest

end Knowledge

def Code.simplify (code : Code) : Code := Knowledge.nothing.walk code

end W16Compiler
