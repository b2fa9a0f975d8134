import W16Compiler.Prim.Basic

/-!
# Machine instructions

The machine has words of sixteen bits, seven general registers and a stack pointer. Accesses to the
frame stay symbolic until the frame is laid out; after that every displacement is a number relative
to the stack pointer.
-/

namespace W16Compiler

abbrev Word := BitVec 16

inductive Reg where
  /-- The first argument and result. -/
  | r0
  /-- The second word of a result. -/
  | r1
  | r2
  | r3
  /-- The target of an indirect call. -/
  | r4
  | r5
  /-- Left to the frame layout. -/
  | r6
  | sp
  deriving DecidableEq, Repr

namespace Reg

def all : List Reg := [r0, r1, r2, r3, r4, r5, r6, sp]

def number : Reg → Nat
  | r0 => 0
  | r1 => 1
  | r2 => 2
  | r3 => 3
  | r4 => 4
  | r5 => 5
  | r6 => 6
  | sp => 7

def name : Reg → String
  | r0 => "r0"
  | r1 => "r1"
  | r2 => "r2"
  | r3 => "r3"
  | r4 => "r4"
  | r5 => "r5"
  | r6 => "r6"
  | sp => "sp"

end Reg

structure RegSet where
  mask : BitVec 8
  deriving DecidableEq

namespace RegSet

def empty : RegSet := ⟨0⟩

def callerSaved : RegSet := ⟨0x7f⟩

def insert (s : RegSet) (r : Reg) : RegSet := ⟨s.mask ||| (1 <<< r.number)⟩

def ofList (rs : List Reg) : RegSet := rs.foldl insert empty

def contains (s : RegSet) (r : Reg) : Bool := s.mask.getLsbD r.number

def union (s t : RegSet) : RegSet := ⟨s.mask ||| t.mask⟩

def minus (s t : RegSet) : RegSet := ⟨s.mask &&& ~~~t.mask⟩

def intersects (s t : RegSet) : Bool := s.mask &&& t.mask != 0

def toList (s : RegSet) : List Reg := Reg.all.filter s.contains

end RegSet

/-- The displacement of a load, a store or an addition. -/
inductive Disp where
  | num (value : Int)
  | slot (s : SlotId) (offset : Int)
  | param (offset : Int)
  /-- The frame size so many times. -/
  | frame (factor : Int)
  deriving DecidableEq

namespace Disp

def plus (d : Disp) (words : Int) : Disp :=
  match d with
  | num value => num (wrap32 (value + words))
  | slot s offset => slot s (wrap32 (offset + words))
  | param offset => param (wrap32 (offset + words))
  | frame factor => frame factor

def value : Disp → Option Int
  | num value => some value
  | _ => none

end Disp

inductive AluOp where
  | add | sub | and | or | xor | shl | shr | sar
  deriving DecidableEq

namespace AluOp

def all : List AluOp := [add, sub, and, or, xor, shl, shr, sar]

def mnemonic : AluOp → String
  | add => "add"
  | sub => "sub"
  | and => "and"
  | or => "or"
  | xor => "xor"
  | shl => "shl"
  | shr => "shr"
  | sar => "sar"

/-- Shifts take the low four bits of the count. -/
def apply (op : AluOp) (a b : Word) : Word :=
  let count := (b &&& 0xf).toNat
  match op with
  | add => a + b
  | sub => a - b
  | and => a &&& b
  | or => a ||| b
  | xor => a ^^^ b
  | shl => a <<< count
  | shr => a >>> count
  | sar => a.sshiftRight count

/-- The operation on numbers taken as words; the result is the signed number. -/
def eval (op : AluOp) (a b : Int) : Int := (op.apply (.ofInt 16 a) (.ofInt 16 b)).toInt

end AluOp

inductive UnaryInstr where
  | mov | neg | not
  /-- Extends the low eight bits by their sign. -/
  | sxb
  /-- Extends the low eight bits by zeros. -/
  | zxb
  deriving DecidableEq

namespace UnaryInstr

def all : List UnaryInstr := [mov, neg, not, sxb, zxb]

def mnemonic : UnaryInstr → String
  | mov => "mov"
  | neg => "neg"
  | not => "not"
  | sxb => "sxb"
  | zxb => "zxb"

def apply (op : UnaryInstr) (a : Word) : Word :=
  match op with
  | mov => a
  | neg => -a
  | not => ~~~a
  | sxb => (a.truncate 8).signExtend 16
  | zxb => a &&& 0xff

def eval (op : UnaryInstr) (a : Int) : Int := (op.apply (.ofInt 16 a)).toInt

end UnaryInstr

inductive BranchCond where
  | eq | ne | lt | ge | ltu | geu
  deriving DecidableEq

namespace BranchCond

def all : List BranchCond := [eq, ne, lt, ge, ltu, geu]

def mnemonic : BranchCond → String
  | eq => "beq"
  | ne => "bne"
  | lt => "blt"
  | ge => "bge"
  | ltu => "bltu"
  | geu => "bgeu"

def negate : BranchCond → BranchCond
  | eq => ne
  | ne => eq
  | lt => ge
  | ge => lt
  | ltu => geu
  | geu => ltu

def holds (c : BranchCond) (a b : Word) : Bool :=
  match c with
  | eq => a == b
  | ne => a != b
  | lt => a.slt b
  | ge => b.sle a
  | ltu => a.ult b
  | geu => b.ule a

end BranchCond

/-- An instruction or a local label. `short` says that the short form of the instruction is chosen. -/
inductive Instr where
  /-- `liveIn` are the registers that hold values on entry from elsewhere. -/
  | label (l : Label) (liveIn : RegSet)
  | alu (op : AluOp) (rd ra rb : Reg)
  | unary (op : UnaryInstr) (rd ra : Reg)
  | addImm (rd ra : Reg) (imm : Disp)
  /-- Loads a number of sixteen bits; one of eight bits has a short form. -/
  | loadImm (rd : Reg) (value : Int)
  | loadSymbol (rd : Reg) (symbol : String) (offset : Int)
  | loadLabel (rd : Reg) (l : Label) (short : Bool)
  | load (rd base : Reg) (disp : Disp)
  | store (rs base : Reg) (disp : Disp)
  /-- Only the first four registers can be compared. -/
  | branch (cond : BranchCond) (ra rb : Reg) (target : Label) (short : Bool)
  | branchZero (nonzero : Bool) (ra : Reg) (target : Label) (short : Bool)
  | jump (target : Label) (short : Bool)
  | jumpSymbol (symbol : String)
  | call (symbol : String)
  | callReg (ra : Reg)
  | jumpReg (ra : Reg) (targets : List Label)
  | ret (wide : Bool)
  deriving DecidableEq

namespace Instr

def reads : Instr → RegSet
  | label .. | loadImm .. | loadSymbol .. | loadLabel .. | jump .. => .empty
  | alu _ _ ra rb | branch _ ra rb _ _ => .ofList [ra, rb]
  | unary _ _ ra | addImm _ ra _ | branchZero _ ra _ _ => .ofList [ra]
  | load _ base _ => .ofList [base]
  | store rs base _ => .ofList [rs, base]
  | jumpSymbol _ => .callerSaved
  | call _ => .ofList [.r0, .r1, .r2]
  | callReg ra => .ofList [ra, .r0, .r1, .r2]
  | jumpReg ra _ => .ofList [ra, .r0]
  | ret wide => if wide then .ofList [.r0, .r1] else .ofList [.r0]

/-- The register that an instruction computes, if it does nothing else. -/
def result : Instr → Option Reg
  | alu _ rd _ _ | unary _ rd _ | addImm rd _ _ | loadImm rd _ | loadSymbol rd _ _ | loadLabel rd _ _
  | load rd _ _ => some rd
  | _ => none

def writes : Instr → RegSet
  | label _ liveIn => liveIn
  | call _ | callReg _ => .callerSaved
  | i => .ofList i.result.toList

def isRemovable (i : Instr) : Bool :=
  match i.result with
  | some rd => rd != .sp
  | none => false

def fallsThrough : Instr → Bool
  | jump .. | jumpSymbol _ | jumpReg .. | ret _ => false
  | _ => true

def successors : Instr → List Label
  | branch _ _ _ target _ | branchZero _ _ target _ | jump target _ => [target]
  | jumpReg _ targets => targets
  | _ => []

def labelRefs : Instr → List Label
  | loadLabel _ l _ => [l]
  | i => i.successors

/-- The label whose distance decides between the short and the long form. -/
def relaxTarget : Instr → Option Label
  | branch _ _ _ target _ | branchZero _ _ target _ | jump target _ => some target
  | loadLabel _ l _ => some l
  | _ => none

def isShort : Instr → Bool
  | branch _ _ _ _ short | branchZero _ _ _ short | jump _ short | loadLabel _ _ short => short
  | _ => true

def shorten : Instr → Instr
  | branch cond ra rb target _ => branch cond ra rb target true
  | branchZero nonzero ra target _ => branchZero nonzero ra target true
  | jump target _ => jump target true
  | loadLabel rd l _ => loadLabel rd l true
  | i => i

def size : Instr → Nat
  | label .. => 0
  | loadImm _ value => if fitsSigned value 8 then 1 else 2
  | loadSymbol .. | jumpSymbol _ | call _ => 2
  | loadLabel _ _ short | jump _ short => if short then 1 else 2
  | branch _ _ _ _ short | branchZero _ _ _ short => if short then 1 else 3
  | _ => 1

/-- How many words deeper the stack is behind the instruction. -/
def stackEffect (frame : Nat) : Instr → Int
  | addImm .sp .sp imm =>
    match imm with
    | .num v => wrap32 (-v)
    | .frame k => wrap32 (-k * frame)
    | _ => 0
  | _ => 0

def definedLabel : Instr → Option Label
  | label l _ => some l
  | _ => none

end Instr

abbrev Code := List (Item Instr)

structure MachineFunction where
  label : String
  exported : Bool
  loc : Location
  code : Code := []
  slots : Array Slot := #[]
  /-- The size of the frame, known after layout. -/
  frame : Nat := 0

def Code.size (code : Code) : Nat := total (code.map (·.value.size))

end W16Compiler
