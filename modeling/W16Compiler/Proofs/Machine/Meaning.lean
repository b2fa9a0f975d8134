import W16Compiler.Machine.Basic
import W16Compiler.Proofs.Behaviour
import W16Compiler.Proofs.Seek
import Mathlib.Logic.Function.Basic

/-!
# The meaning of machine code

Registers and memory hold words that wrap around. Stores and calls are observed. A call shows its
target, the registers of its arguments, the stack pointer and memory; what it leaves behind is the
answer to all that has been observed. Labels stand at fixed addresses, and a jump through a register
goes to the label at the address that the register holds. Displacements that are not resolved have
whatever meaning the surroundings give them.
-/

namespace W16Compiler

open Function

structure MachineState where
  regs : Reg → Word
  mem : Word → Word

namespace MachineState

def sp (st : MachineState) : Word := st.regs .sp

def set (st : MachineState) (r : Reg) (v : Word) : MachineState :=
  { st with regs := Function.update st.regs r v }

variable (st : MachineState)

@[simp] lemma set_mem (r : Reg) (v : Word) : (st.set r v).mem = st.mem := rfl

@[simp] lemma set_regs_self (r : Reg) (v : Word) : (st.set r v).regs r = v := update_self _ _ _

variable {r : Reg}

@[simp] lemma set_regs_of_ne (v : Word) (h : q ≠ r) : (st.set r v).regs q = st.regs q := update_of_ne h _ _

@[simp] lemma set_sp_of_ne (v : Word) (h : r ≠ .sp) : (st.set r v).sp = st.sp := set_regs_of_ne st v h.symm

@[simp] lemma set_sp_self (v : Word) : (st.set .sp v).sp = v := set_regs_self st .sp v

@[simp] lemma set_set (r : Reg) (v w : Word) : (st.set r v).set r w = st.set r w := by
  simp [set]

lemma set_eq_self {st : MachineState} (h : v = st.regs r) : st.set r v = st := by
  rw [h, set, update_eq_self]

end MachineState

/-- What is seen of a run from outside. -/
inductive MachineEvent where
  | stored (address value : Word)
  | called (target : String ⊕ Word) (r0 r1 r2 sp : Word) (mem : Word → Word)

inductive CallExit where
  | returns
  /-- To a label where an exception is caught, with another stack pointer. -/
  | caught (l : Label) (sp : Word)
  | unwinds

structure Reply where
  regs : Reg → Word
  mem : Word → Word
  exit : CallExit

/-- How a function ends. -/
inductive MachineOutcome where
  | returned (sp r0 : Word) (r1 : Option Word) (mem : Word → Word)
  | left (symbol : String) (regs : Reg → Word) (mem : Word → Word)
  /-- A jump to an address outside of the function. -/
  | thrown (target r0 sp : Word) (mem : Word → Word)
  /-- An exception of a call that the function does not catch. -/
  | unwound (mem : Word → Word)
  /-- A jump through a register to a label that it may not enter. -/
  | stray
  /-- Control left the code in no defined way. -/
  | wild

/-- Where labels and symbols stand, what displacements mean that are not resolved, given the stack
pointer, and how calls are answered. -/
structure Surroundings where
  label : Label → Word
  labelAt : Word → Option Label
  symbol : String → Word
  symbolic : Word → Disp → Word
  answer : List MachineEvent → Reply

def Surroundings.displacement (E : Surroundings) (sp : Word) : Disp → Word
  | .num v => .ofInt 16 v
  | d => E.symbolic sp d

def MachineState.address (E : Surroundings) (st : MachineState) (base : Reg) (d : Disp) : Word :=
  st.regs base + E.displacement st.sp d

/-- Where control goes after an instruction. -/
inductive MachineMove where
  | next (st : MachineState)
  | goto (l : Label) (st : MachineState)
  | finish (o : MachineOutcome)

/-- What an instruction computes, if it computes a register. -/
def Instr.value (E : Surroundings) (st : MachineState) : Instr → Word
  | .alu op _ ra rb => op.apply (st.regs ra) (st.regs rb)
  | .unary op _ ra => op.apply (st.regs ra)
  | .addImm _ ra imm => st.address E ra imm
  | .loadImm _ value => .ofInt 16 value
  | .loadSymbol _ symbol offset => E.symbol symbol + .ofInt 16 offset
  | .loadLabel _ l _ => E.label l
  | .load _ base d => st.mem (st.address E base d)
  | _ => 0

def MachineState.callEvent (st : MachineState) (target : String ⊕ Word) : MachineEvent :=
  .called target (st.regs .r0) (st.regs .r1) (st.regs .r2) st.sp st.mem

/-- The state that a call leaves, with the stack pointer as given. -/
def Reply.state (reply : Reply) (sp : Word) : MachineState :=
  ⟨Function.update reply.regs .sp sp, reply.mem⟩

def MachineState.afterCall (st : MachineState) (reply : Reply) : MachineMove :=
  match reply.exit with
  | .returns => .next (reply.state st.sp)
  | .caught l sp => .goto l (reply.state sp)
  | .unwinds => .finish (.unwound reply.mem)

namespace Reply

@[simp] lemma state_mem (reply : Reply) (sp : Word) : (reply.state sp).mem = reply.mem := rfl

@[simp] lemma state_sp (reply : Reply) (sp : Word) : (reply.state sp).sp = sp := by
  simp [state, MachineState.sp]

@[simp] lemma state_regs_of_ne (reply : Reply) (sp : Word) {r : Reg} (h : r ≠ .sp) :
    (reply.state sp).regs r = reply.regs r :=
  update_of_ne h _ _

end Reply

/-- What is observed of an instruction and where control goes. A jump through a register may enter
labels that it does not list only if `entry` allows it. -/
def Instr.act (E : Surroundings) (entry : Label → Bool) (past : List MachineEvent)
    (st : MachineState) : Instr → Option MachineEvent × MachineMove
  | .label .. => (none, .next st)
  | i@(.alu _ rd ..) | i@(.unary _ rd _) | i@(.addImm rd ..) | i@(.loadImm rd _)
  | i@(.loadSymbol rd ..) | i@(.loadLabel rd ..) | i@(.load rd ..) =>
    (none, .next (st.set rd (i.value E st)))
  | .store rs base d =>
    let a := st.address E base d
    (some (.stored a (st.regs rs)), .next { st with mem := Function.update st.mem a (st.regs rs) })
  | .branch cond ra rb target _ =>
    (none, if cond.holds (st.regs ra) (st.regs rb) then .goto target st else .next st)
  | .branchZero nonzero ra target _ =>
    (none, if (st.regs ra != 0) = nonzero then .goto target st else .next st)
  | .jump target _ => (none, .goto target st)
  | .jumpSymbol symbol => (none, .finish (.left symbol st.regs st.mem))
  | .call symbol =>
    let event := st.callEvent (.inl symbol)
    (some event, st.afterCall (E.answer (event :: past)))
  | .callReg ra =>
    let event := st.callEvent (.inr (st.regs ra))
    (some event, st.afterCall (E.answer (event :: past)))
  | .jumpReg ra targets =>
    (none, match E.labelAt (st.regs ra) with
      | some l => if targets.contains l || entry l then .goto l st else .finish .stray
      | none => .finish (.thrown (st.regs ra) (st.regs .r0) st.sp st.mem))
  | .ret wide =>
    let r1 := if wide then some (st.regs .r1) else none
    (none, .finish (.returned st.sp (st.regs .r0) r1 st.mem))

namespace Code

def seek (l : Label) (code : Code) : Option Code := seekLabel (·.value.definedLabel) l code

/-- Where control goes on. -/
def follow (code rest : Code) : MachineMove → Status (Code × MachineState) MachineOutcome
  | .next st => .running (rest, st)
  | .goto l st =>
    match code.seek l with
    | some found => .running (found, st)
    | none => .ended .wild
  | .finish o => .ended o

/-- The steps of machine code. A state holds the instructions that are still ahead. -/
def process (E : Surroundings) (entry : Label → Bool) (code : Code) :
    Process (Code × MachineState) MachineEvent MachineOutcome := fun past state ↦
  match state.1 with
  | [] => ⟨none, .ended .wild⟩
  | i :: rest =>
    let (event, move) := i.value.act E entry past state.2
    ⟨event, code.follow rest move⟩

lemma seek_cons (l : Label) (i : Item Instr) (rest : Code) :
    seek l (i :: rest) = (seek l rest).or (if i.value.definedLabel = some l then some (i :: rest) else none) :=
  seekLabel_cons i rest

lemma seek_suffix {code found : Code} (h : code.seek l = some found) : found <:+ code :=
  seekLabel_suffix h

lemma seek_head {code found : Code} (h : code.seek l = some found) :
    ∃ i liveIn rest, found = i :: rest ∧ i.value = .label l liveIn := by
  obtain ⟨i, rest, rfl, hi⟩ := seekLabel_head h
  cases hv : i.value with
  | label m liveIn =>
    rw [hv] at hi
    cases hi
    exact ⟨i, liveIn, rest, rfl, hv⟩
  | _ =>
    rw [hv] at hi
    cases hi

end Code

variable {i : Instr} {rd : Reg} (h : i.result = some rd)

include h

lemma Instr.act_of_result (E : Surroundings) (entry : Label → Bool) (past : List MachineEvent) (st : MachineState) :
    i.act E entry past st = (none, .next (st.set rd (i.value E st))) := by
  cases i <;> first | (cases h; done) | (cases h; rfl)

lemma Instr.definedLabel_of_result : i.definedLabel = none := by
  cases i <;> first | rfl | cases h

lemma Instr.fallsThrough_of_result : i.fallsThrough := by
  cases i <;> first | rfl | cases h

lemma Instr.successors_of_result : i.successors = [] := by
  cases i <;> first | rfl | cases h

end W16Compiler
