import W16Compiler.Fault.Internal
import W16Compiler.Machine.Basic

/-!
# Instruction selection

Every node of a flow list is selected by itself: its operands are loaded into the first registers,
the operation runs, and the result is stored. Addresses of destinations go through `r5`, targets of
indirect calls through `r4`; `r6` is left to the frame layout. Multiplication, division and whatever
is wider than a word are calls of helpers.
-/

namespace W16Compiler.Select

/-- The global that points to the innermost exception record. -/
def tryMark : String := "__trymark"

def inlineBlockWords : Nat := 4

abbrev SelectM := StateT (Array Slot) (Except InternalFault)

abbrev Instrs := List Instr

def immWord (op : Operand) (rep : Rep) (i : Nat) : Option Int :=
  let word (bits : Int) : Int := Int.bmod (bits / twoTo (16 * i)) (twoTo 16)
  match op with
  | .imm value => some (word (value % twoTo 64))
  | .float x => some (word (if rep = .float then x.singleBits else x.bits.toNat))
  | _ => none

def helperSuffix : Rep → String
  | .long signed => if signed then "l" else "ul"
  | .float => "f"
  | .double => "d"
  | .byte signed | .word signed => if signed then "i" else "u"
  | .block _ => "b"

def helperOp : BinaryOp → Except InternalFault String
  | .add => .ok "add"
  | .sub => .ok "sub"
  | .mul => .ok "mul"
  | .div => .ok "div"
  | .mod => .ok "mod"
  | .and => .ok "and"
  | .or => .ok "or"
  | .xor => .ok "xor"
  | .shl => .ok "shl"
  | .shr => .ok "shr"
  | op => .error (.comparisonSelected op.spelling)

/-- The condition of a branch on `lhs cond rhs`, and whether the operands change places. -/
def branchCond (cond : Cond) (signed : Bool) : BranchCond × Bool :=
  let less : BranchCond := if signed then .lt else .ltu
  let notLess : BranchCond := if signed then .ge else .geu
  match cond with
  | .eq => (.eq, false)
  | .ne => (.ne, false)
  | .lt => (less, false)
  | .ge => (notLess, false)
  | .gt => (less, true)
  | .le => (notLess, true)

/-! ## Operands -/

def addressOfBase (base : AddressBase) (offset : Int) (reg : Reg) : Instr :=
  match base with
  | .slot s => .addImm reg .sp (.slot s offset)
  | .param => .addImm reg .sp (.param offset)
  | .global label => .loadSymbol reg label offset

mutual

/-- Instructions after which a place is at a displacement from a base register; `scratch` holds the
base if it has to be computed. -/
def placeAccess (place : Place) (scratch : Reg) : Except InternalFault (Instrs × Reg × Disp) :=
  match place with
  | .slot s offset => .ok ([], .sp, .slot s offset)
  | .param offset => .ok ([], .sp, .param offset)
  | .arg word => .ok ([], .sp, .num (wrap32 word))
  | .global label offset => .ok ([.loadSymbol scratch label offset], scratch, .num 0)
  | .indirect pointer offset => do
    return (← loadWord pointer (.word false) 0 scratch, scratch, .num offset)

def loadWord (op : Operand) (rep : Rep) (i : Nat) (reg : Reg) : Except InternalFault Instrs :=
  match op with
  | .imm _ | .float _ => .ok [.loadImm reg ((immWord op rep i).getD 0)]
  | .address base offset =>
    if i = 0 then .ok [addressOfBase base offset reg] else .error .multiWordAddress
  | .load place => do
    let (code, base, disp) ← placeAccess place reg
    return code ++ [.load reg base (disp.plus i)]

end

def addressOfPlace (place : Place) (reg : Reg) : Except InternalFault Instrs :=
  match place with
  | .slot s offset => .ok [addressOfBase (.slot s) offset reg]
  | .param offset => .ok [addressOfBase .param offset reg]
  | .global label offset => .ok [addressOfBase (.global label) offset reg]
  | .arg word => .ok [.addImm reg .sp (.num (wrap32 word))]
  | .indirect pointer offset => do
    let code ← loadWord pointer (.word false) 0 reg
    return if offset = 0 then code else code ++ [.addImm reg reg (.num offset)]

def newSlot (words : Nat) : SelectM SlotId :=
  modifyGet fun slots ↦ (⟨slots.size⟩, slots.push (.sized words true))

/-- Loads the address of an operand's value; a value that is nowhere in memory goes to a new slot. -/
def operandAddress (op : Operand) (rep : Rep) (reg : Reg) : SelectM Instrs := do
  match op with
  | .load place => addressOfPlace place reg
  | .imm _ | .float _ =>
    let slot ← newSlot rep.words
    let stores ← (List.range rep.words).mapM fun i ↦ do
      return (← loadWord op rep i reg) ++ [Instr.store reg .sp (.slot slot i)]
    return stores.flatten ++ [addressOfBase (.slot slot) 0 reg]
  | .address .. =>
    let slot ← newSlot 1
    let code ← loadWord op rep 0 reg
    return code ++ [.store reg .sp (.slot slot 0), addressOfBase (.slot slot) 0 reg]

def storeWord (place : Place) (rs : Reg) (i : Nat) : Except InternalFault Instrs := do
  let (code, base, disp) ← placeAccess place .r5
  return code ++ [.store rs base (disp.plus i)]

/-- Extends the low eight bits of a register again if it holds a byte. -/
def normalize (rep : Rep) (reg : Reg) : Instrs :=
  match rep with
  | .byte signed => [.unary (if signed then .sxb else .zxb) reg reg]
  | _ => []

/-! ## Nodes -/

def selectCompare (cond : Cond) (rep : Rep) (lhs rhs : Operand) (target : Label) : SelectM Instrs := do
  let code ←
    if rep.isWord then do
      pure ((← loadWord lhs rep 0 .r0) ++ (← loadWord rhs rep 0 .r1))
    else if rep.isBlock then throw .blockComparison
    else do
      let left ← operandAddress lhs rep .r0
      let right ← operandAddress rhs rep .r1
      pure (left ++ right ++ [Instr.call ("__cmp_" ++ helperSuffix rep), .loadImm .r1 0])
  let (c, swapped) := branchCond cond (rep.isSigned || !rep.isWord)
  let (ra, rb) := if swapped then (Reg.r1, Reg.r0) else (Reg.r0, Reg.r1)
  return code ++ [.branch c ra rb target false]

def selectTest (nonzero : Bool) (rep : Rep) (value : Operand) (target : Label) :
    Except InternalFault Instrs := do
  let first ← loadWord value rep 0 .r0
  let others ← (List.range (rep.words - 1)).mapM fun k ↦ do
    let code ← loadWord value rep (k + 1) .r1
    let unsigned : Instrs :=
      if rep.isFloat && k + 2 == rep.words then [.loadImm .r2 0x7fff, .alu .and .r1 .r1 .r2] else []
    return code ++ unsigned ++ [Instr.alu .or .r0 .r0 .r1]
  return first ++ others.flatten ++ [.branchZero nonzero .r0 target false]

def selectCall (target : CallTarget) (words : Nat) (result : Option (Place × Rep)) :
    Except InternalFault Instrs := do
  let call ← match target with
    | .direct symbol => pure [Instr.call symbol]
    | .indirect pointer => do pure ((← loadWord pointer (.word false) 0 .r4) ++ [Instr.callReg .r4])
  let release : Instrs := if words > 0 then [.addImm .sp .sp (.num (wrap32 words))] else []
  let store ← match result with
    | none => pure []
    | some (dst, rep) =>
      match rep.words with
      | 1 => storeWord dst .r0 0
      | 2 => do pure ((← storeWord dst .r0 0) ++ (← storeWord dst .r1 1))
      | n => throw (.resultWords n)
  return call ++ release ++ store

def selectAssign (rep : Rep) (dst : Place) (src : Operand) : Except InternalFault Instrs := do
  match rep with
  | .block n =>
    let clear := src = .imm 0
    if n ≤ inlineBlockWords then
      let start ← if clear then pure [Instr.loadImm .r0 0] else loadWord src (.word false) 0 .r1
      let words ← (List.range n).mapM fun (i : Nat) ↦ do
        let fetch : Instrs := if clear then [] else [.load .r0 .r1 (.num i)]
        return fetch ++ (← storeWord dst .r0 i)
      return start ++ words.flatten
    else
      let address ← addressOfPlace dst .r0
      if clear then return address ++ [.loadImm .r1 (wrap32 n), .call "__blkclr"]
      else
        let source ← loadWord src (.word false) 0 .r1
        return address ++ source ++ [.loadImm .r2 (wrap32 n), .call "__blkcpy"]
  | _ =>
    let words ← (List.range rep.words).mapM fun i ↦ do
      return (← loadWord src rep i .r0) ++ (← storeWord dst .r0 i)
    return words.flatten

def selectCast (dst : Place) (rep : Rep) (src : Operand) (srcRep : Rep) : SelectM Instrs := do
  if rep.isFloat || srcRep.isFloat then
    let address ← addressOfPlace dst .r0
    let source ← operandAddress src srcRep .r1
    let call := Instr.call ("__cvt_" ++ helperSuffix srcRep ++ "_" ++ helperSuffix rep)
    let fix ← match rep with
      | .byte _ => do
        let (code, base, disp) ← placeAccess dst .r5
        pure (code ++ [Instr.load .r0 base disp] ++ normalize rep .r0 ++ (← storeWord dst .r0 0))
      | _ => pure []
    return address ++ source ++ [call] ++ fix
  else
    match srcRep.words, rep.words with
    | 1, 1 | 2, 1 =>
      return (← loadWord src srcRep 0 .r0) ++ normalize rep .r0 ++ (← storeWord dst .r0 0)
    | 1, 2 =>
      let high : Instrs :=
        if srcRep.isSigned then [.loadImm .r1 15, .alu .sar .r1 .r0 .r1] else [.loadImm .r1 0]
      return (← loadWord src srcRep 0 .r0) ++ high ++ (← storeWord dst .r0 0) ++ (← storeWord dst .r1 1)
    | _, _ => selectAssign rep dst src

def selectUnary (op : PrimUnary) (rep : Rep) (dst : Place) (src : Operand) : SelectM Instrs := do
  if rep.isWord then
    let instr : UnaryInstr := match op with
      | .neg => .neg
      | .not => .not
    return (← loadWord src rep 0 .r0) ++ [.unary instr .r0 .r0] ++ normalize rep .r0 ++
      (← storeWord dst .r0 0)
  else
    let address ← addressOfPlace dst .r0
    let source ← operandAddress src rep .r1
    let name := match op with
      | .neg => "__neg_"
      | .not => "__not_"
    return address ++ source ++ [.call (name ++ helperSuffix rep)]

def aluOp? (op : BinaryOp) (signed : Bool) : Option AluOp :=
  match op with
  | .add => some .add
  | .sub => some .sub
  | .and => some .and
  | .or => some .or
  | .xor => some .xor
  | .shl => some .shl
  | .shr => some (if signed then .sar else .shr)
  | _ => none

def wordHelper (op : BinaryOp) (signed : Bool) : Except InternalFault String :=
  match op with
  | .mul => .ok "__mul"
  | .div => .ok (if signed then "__div" else "__divu")
  | .mod => .ok (if signed then "__mod" else "__modu")
  | op => .error (.comparisonSelected op.spelling)

def selectBinary (op : BinaryOp) (rep : Rep) (dst : Place) (lhs rhs : Operand) : SelectM Instrs := do
  if rep.isWord then
    let left ← loadWord lhs rep 0 .r0
    let right ← loadWord rhs rep 0 .r1
    let compute ← match aluOp? op rep.isSigned with
      | some alu => pure (Instr.alu alu .r0 .r0 .r1)
      | none => do pure (Instr.call (← wordHelper op rep.isSigned))
    return left ++ right ++ [compute] ++ normalize rep .r0 ++ (← storeWord dst .r0 0)
  else
    let rhsRep : Rep := if op = .shl || op = .shr then .word true else rep
    let address ← addressOfPlace dst .r0
    let left ← operandAddress lhs rep .r1
    let right ← operandAddress rhs rhsRep .r2
    return address ++ left ++ right ++ [.call ("__" ++ (← helperOp op) ++ "_" ++ helperSuffix rep)]

def selectReturn (value : Option (Operand × Rep)) : Except InternalFault Instrs := do
  let load ← match value with
    | none => pure []
    | some (op, rep) =>
      match rep.words with
      | 1 => loadWord op rep 0 .r0
      | 2 => do pure ((← loadWord op rep 0 .r0) ++ (← loadWord op rep 1 .r1))
      | n => throw (.returnedWords n)
  let wide := (value.map fun v ↦ v.2.words == 2).getD false
  return load ++ [.addImm .sp .sp (.frame 1), .ret wide]

/-- Takes the innermost record off the chain, restores its stack pointer and goes to its handler
with the value in `r0`. -/
def selectThrow (value : Operand) : Except InternalFault Instrs := do
  return (← loadWord value (.word true) 0 .r0) ++
    [.loadSymbol .r1 tryMark 0, .load .r1 .r1 (.num 0), .load .r2 .r1 (.num 0),
      .loadSymbol .r3 tryMark 0, .store .r2 .r3 (.num 0), .load .sp .r1 (.num 2),
      .load .r1 .r1 (.num 1), .jumpReg .r1 []]

/-- Puts a record of the previous one, the handler and the stack pointer on the chain. -/
def selectTryBegin (record : SlotId) (handler : Label) : Instrs :=
  [.loadSymbol .r1 tryMark 0, .load .r0 .r1 (.num 0), .addImm .r2 .sp (.slot record 0),
    .store .r0 .r2 (.num 0), .loadLabel .r3 handler false, .store .r3 .r2 (.num 1),
    .store .sp .r2 (.num 2), .store .r2 .r1 (.num 0)]

def selectTryEnd (record : SlotId) : Instrs :=
  [.load .r0 .sp (.slot record 0), .loadSymbol .r1 tryMark 0, .store .r0 .r1 (.num 0)]

def selectPrim : Prim → SelectM Instrs
  | .entry => return [.addImm .sp .sp (.frame (-1))]
  | .label l | .cleanupEntry l _ => return [.label l .empty]
  | .jump l => return [.jump l false]
  | .compare cond rep lhs rhs target => selectCompare cond rep lhs rhs target
  | .test nonzero rep value target => selectTest nonzero rep value target
  | .callStart n => return if n > 0 then [.addImm .sp .sp (.num (wrap32 (-n)))] else []
  | .call target words result => selectCall target words result
  | .cast dst rep src srcRep => selectCast dst rep src srcRep
  | .unary op rep dst src => selectUnary op rep dst src
  | .binary op rep dst lhs rhs => selectBinary op rep dst lhs rhs
  | .assign rep dst src => selectAssign rep dst src
  | .ret value => selectReturn value
  | .throwValue value => selectThrow value
  | .tryBegin record handler => return selectTryBegin record handler
  | .tryEnd record => return selectTryEnd record
  | .cleanupCall start link resume =>
    return [.loadLabel .r0 resume false, .store .r0 .sp (.slot link 0), .jump start false]
  | .cleanupReturn link resumes => return [.load .r0 .sp (.slot link 0), .jumpReg .r0 resumes]
  | .catchEntry l dst => do
    let store ← match dst with
      | some d => storeWord d .r0 0
      | none => pure []
    return Instr.label l (.ofList [.r0]) :: store

def selectItem (p : Item Prim) : SelectM Code := do
  return (← selectPrim p.value).map (⟨·, p.loc⟩)

end W16Compiler.Select

namespace W16Compiler

def PrimFunction.select (f : PrimFunction) : Except InternalFault MachineFunction := do
  let (code, slots) ← (f.prims.mapM Select.selectItem).run f.slots
  return { label := f.label, exported := f.exported, loc := f.loc, code := code.flatten, slots }

end W16Compiler
