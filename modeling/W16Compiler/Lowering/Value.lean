import W16Compiler.Lowering.State

/-!
# Code for expressions

What an expression means to the code around it, built from what its operands mean. The nodes of
operands are written from left to right.
-/

namespace W16Compiler.Lowering

/-- The nodes for each way of using an expression. -/
structure Lowered where
  type : TypeId
  value : LowerM Operand
  /-- Where the object is. A value that has no place of its own is stored first. -/
  place : LowerM Place
  effect : LowerM Unit
  /-- Goes to the label if the truth of the value is the given one, and on otherwise. -/
  branch : Bool → Label → LowerM Unit

def Lowered.rep (e : Lowered) : LowerM Rep := repOf e.type

def pointerRep : Rep := .word false

def truthRep : Rep := .word true

/-! ## Addresses -/

def placeAt : Operand → Place
  | .address (.slot s) offset => .slot s offset
  | .address .param offset => .param offset
  | .address (.global label) offset => .global label offset
  | pointer => .indirect pointer 0

def addressOf (p : Place) : LowerM Operand := do
  match p.address, p with
  | some a, _ => return a
  | none, .indirect pointer offset =>
    let t ← newTemp pointerRep
    emit (.binary .add pointerRep t pointer (.imm offset))
    return .load t
  | none, _ => fail .addressOfArgument

def contents (rep : Rep) (p : Place) : LowerM Operand :=
  if rep.isBlock then addressOf p else return .load p

def copied (rep : Rep) (v : Operand) : LowerM Place := do
  let t ← newTemp rep
  emit (.assign rep t v)
  return t

def stable : Place → LowerM Place
  | .indirect (.load p) offset => return .indirect (.load (← copied pointerRep (.load p))) offset
  | p => return p

/-! ## Expressions by what they have -/

namespace Lowered

def ofValue (type : TypeId) (value : LowerM Operand) : Lowered where
  type
  value
  place := do
    let rep ← repOf type
    let v ← value
    if rep.isBlock then return placeAt v else copied rep v
  effect := discard value
  branch sense target := do
    let rep ← repOf type
    emit (.test sense rep (← value) target)

def ofPlace (type : TypeId) (place : LowerM Place) : Lowered :=
  { ofValue type (do contents (← repOf type) (← place)) with place }

def ofConstant (type : TypeId) (value : Operand) (truth : Bool) : Lowered :=
  { ofValue type (return value) with
    effect := return
    branch := fun sense target ↦ if truth == sense then jump target else return }

def ofBranch (type : TypeId) (branch : Bool → Label → LowerM Unit) : Lowered :=
  { ofValue type (do
      let t ← newTemp truthRep
      let done ← newLabel
      emit (.assign truthRep t (.imm 1))
      branch true done
      emit (.assign truthRep t (.imm 0))
      mark done
      return .load t) with branch }

def assignTo (e : Lowered) (dst : Place) : LowerM Unit := do
  let rep ← e.rep
  emit (.assign rep dst (← e.value))

end Lowered

/-! ## Comparisons -/

def Operand.isZero : Operand → Bool
  | .imm value => value == 0
  | .float x => x.isZero
  | _ => false

def compareZero (cond : Cond) (rep : Rep) (lhs zero : Operand) (target : Label) : LowerM Unit :=
  match cond, rep.isSigned with
  | .eq, _ | .le, false => emit (.test false rep lhs target)
  | .ne, _ | .gt, false => emit (.test true rep lhs target)
  | .lt, false => return
  | .ge, false => emit (.jump target)
  | _, true => emit (.compare cond rep lhs zero target)

def compare (cond : Cond) (rep : Rep) (lhs rhs : Operand) (target : Label) : LowerM Unit :=
  match Operand.isZero lhs, Operand.isZero rhs with
  | _, true => compareZero cond rep lhs rhs target
  | true, false => compareZero cond.swap rep rhs lhs target
  | false, false => emit (.compare cond rep lhs rhs target)

/-! ## Operators -/

def logicalNot (type : TypeId) (e : Lowered) : Lowered :=
  .ofBranch type fun sense ↦ e.branch !sense

def comparison (type : TypeId) (cond : Cond) (l r : Lowered) : Lowered :=
  .ofBranch type fun sense target ↦ do
    let rep ← l.rep
    let lhs ← l.value
    let rhs ← r.value
    compare (if sense then cond else cond.negate) rep lhs rhs target

def logical (type : TypeId) (conjunction : Bool) (l r : Lowered) : Lowered :=
  { Lowered.ofBranch type fun sense target ↦
      if conjunction == sense then do
        let skip ← newLabel
        l.branch (!sense) skip
        r.branch sense target
        mark skip
      else do
        l.branch sense target
        r.branch sense target with
    effect := do
      let skip ← newLabel
      l.branch (!conjunction) skip
      r.effect
      mark skip }

def negation (type : TypeId) (op : PrimUnary) (e : Lowered) : Lowered :=
  .ofValue type do
    let src ← e.value
    let rep ← repOf type
    let t ← newTemp rep
    emit (.unary op rep t src)
    return .load t

def arithmetic (type : TypeId) (op : BinaryOp) (l r : Lowered) : Lowered :=
  .ofValue type do
    let lhs ← l.value
    let rhs ← r.value
    let rep ← repOf type
    let t ← newTemp rep
    emit (.binary op rep t lhs rhs)
    return .load t

def comma (type : TypeId) (first second : Lowered) : Lowered :=
  { Lowered.ofValue type (do first.effect; second.value) with
    effect := do first.effect; second.effect
    branch := fun sense target ↦ do first.effect; second.branch sense target }

/-- Writes one of two pieces of code, as the condition says. -/
def choose (cond : Lowered) (yes no : LowerM Unit) : LowerM Unit := do
  let other ← newLabel
  let done ← newLabel
  cond.branch false other
  yes
  jump done
  mark other
  no
  mark done

def conditional (type : TypeId) (cond yes no : Lowered) : Lowered :=
  let effect := choose cond yes.effect no.effect
  { Lowered.ofValue type (do
      if (← read).types.isVoid type then
        effect
        return .imm 0
      let rep ← repOf type
      let t ← newTemp rep
      choose cond (yes.assignTo t) (no.assignTo t)
      contents rep t) with effect }

/-! ## Assignments -/

def assignment (type : TypeId) (l r : Lowered) : Lowered :=
  .ofValue type do
    let rep ← repOf type
    let dst ← stable (← l.place)
    emit (.assign rep dst (← r.value))
    contents rep dst

def stepOperand (rep : Rep) (step : Int) : Operand :=
  if rep.isFloat then .float (.ofInt step) else .imm step

def stepped (before increment : Bool) (e : Lowered) (step : Int) : LowerM Operand := do
  let rep ← e.rep
  let dst ← stable (← e.place)
  let op := if increment then .add else .sub
  let rhs := stepOperand rep step
  if before then
    emit (.binary op rep dst (.load dst) rhs)
    return .load dst
  else
    let old ← copied rep (.load dst)
    emit (.binary op rep dst (.load old) rhs)
    return .load old

def incDec (type : TypeId) (before increment : Bool) (e : Lowered) (step : Int) : Lowered :=
  { Lowered.ofValue type (stepped before increment e step) with
    effect := discard (stepped true increment e step) }

/-! ## Conversions -/

def intBits : Rep → Option (Nat × Bool)
  | .byte signed => some (8, signed)
  | .word signed => some (16, signed)
  | .long signed => some (32, signed)
  | _ => none

def convertConstant (v : Operand) (source target : Rep) : Option Operand :=
  match v, intBits target with
  | .imm value, some (bits, signed) => some (.imm (wrapBits value bits signed))
  | .imm value, none =>
    if target.isFloat then
      some (.float (.ofInt (if source.isSigned then value else value % twoTo 64)))
    else none
  | .float x, some (bits, signed) => some (.imm (wrapBits x.toInt64 bits signed))
  | .float x, none =>
    if target.isFloat then some (.float (if target = .float then x.toSingle else x)) else none
  | _, _ => none

def sameBits (v : Operand) (source target : Rep) : Bool :=
  match source, target with
  | .word _, .word _ | .long _, .long _ | .block _, .block _ | .byte _, .word _ => true
  | .long _, .word _ => (v matches .load _)
  | _, _ => source = target

def convert (v : Operand) (source target : Rep) : LowerM Operand := do
  match convertConstant v source target with
  | some c => return c
  | none =>
    if sameBits v source target then return v
    let t ← newTemp target
    emit (.cast t target v source)
    return .load t

def cast (type : TypeId) (e : Lowered) : Lowered :=
  { Lowered.ofValue type (do
      if (← read).types.isVoid type then
        e.effect
        return .imm 0
      let source ← e.rep
      let target ← repOf type
      convert (← e.value) source target) with
    effect := e.effect }

def compound (type : TypeId) (op : BinaryOp) (l r : Lowered) (opType : TypeId) : Lowered :=
  .ofValue type do
    let rep ← l.rep
    let opRep ← repOf opType
    let dst ← stable (← l.place)
    let rhs ← r.value
    if rep = opRep then emit (.binary op rep dst (.load dst) rhs)
    else
      let lhs ← convert (.load dst) rep opRep
      let t ← newTemp opRep
      emit (.binary op opRep t lhs rhs)
      emit (.cast dst rep (.load t) opRep)
    return .load dst

def adjusted (v : Operand) (offset : Int) (nullCheck : Bool) : LowerM Operand := do
  if offset = 0 then return v
  if let .address base start := v then return .address base (wrap32 (start + offset))
  let t ← newTemp pointerRep
  if nullCheck then
    let skip ← newLabel
    emit (.assign pointerRep t v)
    emit (.test false pointerRep (.load t) skip)
    emit (.binary .add pointerRep t (.load t) (.imm offset))
    mark skip
  else emit (.binary .add pointerRep t v (.imm offset))
  return .load t

/-! ## Calls -/

def callWithPointer (label : String) (pointer : Operand) : LowerM Unit := do
  emit (.callStart 1)
  emit (.assign pointerRep (.arg 0) pointer)
  emit (.call (.direct label) 1 none)

def storeArgs : Nat → List (Operand × Rep) → LowerM Unit
  | _, [] => return
  | word, (v, rep) :: rest => do
    emit (.assign rep (.arg word) v)
    storeArgs (word + rep.words) rest

abbrev LoweredCallee := LowerM (CallTarget × Option Operand)

def virtualCallee (receiver : Lowered) (slot : Nat) : LoweredCallee := do
  let this := Operand.load (← copied pointerRep (← receiver.value))
  let table := Operand.load (.indirect this 0)
  return (.indirect (.load (.indirect table slot)), some this)

/-- Calls a function. The arguments are computed before the callee, and stored when all of them are
known. A result in memory goes to a temporary, whose address is the first argument. -/
def called (type : TypeId) (callee : LoweredCallee) (args : List Lowered) :
    LowerM (Option Operand) := do
  let values ← args.mapM fun a ↦ do
    let rep ← a.rep
    return (← a.value, rep)
  let (target, this) ← callee
  let values := (this.map fun v ↦ (v, pointerRep)).toList ++ values
  let types := (← read).types
  let rep ← repOf type
  let words := total (values.map (·.2.words))
  if types.isVoid type then
    emit (.callStart words)
    storeArgs 0 values
    emit (.call target words none)
    return none
  else if types.returnsInMemory type then
    let slot ← newSlot rep.words true
    emit (.callStart (words + 1))
    storeArgs 0 ((.address (.slot slot) 0, pointerRep) :: values)
    emit (.call target (words + 1) none)
    return some (← contents rep (.slot slot 0))
  else
    emit (.callStart words)
    storeArgs 0 values
    let t ← newTemp rep
    emit (.call target words (some (t, rep)))
    return some (.load t)

def call (type : TypeId) (callee : LoweredCallee) (args : List Lowered) : Lowered :=
  .ofValue type do return (← called type callee args).getD (.imm 0)

end W16Compiler.Lowering
