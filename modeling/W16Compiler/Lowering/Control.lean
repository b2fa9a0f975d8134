import W16Compiler.Lowering.Value

/-!
# Code for statements

What a statement means to the code around it, built from what its parts mean.
-/

namespace W16Compiler.Lowering

/-- The nodes for each way of using a statement. -/
structure LoweredStmt where
  loc : Location
  run : LowerM Unit
  /-- Runs the statement as the last one of a statement expression and gives its value. -/
  last : LowerM Operand
  /-- Runs the statement as the body of a statement expression and gives its value. -/
  body : LowerM Operand

namespace LoweredStmt

def ofRun (loc : Location) (code : LowerM Unit) : LoweredStmt :=
  let run : LowerM Unit := do locate loc; code
  let value : LowerM Operand := do run; return .imm 0
  { loc, run, last := value, body := value }

/-- An expression statement. A value that is read from memory is copied, since the block that it
belongs to ends. -/
def ofExpr (loc : Location) (e : Lowered) : LoweredStmt :=
  let value : LowerM Operand := do
    locate loc
    let v ← e.value
    let rep ← e.rep
    match v with
    | .load _ => if rep.isBlock then return v else return .load (← copied rep v)
    | _ => return v
  { ofRun loc e.effect with last := value, body := value }

def valueOf : List LoweredStmt → LowerM Operand
  | [] => return .imm 0
  | [s] => s.last
  | s :: rest => do s.run; valueOf rest

def ofBlock (loc : Location) (body : List LoweredStmt) : LoweredStmt :=
  { ofRun loc (body.forM (·.run)) with body := valueOf body }

end LoweredStmt

/-! ## Branches and loops -/

def branch (cond : Lowered) (yes : LoweredStmt) (no : Option LoweredStmt) : LowerM Unit := do
  let other ← newLabel
  cond.branch false other
  yes.run
  match no with
  | none => mark other
  | some no =>
    let done ← newLabel
    jump done
    mark other
    no.run
    mark done

def inside (b : Breakable) (code : LowerM Unit) : LowerM Unit :=
  withReader (fun c ↦ { c with breakables := b :: c.breakables }) code

def whileLoop (i : StmtInfo) (cond : Lowered) (body : LoweredStmt) : LowerM Unit := do
  let top ← newLabel
  let exit ← newLabel
  mark top
  cond.branch false exit
  inside ⟨exit, some top, i.scope⟩ body.run
  jump top
  mark exit

def doLoop (i : StmtInfo) (body : LoweredStmt) (cond : Lowered) : LowerM Unit := do
  let top ← newLabel
  let next ← newLabel
  let exit ← newLabel
  mark top
  inside ⟨exit, some next, i.scope⟩ body.run
  mark next
  locate i.loc
  cond.branch true top
  mark exit

def forLoop (i : StmtInfo) (init : Option LoweredStmt) (cond step : Option Lowered)
    (body : LoweredStmt) : LowerM Unit := do
  init.forM (·.run)
  let top ← newLabel
  let next ← newLabel
  let exit ← newLabel
  locate i.loc
  mark top
  cond.forM fun c ↦ c.branch false exit
  inside ⟨exit, some next, i.scope⟩ body.run
  mark next
  locate i.loc
  step.forM (·.effect)
  jump top
  mark exit

def caseLabel (marker : Nat) : LowerM Label := do
  match (← read).cases[marker]? with
  | some label => return label
  | none => fail .caseMarkerRange

def switch (i : StmtInfo) (value : Lowered) (body : LoweredStmt) (cases : List (Int × Nat))
    (default : Option Nat) : LowerM Unit := do
  let rep ← value.rep
  let v ← value.value
  let v ← match v with
    | .imm _ => pure v
    | _ => if cases.length > 1 then pure (.load (← copied rep v)) else pure v
  let exit ← newLabel
  for (constant, marker) in cases do
    compare .eq rep v (.imm constant) (← caseLabel marker)
  let labels := (← read).cases
  jump ((default.bind (labels[·]?)).getD exit)
  inside ⟨exit, none, i.scope⟩ body.run
  mark exit

/-! ## Jumps -/

def breakLoop (i : StmtInfo) : LowerM Unit := do
  match (← read).breakables with
  | b :: _ => jumpTo i.scope b.exit b.scope
  | [] => fail .breakOutsideLoop

def continueLoop (i : StmtInfo) : LowerM Unit := do
  let targets := (← read).breakables.filterMap fun b ↦ b.next.map (·, b.scope)
  match targets with
  | (next, scope) :: _ => jumpTo i.scope next scope
  | [] => fail .continueOutsideLoop

def goto (i : StmtInfo) (name : String) : LowerM Unit := do
  match (← read).labels.lookup name with
  | some (label, scope) => jumpTo i.scope label scope
  | none => fail (.gotoUnknown name)

def labelled (name : String) (body : LoweredStmt) : LowerM Unit := do
  ((← read).labels.lookup name).forM fun (label, _) ↦ mark label
  body.run

def ret (i : StmtInfo) : Option Lowered → LowerM Unit
  | none => returnFrom i.scope none
  | some e => do
    let c ← read
    if c.hiddenResult then
      e.assignTo (.indirect (.load (.param 0)) 0)
      returnFrom i.scope none
    else if c.result.isNone then
      e.effect
      returnFrom i.scope none
    else returnFrom i.scope (some (← e.value))

/-! ## Local variables -/

def initLabel (id : StructId) : LowerM String := return ((← read).types.structDef id).initLabel

def construct (p : Place) (id : StructId) : LowerM Unit := do
  let label ← initLabel id
  callWithPointer label (← addressOf p)

def storeTable (p : Place) (label : String) : LowerM Unit :=
  emit (.assign pointerRep p (.address (.global label) 0))

/-- Clears a slot, constructs members, sets table pointers and stores the given values. -/
def aggregate (slot : SlotId) (tables : List (Nat × String)) (constructs : List (Nat × StructId))
    (items : List (Nat × Lowered)) : LowerM Unit := do
  let words := (((← get).slots[slot.index]?).map (·.words)).getD 0
  let p := Place.slot slot 0
  emit (.assign (.block words) p (.imm 0))
  for (offset, id) in constructs do construct (p.shift offset) id
  for (offset, label) in tables do storeTable (p.shift offset) label
  for (offset, e) in items do e.assignTo (p.shift offset)

/-! ## Exceptions -/

structure TryPlan where
  record : SlotId
  /-- Where the cleanup starts, the slot that tells it where to go on, and where an exception goes that
  is not handled. -/
  finish : Option (Label × SlotId × Label)
  after : Label
  caught : Label

def planTry (handled hasCleanup : Bool) : LowerM TryPlan := do
  let record ← newSlot 3 false
  let finish ← if hasCleanup then
      let link ← newSlot 1 false
      let start ← newLabel
      let rethrow ← newLabel
      pure (some (start, link, rethrow))
    else pure none
  let after ← newLabel
  if handled then return ⟨record, finish, after, ← newLabel⟩
  match finish with
  | some (_, _, rethrow) => return ⟨record, finish, after, rethrow⟩
  | none => fail .tryWithoutHandler

def TryPlan.state (plan : TryPlan) (scope : ScopeId) : TryState :=
  { record := plan.record, cleanup := plan.finish.map fun (start, link, _) ↦ (start, link), scope }

def leaveClause (id : TryId) (plan : TryPlan) (isProtected : Bool) : LowerM Unit := do
  if ← reachable then
    if isProtected then
      emit (.tryEnd plan.record)
      runCleanup id
    jump plan.after

def writeHandler (id : TryId) (plan : TryPlan) (var : DeclId) (code : LoweredStmt) : LowerM Unit := do
  locate code.loc
  emit (.catchEntry plan.caught (some (← variablePlace var)))
  plan.finish.forM fun (_, _, rethrow) ↦ emit (.tryBegin plan.record rethrow)
  code.run
  leaveClause id plan plan.finish.isSome

def writeCleanup (id : TryId) (finish : Label × SlotId × Label) (code : LoweredStmt) : LowerM Unit := do
  let (start, link, rethrow) := finish
  locate code.loc
  let thrown := Place.slot (← newSlot 1 false) 0
  emit (.catchEntry rethrow (some thrown))
  runCleanup id
  emit (.throwValue (.load thrown))
  emit (.cleanupEntry start link)
  code.run
  emit (.cleanupReturn link [])

/-- The code of a try statement:

* begin the protection, the body, end the protection, run the cleanup, go behind everything;
* the handler, protected in turn if there is a cleanup, which is run at its end;
* for an exception that is not handled: run the cleanup, throw it again;
* the cleanup, which goes on where it was run from. -/
def tryStatement (i : StmtInfo) (id : TryId) (body : LoweredStmt)
    (handler : Option (DeclId × LoweredStmt)) (cleanup : Option LoweredStmt) : LowerM Unit := do
  let plan ← planTry handler.isSome cleanup.isSome
  modify (startTry id (plan.state i.scope))
  emit (.tryBegin plan.record plan.caught)
  body.run
  leaveClause id plan true
  handler.forM fun (var, code) ↦ writeHandler id plan var code
  cleanup.forM fun code ↦ plan.finish.forM fun finish ↦ writeCleanup id finish code
  mark plan.after

end W16Compiler.Lowering
