import W16Compiler.Lowering.Control

/-!
# Code for trees

Expressions and statements of a body, by recursion on the tree.
-/

namespace W16Compiler

open Lowering

mutual

def Expr.lowered : Expr → Lowered
  | .int i value => .ofConstant i.type (.imm value) (value ≠ 0)
  | .float i x => .ofConstant i.type (.float x) !x.isZero
  | .symbol i label =>
    { Lowered.ofConstant i.type (.address (.global label) 0) true with place := return .global label 0 }
  | .var i decl => { Lowered.ofPlace i.type (variablePlace decl) with effect := return }
  | .unary i .logNot e => logicalNot i.type e.lowered
  | .unary i .neg e => negation i.type .neg e.lowered
  | .unary i .bitNot e => negation i.type .not e.lowered
  | .deref i e => .ofPlace i.type do return placeAt (← e.lowered.value)
  | .addressOf i e => .ofValue i.type do addressOf (← e.lowered.place)
  | .incDec i before increment e step => incDec i.type before increment e.lowered step
  | .binary i op l r =>
    match Cond.ofOp? op with
    | some cond => comparison i.type cond l.lowered r.lowered
    | none => arithmetic i.type op l.lowered r.lowered
  | .logical i conjunction l r => logical i.type conjunction l.lowered r.lowered
  | .assign i l r => assignment i.type l.lowered r.lowered
  | .compound i op l r opType => compound i.type op l.lowered r.lowered opType
  | .call i callee args => call i.type callee.lowered (Expr.loweredAll args)
  | .member i e offset => .ofPlace i.type do return (← e.lowered.place).shift offset
  | .cast i e => cast i.type e.lowered
  | .adjust i e offset nullCheck =>
    .ofValue i.type do adjusted (← e.lowered.value) offset nullCheck
  | .conditional i cond yes no => conditional i.type cond.lowered yes.lowered no.lowered
  | .comma i first second => comma i.type first.lowered second.lowered
  | .statement i body => .ofValue i.type body.lowered.body

def Expr.loweredAll : List Expr → List Lowered
  | [] => []
  | e :: rest => e.lowered :: Expr.loweredAll rest

def Expr.lowered? : Option Expr → Option Lowered
  | none => none
  | some e => some e.lowered

def Expr.loweredItems : List (Nat × Expr) → List (Nat × Lowered)
  | [] => []
  | (offset, e) :: rest => (offset, e.lowered) :: Expr.loweredItems rest

def Callee.lowered : Callee → LoweredCallee
  | .direct label => return (.direct label, none)
  | .indirect e => do return (.indirect (← e.lowered.value), none)
  | .virtualSlot receiver slot => virtualCallee receiver.lowered slot

def Stmt.lowered : Stmt → LoweredStmt
  | .block i body => .ofBlock i.loc (Stmt.loweredAll body)
  | .expr i e => .ofExpr i.loc e.lowered
  | .branch i cond yes no => .ofRun i.loc (branch cond.lowered yes.lowered (Stmt.lowered? no))
  | .whileLoop i cond body => .ofRun i.loc (whileLoop i cond.lowered body.lowered)
  | .doLoop i body cond => .ofRun i.loc (doLoop i body.lowered cond.lowered)
  | .forLoop i init cond step body =>
    .ofRun i.loc
      (forLoop i (Stmt.lowered? init) (Expr.lowered? cond) (Expr.lowered? step) body.lowered)
  | .switch i value body cases default =>
    .ofRun i.loc (switch i value.lowered body.lowered cases default)
  | .caseMarker i marker => .ofRun i.loc do mark (← caseLabel marker)
  | .breakLoop i => .ofRun i.loc (breakLoop i)
  | .continueLoop i => .ofRun i.loc (continueLoop i)
  | .goto i name => .ofRun i.loc (goto i name)
  | .label i name body => .ofRun i.loc (labelled name body.lowered)
  | .ret i value => .ofRun i.loc (ret i (Expr.lowered? value))
  | .localVar i decl init => .ofRun i.loc do init.lowered (← localSlot decl)
  | .tryStmt i id body handler cleanup =>
    .ofRun i.loc
      (tryStatement i id body.lowered (Handler.lowered? handler) (Stmt.lowered? cleanup))
  | .throwStmt i e => .ofRun i.loc do emit (.throwValue (← e.lowered.value))
  | .empty i => .ofRun i.loc (return)

def Stmt.loweredAll : List Stmt → List LoweredStmt
  | [] => []
  | s :: rest => s.lowered :: Stmt.loweredAll rest

def Stmt.lowered? : Option Stmt → Option LoweredStmt
  | none => none
  | some s => some s.lowered

def Handler.lowered? : Option Handler → Option (DeclId × LoweredStmt)
  | none => none
  | some (.mk var body) => some (var, body.lowered)

def LocalInit.lowered : LocalInit → SlotId → LowerM Unit
  | .uninitialized, _ => return
  | .value e, slot => e.lowered.assignTo (.slot slot 0)
  | .construct id, slot => construct (.slot slot 0) id
  | .aggregate tables constructs items, slot =>
    aggregate slot tables constructs (Expr.loweredItems items)

end

end W16Compiler
