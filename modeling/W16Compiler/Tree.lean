import W16Compiler.Binary64.Basic
import W16Compiler.Ids
import W16Compiler.Location

/-!
# Typed trees

Expressions carry their type and the location of the token that introduced them; statements carry
their scope and location.
-/

namespace W16Compiler

/-- Operators that compute a value from one operand. -/
inductive UnaryOp where
  | neg | bitNot | logNot
  deriving DecidableEq, Repr

inductive BinaryOp where
  | add | sub | mul | div | mod | and | or | xor | shl | shr | eq | ne | lt | le | gt | ge
  deriving DecidableEq, Repr

namespace BinaryOp

def isComparison : BinaryOp → Bool
  | eq | ne | lt | le | gt | ge => true
  | _ => false

def negate : BinaryOp → BinaryOp
  | eq => ne
  | ne => eq
  | lt => ge
  | ge => lt
  | gt => le
  | le => gt
  | op => op

def spelling : BinaryOp → String
  | add => "+"
  | sub => "-"
  | mul => "*"
  | div => "/"
  | mod => "%"
  | and => "&"
  | or => "|"
  | xor => "^"
  | shl => "<<"
  | shr => ">>"
  | eq => "=="
  | ne => "!="
  | lt => "<"
  | le => "<="
  | gt => ">"
  | ge => ">="

end BinaryOp

/-- What every expression knows of itself. -/
structure ExprInfo where
  type : TypeId
  loc : Location
  deriving DecidableEq, Inhabited

/-- What every statement knows of itself. -/
structure StmtInfo where
  scope : ScopeId
  loc : Location
  deriving DecidableEq, Inhabited

mutual

inductive Expr where
  | int (i : ExprInfo) (value : Int)
  | float (i : ExprInfo) (value : Binary64)
  | symbol (i : ExprInfo) (label : String)
  | var (i : ExprInfo) (decl : DeclId)
  | unary (i : ExprInfo) (op : UnaryOp) (operand : Expr)
  | deref (i : ExprInfo) (pointer : Expr)
  /-- The address of an object; also an array that becomes a pointer. -/
  | addressOf (i : ExprInfo) (object : Expr)
  | incDec (i : ExprInfo) (before increment : Bool) (operand : Expr) (step : Int)
  /-- Both operands have their common type already. -/
  | binary (i : ExprInfo) (op : BinaryOp) (lhs rhs : Expr)
  | logical (i : ExprInfo) (conjunction : Bool) (lhs rhs : Expr)
  | assign (i : ExprInfo) (lhs rhs : Expr)
  | compound (i : ExprInfo) (op : BinaryOp) (lhs rhs : Expr) (opType : TypeId)
  /-- Arguments are converted already; a member function has its object first. -/
  | call (i : ExprInfo) (callee : Callee) (args : List Expr)
  | member (i : ExprInfo) (base : Expr) (offset : Nat)
  | cast (i : ExprInfo) (operand : Expr)
  /-- A pointer moved by a word offset; with `nullCheck` a null pointer stays null. -/
  | adjust (i : ExprInfo) (operand : Expr) (offset : Int) (nullCheck : Bool)
  | conditional (i : ExprInfo) (cond yes no : Expr)
  | comma (i : ExprInfo) (first second : Expr)
  /-- A block used for the value of its last expression statement. -/
  | statement (i : ExprInfo) (body : Stmt)

inductive Callee where
  | direct (label : String)
  | indirect (pointer : Expr)
  /-- `receiver` points at the table pointer and is passed to the function. -/
  | virtualSlot (receiver : Expr) (slot : Nat)

inductive Stmt where
  | block (i : StmtInfo) (body : List Stmt)
  | expr (i : StmtInfo) (e : Expr)
  | branch (i : StmtInfo) (cond : Expr) (yes : Stmt) (no : Option Stmt)
  | whileLoop (i : StmtInfo) (cond : Expr) (body : Stmt)
  | doLoop (i : StmtInfo) (body : Stmt) (cond : Expr)
  | forLoop (i : StmtInfo) (init : Option Stmt) (cond step : Option Expr) (body : Stmt)
  | switch (i : StmtInfo) (value : Expr) (body : Stmt) (cases : List (Int × Nat))
      (default : Option Nat)
  | caseMarker (i : StmtInfo) (marker : Nat)
  | breakLoop (i : StmtInfo)
  | continueLoop (i : StmtInfo)
  | goto (i : StmtInfo) (label : String)
  | label (i : StmtInfo) (name : String) (body : Stmt)
  | ret (i : StmtInfo) (value : Option Expr)
  | localVar (i : StmtInfo) (decl : DeclId) (init : LocalInit)
  | tryStmt (i : StmtInfo) (id : TryId) (body : Stmt) (handler : Option Handler) (cleanup : Option Stmt)
  | throwStmt (i : StmtInfo) (value : Expr)
  | empty (i : StmtInfo)

/-- The variable that receives the thrown value, and the body. -/
inductive Handler where
  | mk (var : DeclId) (body : Stmt)

/-- How a local variable starts out. -/
inductive LocalInit where
  | uninitialized
  | value (e : Expr)
  | construct (id : StructId)
  /-- Zeroed, then given table pointers, constructed members and values, each at a word offset. -/
  | aggregate (tables : List (Nat × String)) (constructs : List (Nat × StructId))
      (items : List (Nat × Expr))

end

namespace Expr

def info : Expr → ExprInfo
  | int i .. | float i .. | symbol i .. | var i .. | unary i .. | deref i .. | addressOf i ..
  | incDec i .. | binary i .. | logical i .. | assign i .. | compound i .. | call i .. | member i ..
  | cast i .. | adjust i .. | conditional i .. | comma i .. | statement i .. => i

def type (e : Expr) : TypeId := e.info.type

def loc (e : Expr) : Location := e.info.loc

def withType (e : Expr) (type : TypeId) : Expr :=
  let j : ExprInfo := ⟨type, e.loc⟩
  match e with
  | int _ value => int j value
  | float _ value => float j value
  | symbol _ label => symbol j label
  | var _ decl => var j decl
  | unary _ op operand => unary j op operand
  | deref _ pointer => deref j pointer
  | addressOf _ object => addressOf j object
  | incDec _ before increment operand step => incDec j before increment operand step
  | binary _ op lhs rhs => binary j op lhs rhs
  | logical _ conjunction lhs rhs => logical j conjunction lhs rhs
  | assign _ lhs rhs => assign j lhs rhs
  | compound _ op lhs rhs opType => compound j op lhs rhs opType
  | call _ callee args => call j callee args
  | member _ base offset => member j base offset
  | cast _ operand => cast j operand
  | adjust _ operand offset nullCheck => adjust j operand offset nullCheck
  | conditional _ cond yes no => conditional j cond yes no
  | comma _ first second => comma j first second
  | statement _ body => statement j body

def ofInt (value : Int) (loc : Location) : Expr := int ⟨.int, loc⟩ value

def isLvalue : Expr → Bool
  | var .. | deref .. => true
  | member _ base _ => base.isLvalue
  | _ => false

instance : Inhabited Expr := ⟨ofInt 0 .builtin⟩

end Expr

namespace Stmt

def info : Stmt → StmtInfo
  | block i .. | expr i .. | branch i .. | whileLoop i .. | doLoop i .. | forLoop i .. | switch i ..
  | caseMarker i .. | breakLoop i | continueLoop i | goto i .. | label i .. | ret i ..
  | localVar i .. | tryStmt i .. | throwStmt i .. | empty i => i

def scope (s : Stmt) : ScopeId := s.info.scope

def loc (s : Stmt) : Location := s.info.loc

instance : Inhabited Stmt := ⟨empty default⟩

end Stmt

end W16Compiler
