import W16Compiler.Unit

/-!
# Outlines

Typed trees as nested lists, for inspection. A node is a list that starts with its kind; an
expression ends with its type, and a statement has its place in the source second.
-/

namespace W16Compiler

inductive Outline where
  | word (text : String)
  | number (value : Int)
  | float (value : Binary64)
  | flag (value : Bool)
  | missing
  | list (items : List Outline)

namespace Outline

def optional : Option Outline → Outline
  | some o => o
  | none => missing

def number? (n : Option Nat) : Outline := optional (n.map fun n ↦ number n)

end Outline

namespace Names

open Outline

def type (n : Names) (ty : TypeId) : Outline := word (n.types.display ty)

def structName (n : Names) (id : StructId) : Outline := word (n.types.structDef id).name

def place (e : Entity) : Outline :=
  match e with
  | .variable _ _ (.global label) => word s!"global:{label}"
  | .variable _ _ .stack => word "local"
  | .variable _ _ (.param offset) => word s!"param:{offset}"
  | .text _ label => word s!"string:{label}"
  | .asmLabel _ label => word s!"asm:{label}"
  | _ => word "other"

def decl (n : Names) (id : DeclId) : Outline :=
  let d := n.symbols.decl id
  list [word d.name, n.type d.type, place d.entity]

end Names

def UnaryOp.spelling : UnaryOp → String
  | neg => "-"
  | bitNot => "~"
  | logNot => "!"

open Outline

mutual

def Expr.outline (n : Names) : Expr → Outline
  | .int i v => list [word "int", number v, n.type i.type]
  | .float i x => list [word "float", .float x, n.type i.type]
  | .symbol i label => list [word "sym", word label, n.type i.type]
  | .var i d => list [word "var", word (n.symbols.decl d).name, n.type i.type]
  | .unary i op a => list [word "un", word op.spelling, a.outline n, n.type i.type]
  | .deref i a => list [word "deref", a.outline n, n.type i.type]
  | .addressOf i a => list [word "addr", a.outline n, n.type i.type]
  | .incDec i before increment a step =>
    list [word "incdec", flag before, flag increment, a.outline n, number step, n.type i.type]
  | .binary i op a b =>
    list [word "bin", word op.spelling, a.outline n, b.outline n, n.type i.type]
  | .logical i conjunction a b =>
    list [word "log", word (if conjunction then "&&" else "||"), a.outline n, b.outline n,
      n.type i.type]
  | .assign i a b => list [word "assign", a.outline n, b.outline n, n.type i.type]
  | .compound i op a b opType =>
    list [word "opassign", word op.spelling, a.outline n, b.outline n, n.type opType, n.type i.type]
  | .call i callee args => list [word "call", callee.outline n, list (Expr.outlines n args), n.type i.type]
  | .member i a offset => list [word "mem", a.outline n, number offset, n.type i.type]
  | .cast i a => list [word "cast", a.outline n, n.type i.type]
  | .adjust i a offset nullCheck =>
    list [word "adj", a.outline n, number offset, flag nullCheck, n.type i.type]
  | .conditional i c a b =>
    list [word "tern", c.outline n, a.outline n, b.outline n, n.type i.type]
  | .comma i a b => list [word "comma", a.outline n, b.outline n, n.type i.type]
  | .statement i body => list [word "stmt", body.outline n, n.type i.type]

def Expr.outlines (n : Names) : List Expr → List Outline
  | [] => []
  | e :: rest => e.outline n :: Expr.outlines n rest

def Expr.outline? (n : Names) : Option Expr → Outline
  | none => missing
  | some e => e.outline n

def Callee.outline (n : Names) : Callee → Outline
  | .direct label => list [word "direct", word label]
  | .indirect f => list [word "indirect", f.outline n]
  | .virtualSlot receiver slot => list [word "virtual", receiver.outline n, number slot]

def Stmt.outline (n : Names) : Stmt → Outline
  | .block i body => node "block" i [list (Stmt.outlines n body)]
  | .expr i e => node "expr" i [e.outline n]
  | .branch i c a b => node "if" i [c.outline n, a.outline n, Stmt.outline? n b]
  | .whileLoop i c b => node "while" i [c.outline n, b.outline n]
  | .doLoop i b c => node "do" i [b.outline n, c.outline n]
  | .forLoop i init c step b =>
    node "for" i [Stmt.outline? n init, Expr.outline? n c, Expr.outline? n step, b.outline n]
  | .switch i v b cases default =>
    node "switch" i [v.outline n, b.outline n,
      list (cases.map fun (v, marker) ↦ list [number v, number marker]), number? default]
  | .caseMarker i marker => node "case" i [number marker]
  | .breakLoop i => node "break" i []
  | .continueLoop i => node "continue" i []
  | .goto i label => node "goto" i [word label]
  | .label i name b => node "label" i [word name, b.outline n]
  | .ret i e => node "return" i [Expr.outline? n e]
  | .localVar i d init => node "local" i [n.decl d, init.outline n]
  | .tryStmt i id body handler cleanup =>
    node "try" i [number id.index, body.outline n, Handler.outline? n handler, Stmt.outline? n cleanup]
  | .throwStmt i e => node "throw" i [e.outline n]
  | .empty i => node "empty" i []
where
  node (kind : String) (i : StmtInfo) (parts : List Outline) : Outline :=
    list (word kind :: word s!"{i.loc.line}.{i.loc.col}" :: parts)

def Stmt.outlines (n : Names) : List Stmt → List Outline
  | [] => []
  | s :: rest => s.outline n :: Stmt.outlines n rest

def Stmt.outline? (n : Names) : Option Stmt → Outline
  | none => missing
  | some s => s.outline n

def Handler.outline? (n : Names) : Option Handler → Outline
  | none => missing
  | some (.mk var body) => list [n.decl var, body.outline n]

def LocalInit.outline (n : Names) : LocalInit → Outline
  | .uninitialized => missing
  | .value e => list [word "expr", e.outline n]
  | .construct id => list [word "construct", n.structName id]
  | .aggregate tables constructs items =>
    list [word "aggregate", list (tables.map fun (at_, label) ↦ list [number at_, word label]),
      list (constructs.map fun (at_, id) ↦ list [number at_, n.structName id]),
      list (Expr.placed n items)]

def Expr.placed (n : Names) : List (Nat × Expr) → List Outline
  | [] => []
  | (at_, e) :: rest => list [number at_, e.outline n] :: Expr.placed n rest

end

end W16Compiler
