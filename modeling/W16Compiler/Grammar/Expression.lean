import W16Compiler.Grammar.Readers

/-!
# Expressions

Operators wait on a stack until one of lower precedence arrives, which then finds its operands on a
second stack. Operators before an operand are stacked as they come; those behind it apply at once.
A `?` stays on the stack until its `:` arrives, and a `:` without one ends the expression.
-/

namespace W16Compiler.Grammar

inductive Operator where
  | prefixOp (op : PrefixOp)
  | binary (op : BinaryOp)
  | logical (conjunction : Bool)
  | assign (op : Option BinaryOp)
  | question
  | conditional
  | comma
  deriving DecidableEq

structure Pending where
  op : Operator
  precedence : Nat
  loc : Location

namespace Operator

def prefixPrecedence : Nat := 15

/-- The operator that a token denotes before an operand. -/
def ofPrefix? : Punct → Option PrefixOp
  | .minus => some .neg
  | .plus => some .plus
  | .bang => some .not
  | .tilde => some .bitNot
  | .amp => some .addressOf
  | .star => some .deref
  | .plusPlus => some .preInc
  | .minusMinus => some .preDec
  | _ => none

/-- The operator that a token denotes between operands, its precedence, and whether it associates to
the right. -/
def ofInfix? : Punct → Option (Operator × Nat × Bool)
  | .star => some (binary .mul, 13, false)
  | .slash => some (binary .div, 13, false)
  | .percent => some (binary .mod, 13, false)
  | .plus => some (binary .add, 12, false)
  | .minus => some (binary .sub, 12, false)
  | .shl => some (binary .shl, 11, false)
  | .shr => some (binary .shr, 11, false)
  | .less => some (binary .lt, 10, false)
  | .lessEq => some (binary .le, 10, false)
  | .greater => some (binary .gt, 10, false)
  | .greaterEq => some (binary .ge, 10, false)
  | .eqEq => some (binary .eq, 9, false)
  | .notEq => some (binary .ne, 9, false)
  | .amp => some (binary .and, 8, false)
  | .caret => some (binary .xor, 7, false)
  | .pipe => some (binary .or, 6, false)
  | .andAnd => some (logical true, 5, false)
  | .orOr => some (logical false, 4, false)
  | .question => some (question, 3, true)
  | .assign => some (assign none, 2, true)
  | .plusAssign => some (assign (some .add), 2, true)
  | .minusAssign => some (assign (some .sub), 2, true)
  | .starAssign => some (assign (some .mul), 2, true)
  | .slashAssign => some (assign (some .div), 2, true)
  | .percentAssign => some (assign (some .mod), 2, true)
  | .ampAssign => some (assign (some .and), 2, true)
  | .pipeAssign => some (assign (some .or), 2, true)
  | .caretAssign => some (assign (some .xor), 2, true)
  | .shlAssign => some (assign (some .shl), 2, true)
  | .shrAssign => some (assign (some .shr), 2, true)
  | .comma => some (comma, 1, false)
  | _ => none

end Operator

def reduce (p : Pending) (operands : List Expr) : TypingM (List Expr) := do
  match p.op, operands with
  | .prefixOp op, e :: rest => return (← unary op e p.loc) :: rest
  | .binary op, rhs :: lhs :: rest => return (← binary op lhs rhs p.loc) :: rest
  | .logical conjunction, rhs :: lhs :: rest => return (← logical conjunction lhs rhs p.loc) :: rest
  | .assign op, rhs :: lhs :: rest => return (← assign op lhs rhs p.loc) :: rest
  | .conditional, no :: yes :: cond :: rest => return (← conditional cond yes no p.loc) :: rest
  | .comma, second :: first :: rest => return (← comma first second p.loc) :: rest
  | .question, _ => throw (.internal .pendingQuestion)
  | _, _ => throw (.internal .operandUnderflow)

def reduceWhile (go : Pending → Bool) (operands : List Expr) :
    List Pending → TypingM (List Expr × List Pending)
  | [] => return (operands, [])
  | p :: ops => do
    if go p then reduceWhile go (← reduce p operands) ops else return (operands, p :: ops)

def reduceAll (operands : List Expr) (ops : List Pending) : TypingM Expr := do
  match ← reduceWhile (·.op ≠ .question) operands ops with
  | (_, p :: _) => throw (.grammatical p.loc .conditionalWithoutColon)
  | ([e], []) => return e
  | (_, []) => throw (.internal .unbalancedStacks)

/-! ## Operands -/

def isTypeWord : Keyword → Bool
  | .constKw | .volatileKw | .voidKw | .charKw | .shortKw | .intKw | .longKw | .floatKw | .doubleKw
  | .signedKw | .unsignedKw | .structKw | .unionKw | .enumKw => true
  | _ => false

def typeFollows : ReadM Bool := do
  match (← peekNth 1).kind with
  | .keyword k => return isTypeWord k
  | .ident name => isTypedefName name
  | _ => return false

/-- Arguments of a call whose opening parenthesis has been taken. -/
def arguments (r : Readers) : ReadM (List Expr) := do
  if ← eat .rightParen then return []
  loop [] fun args ↦ do
    let args := (← r.expression false) :: args
    if ← eat .comma then return .again args
    let _ ← expect .rightParen
    return .done args.reverse

inductive Resolved where
  | decl (id : DeclId)
  /-- A member of the struct in whose body or functions the name stands. -/
  | member (id : StructId) (m : TypeTable.Member)

def State.resolve (s : State) (name : String) : Option Resolved :=
  (s.symbols.chain s.scope).findSome? fun c ↦
    (match (s.symbols.scope c).kind with
      | .member id => (s.types.findMember id name).map (.member id)
      | _ => none) <|> (s.symbols.lookupLocal c name).map .decl

def member (r : Readers) (base : Expr) (name : String) (loc : Location) : ReadM Expr := do
  let t := (← get).types
  match t.asStruct base.type with
  | none => semantic loc (.memberOfNonStruct name (t.display base.type))
  | some id =>
    if !(t.structDef id).complete then semantic loc .memberOfIncomplete
    match t.findMember id name with
    | some (.field ty offset) =>
      let ty ← entered (·.qualified ty (t.isConst base.type) false)
      return .member ⟨ty, loc⟩ base offset
    | some (.method ..) =>
      let _ ← expect .leftParen
      if !base.isLvalue then semantic loc .methodOnRvalue
      let this ← addressOf base loc
      let args ← arguments r
      methodCall this id name (base matches .var .. | .member ..) args loc
    | none => semantic loc (.noMember name (t.display base.type))

def thisFor (id : StructId) (name : String) (loc : Location) : ReadM Expr := do
  match (← get).function.bind (·.this) with
  | some (decl, owner) =>
    if owner = id then return .var ⟨(← declaration decl).type, loc⟩ decl
    else semantic loc (.memberWithoutObject name)
  | none => semantic loc (.memberWithoutObject name)

def declared (id : DeclId) (name : String) (loc : Location) : ReadM Expr := do
  match (← declaration id).entity with
  | .variable ty .. | .text ty _ | .asmLabel ty _ => return .var ⟨ty, loc⟩ id
  | .function ty _ label _ none _ => return .symbol ⟨ty, loc⟩ label
  | .function .. => semantic loc (.methodWithoutObject name)
  | .enumerator value => return .ofInt value loc
  | .numeric ty value =>
    let info : ExprInfo := ⟨(← get).types.unqualified ty, loc⟩
    match value with
    | .float x => return .float info x
    | .int v => return .int info v
    | .address label _ => return .symbol info label
  | .typedef _ => grammatical loc (.unexpectedTypeName name)

def identifier (r : Readers) (name : String) (loc : Location) : ReadM Expr := do
  match (← get).resolve name with
  | none => semantic loc (.undefinedSymbol name)
  | some (.decl id) => declared id name loc
  | some (.member id m) =>
    let this ← thisFor id name loc
    match m with
    | .field .. => member r (← dereference this loc) name loc
    | .method .. =>
      let _ ← expect .leftParen
      let args ← arguments r
      methodCall this id name false args loc

def literalType (value : Int) (unsigned long : Bool) : Option TypeId :=
  if !unsigned && !long && value < twoTo 15 then some .int
  else if !long && value < twoTo 16 then some .uint
  else if !unsigned && value < twoTo 31 then some .long
  else if value < twoTo 32 then some .ulong
  else none

def literal (value : Int) (unsigned long : Bool) (loc : Location) : ReadM Expr :=
  match literalType value unsigned long with
  | some ty => return .int ⟨ty, loc⟩ value
  | none => semantic loc .constantTooLarge

def blockType : Stmt → TypeId
  | .block _ body =>
    match body.getLast? with
    | some (.expr _ e) => e.type
    | _ => .void
  | _ => .void

def statementExpression (r : Readers) (loc : Location) : ReadM Expr := do
  let _ ← functionState loc
  let body ← r.compound
  let _ ← expect .rightParen
  return .statement ⟨← entered (·.decay (blockType body)), loc⟩ body

def stringLiteral (bytes : List UInt8) (loc : Location) : ReadM Expr := do
  let label ← dataLabel
  let item := DataItem.string label bytes
  let ty ← entered (·.arrayOf .char (some item.size))
  addData { item with loc := some loc }
  return .symbol ⟨ty, loc⟩ label

def primary (r : Readers) : ReadM Expr := do
  let t ← next
  let loc := t.loc
  match t.kind with
  | .int value unsigned long => literal (wrap64 value) unsigned long loc
  | .float value single =>
    return if single then .float ⟨.float, loc⟩ value.toSingle else .float ⟨.double, loc⟩ value
  | .char value => return .ofInt value loc
  | .str bytes => stringLiteral bytes loc
  | .ident name => identifier r name loc
  | .punct .leftParen =>
    if ← peekIs .leftBrace then statementExpression r loc
    else
      let e ← nested (r.expression true)
      let _ ← expect .rightParen
      return e
  | other =>
    onTokens fun s ↦ ((), s.pushBack t)
    grammatical loc (.expected "expression" other.text)

/-- An operand followed by subscripts, calls, members and increments. -/
def suffixed (r : Readers) : ReadM Expr := do
  loop (← primary r) fun e ↦ do
    let t ← peek
    match t.kind with
    | .punct .leftBracket =>
      let _ ← next
      let index ← r.expression true
      let _ ← expect .rightBracket
      return .again (← dereference (← binary .add e index t.loc) t.loc)
    | .punct .leftParen =>
      let _ ← next
      let args ← arguments r
      return .again (← call e args t.loc)
    | .punct .dot =>
      let _ ← next
      let (name, loc) ← expectIdent
      return .again (← member r e name loc)
    | .punct .arrow =>
      let _ ← next
      let (name, loc) ← expectIdent
      return .again (← member r (← dereference e t.loc) name loc)
    | .punct .plusPlus =>
      let _ ← next
      return .again (← incDec false true e t.loc)
    | .punct .minusMinus =>
      let _ ← next
      return .again (← incDec false false e t.loc)
    | _ => return .done e

def parenthesizedType (r : Readers) : ReadM TypeId := do
  let _ ← next
  let ty ← typeName r
  let _ ← expect .rightParen
  return ty

def operand (r : Readers) (ops : List Pending) : ReadM (Expr × List Pending) :=
  loop ops fun ops ↦ do
    let t ← peek
    let push (op : PrefixOp) : List Pending := ⟨.prefixOp op, Operator.prefixPrecedence, t.loc⟩ :: ops
    let sized (isSize : Bool) : ReadM (Turn (List Pending) (Expr × List Pending)) := do
      let _ ← next
      if ← peekIs .leftParen then
        if ← typeFollows then
          let ty ← parenthesizedType r
          return .done (← sizeConstant ty isSize t.loc, ops)
      return .again (push (if isSize then .sizeof else .alignof))
    match t.kind with
    | .keyword .sizeofKw => sized true
    | .keyword .alignofKw | .keyword .alignofAltKw => sized false
    | .punct .leftParen =>
      if ← typeFollows then return .again (push (.cast (← parenthesizedType r)))
      else return .done (← suffixed r, ops)
    | .punct p =>
      match Operator.ofPrefix? p with
      | some op => let _ ← next; return .again (push op)
      | none => return .done (← suffixed r, ops)
    | _ => return .done (← suffixed r, ops)

/-- The operator behind an operand, which reduces what binds tighter on its left. Without one the
expression ends. Between `?` and `:` a comma is an operator in any case. -/
def behindOperand (allowComma : Bool) (operands : List Expr) (ops : List Pending) :
    ReadM (Turn (List Expr × List Pending) Expr) := do
  let t ← peek
  let waiting := ops.any (·.op = .question)
  match t.kind with
  | .punct .colon =>
    if !waiting then return .done (← reduceAll operands ops)
    let _ ← next
    let (operands, ops) ← reduceWhile (·.op ≠ .question) operands ops
    return .again (operands, ⟨.conditional, 3, t.loc⟩ :: ops.tail)
  | .punct p =>
    match Operator.ofInfix? p with
    | none => return .done (← reduceAll operands ops)
    | some (op, precedence, right) =>
      if op = .comma && !allowComma && !waiting then return .done (← reduceAll operands ops)
      let _ ← next
      let (operands, ops) ← reduceWhile
        (fun q ↦ q.op ≠ .question &&
          (q.precedence > precedence || q.precedence = precedence && !right)) operands ops
      return .again (operands, ⟨op, precedence, t.loc⟩ :: ops)
  | _ => return .done (← reduceAll operands ops)

def expressionTurn (r : Readers) (allowComma : Bool) (waiting : List Expr × List Pending) :
    ReadM (Turn (List Expr × List Pending) Expr) := do
  let (e, ops) ← operand r waiting.2
  behindOperand allowComma (e :: waiting.1) ops

def expression (r : Readers) (allowComma : Bool) : ReadM Expr :=
  loop ([], []) (expressionTurn r allowComma)

end W16Compiler.Grammar
