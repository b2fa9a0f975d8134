import W16Compiler.Constant.Fold
import W16Compiler.Diagnostic

/-!
# Typed nodes

Each operator checks the types of its operands, converts them, and gives a node of its result type;
constant nodes are replaced by their values. New types may be entered on the way.
-/

namespace W16Compiler.Grammar

abbrev TypingM := ReaderT Symbols (ExceptT Diagnostic (StateM TypeTable))

def typeFault {α : Type} (loc : Location) (f : SemanticFault) : TypingM α := throw (.semantic loc f)

def entered {α : Type} (f : TypeTable → α × TypeTable) : TypingM α := modifyGet f

def shown (ty : TypeId) : TypingM String := return (← get).display ty

def constantOf (e : Expr) : TypingM (Option Constant) := return fold (← get) (← read) e

def foldNode (e : Expr) : TypingM Expr := do
  let t ← get
  match ← constantOf e with
  | some (.int v) => return if t.isInteger e.type || t.isPointer e.type then .int e.info v else e
  | some (.float x) => return if t.isFloat e.type then .float e.info x else e
  | _ => return e

def decay (e : Expr) : TypingM Expr := do
  let t ← get
  match t.element e.type with
  | some element =>
    let ty ← entered (·.pointerTo element)
    match e with
    | .symbol .. => return e.withType ty
    | _ => return .addressOf ⟨ty, e.loc⟩ e
  | none =>
    if t.isFunction e.type then return e.withType (← entered (·.pointerTo (t.unqualified e.type)))
    else return e

def condition (e : Expr) : TypingM Expr := do
  let e ← decay e
  if (← get).isScalar e.type then return e
  else typeFault e.loc (.notScalar (← shown e.type))

def numericCast (e : Expr) (target : TypeId) : TypingM Expr := do
  let t ← get
  let target := t.unqualified target
  if t.unqualified e.type = target then return e else foldNode (.cast ⟨target, e.loc⟩ e)

/-- The conversion of assignments, initial values, arguments and results. -/
def convert (e : Expr) (target : TypeId) : TypingM Expr := do
  let e ← decay e
  let t ← get
  let hint := match ← constantOf e with
    | some (.int v) => if t.isInteger e.type then some (ConstantHint.int v) else none
    | some (.float x) => some (.float x)
    | _ => none
  match t.assignConversion e.type target hint with
  | .identity => return e
  | .numeric | .reinterpret => numericCast e (t.unqualified target)
  | .adjust offset => return .adjust ⟨t.unqualified target, e.loc⟩ e offset true
  | .invalid f => typeFault e.loc (.conversion f)

def cast (e : Expr) (target : TypeId) (loc : Location) : TypingM Expr := do
  let e ← decay e
  let t ← get
  let bare := t.unqualified target
  if (t.asStruct bare).isSome && t.unqualified e.type ≠ bare then typeFault loc .castToStruct
  match t.castConversion e.type target with
  | .identity => return e
  | .numeric | .reinterpret => foldNode (.cast ⟨bare, loc⟩ e)
  | .adjust offset => return .adjust ⟨bare, loc⟩ e offset true
  | .invalid .negation => throw (.internal (.overflow "negate"))
  | .invalid f => typeFault loc (.conversion f)

def constInt (e : Expr) : TypingM Int := do
  if (← get).isInteger e.type then
    if let some (.int v) ← constantOf e then return v
  typeFault e.loc .notIntegerConstant

def isNullConstant (t : TypeTable) (e : Expr) : Bool := t.isInteger e.type && e matches .int _ 0

/-! ## Binary operators -/

def isIntegerOnly : BinaryOp → Bool
  | .mod | .and | .or | .xor | .shl | .shr => true
  | _ => false

def isShift : BinaryOp → Bool
  | .shl | .shr => true
  | _ => false

def acceptsOperands (t : TypeTable) (op : BinaryOp) (lhs rhs : TypeId) : Bool :=
  if isIntegerOnly op then t.isInteger lhs && t.isInteger rhs else t.isArith lhs && t.isArith rhs

def pointeeSize (ty : TypeId) (loc : Location) : TypingM Nat := do
  let t ← get
  match (t.pointee ty).bind t.sizeOf with
  | some n => return n
  | none => typeFault loc (.incompletePointee (← shown ty))

def scaled (op : BinaryOp) (e : Expr) (factor : Nat) (loc : Location) : TypingM Expr :=
  if factor = 1 then return e
  else foldNode (.binary ⟨.int, loc⟩ op e (.ofInt factor loc))

def scaledIndex (index : Expr) (size : Nat) (loc : Location) : TypingM Expr := do
  if !(← get).isInteger index.type then typeFault loc .offsetNotInteger
  scaled .mul (← numericCast index .int) size loc

def pointerOffset (op : BinaryOp) (pointer index : Expr) (loc : Location) : TypingM Expr := do
  let size ← pointeeSize pointer.type loc
  let index ← scaledIndex index size loc
  foldNode (.binary ⟨(← get).unqualified pointer.type, loc⟩ op pointer index)

def pointerDifference (lhs rhs : Expr) (loc : Location) : TypingM Expr := do
  let t ← get
  let same := match t.pointee lhs.type, t.pointee rhs.type with
    | some a, some b => t.unqualified a = t.unqualified b
    | _, _ => false
  if !same then typeFault loc (.subtraction (← shown lhs.type) (← shown rhs.type))
  let size ← pointeeSize lhs.type loc
  let l ← numericCast lhs .int
  let r ← numericCast rhs .int
  scaled .div (← foldNode (.binary ⟨.int, loc⟩ .sub l r)) size loc

def isValid : Conversion → Bool
  | .invalid _ => false
  | _ => true

def comparison (op : BinaryOp) (lhs rhs : Expr) (loc : Location) : TypingM Expr := do
  let t ← get
  let (l, r) ←
    if t.isArith lhs.type && t.isArith rhs.type then
      let common := t.commonType lhs.type rhs.type
      pure (← numericCast lhs common, ← numericCast rhs common)
    else if t.isPointer lhs.type && t.isPointer rhs.type then
      if isValid (t.assignConversion rhs.type lhs.type none) ||
          isValid (t.assignConversion lhs.type rhs.type none) then
        pure (lhs, ← numericCast rhs (t.unqualified lhs.type))
      else typeFault loc (.comparison (← shown lhs.type) (← shown rhs.type))
    else if t.isPointer lhs.type && isNullConstant t rhs then
      pure (lhs, ← numericCast rhs (t.unqualified lhs.type))
    else if t.isPointer rhs.type && isNullConstant t lhs then
      pure (← numericCast lhs (t.unqualified rhs.type), rhs)
    else typeFault loc (.binaryOperands op.spelling (← shown lhs.type) (← shown rhs.type))
  foldNode (.binary ⟨.int, loc⟩ op l r)

def arithmetic (op : BinaryOp) (lhs rhs : Expr) (loc : Location) : TypingM Expr := do
  let t ← get
  if !acceptsOperands t op lhs.type rhs.type then
    typeFault loc (.binaryOperands op.spelling (← shown lhs.type) (← shown rhs.type))
  let (l, r) := if isShift op then (t.promote lhs.type, .int)
    else (t.commonType lhs.type rhs.type, t.commonType lhs.type rhs.type)
  foldNode (.binary ⟨l, loc⟩ op (← numericCast lhs l) (← numericCast rhs r))

def binary (op : BinaryOp) (lhs rhs : Expr) (loc : Location) : TypingM Expr := do
  let lhs ← decay lhs
  let rhs ← decay rhs
  let t ← get
  if op.isComparison then comparison op lhs rhs loc
  else
    match op, t.isPointer lhs.type, t.isPointer rhs.type with
    | .add, true, false => pointerOffset .add lhs rhs loc
    | .add, false, true => pointerOffset .add rhs lhs loc
    | .sub, true, false => pointerOffset .sub lhs rhs loc
    | .sub, true, true => pointerDifference lhs rhs loc
    | _, _, _ => arithmetic op lhs rhs loc

def logical (conjunction : Bool) (lhs rhs : Expr) (loc : Location) : TypingM Expr := do
  let lhs ← condition lhs
  let rhs ← condition rhs
  foldNode (.logical ⟨.int, loc⟩ conjunction lhs rhs)

def comma (first second : Expr) (loc : Location) : TypingM Expr := do
  let second ← decay second
  return .comma ⟨second.type, loc⟩ first second

/-! ## Assignment -/

def checkModifiable (e : Expr) (loc : Location) : TypingM Unit := do
  let t ← get
  if !e.isLvalue then typeFault loc .assignsRvalue
  if t.isConst e.type then typeFault loc .assignsConst
  if t.isArray e.type || t.isFunction e.type then typeFault loc (.cannotAssign (← shown e.type))
  if let .var _ d := e then
    if let .text .. := ((← read).decl d).entity then typeFault loc .assignsConst

def compoundAssign (op : BinaryOp) (lhs rhs : Expr) (loc : Location) : TypingM Expr := do
  let t ← get
  let ty := t.unqualified lhs.type
  let rhs ← decay rhs
  if t.isPointer ty && (op = .add || op = .sub) then
    let size ← pointeeSize ty loc
    return .compound ⟨ty, loc⟩ op lhs (← scaledIndex rhs size loc) ty
  let t ← get
  if !acceptsOperands t op ty rhs.type then
    typeFault loc (.compoundOperands op.spelling (← shown ty) (← shown rhs.type))
  if isShift op then return .compound ⟨ty, loc⟩ op lhs (← numericCast rhs .int) (t.promote ty)
  let opType := t.commonType ty rhs.type
  return .compound ⟨ty, loc⟩ op lhs (← numericCast rhs opType) opType

def assign (op : Option BinaryOp) (lhs rhs : Expr) (loc : Location) : TypingM Expr := do
  checkModifiable lhs loc
  match op with
  | some op => compoundAssign op lhs rhs loc
  | none =>
    let ty := (← get).unqualified lhs.type
    return .assign ⟨ty, loc⟩ lhs (← convert rhs ty)

def incDec (before increment : Bool) (e : Expr) (loc : Location) : TypingM Expr := do
  checkModifiable e loc
  let t ← get
  let ty := t.unqualified e.type
  let step ←
    if t.isPointer ty then pointeeSize ty loc
    else if t.isArith ty then pure 1
    else typeFault loc (.cannotIncrement (← shown ty))
  return .incDec ⟨ty, loc⟩ before increment e step

/-! ## The conditional operator -/

def joinArms (yes no : Expr) (loc : Location) : TypingM (Expr × Expr × TypeId) := do
  let t ← get
  if t.isArith yes.type && t.isArith no.type then
    let ty := t.commonType yes.type no.type
    return (← numericCast yes ty, ← numericCast no ty, ty)
  else if t.unqualified yes.type = t.unqualified no.type then
    return (yes, no, t.unqualified yes.type)
  else if t.isPointer yes.type && isNullConstant t no then
    let ty := t.unqualified yes.type
    return (yes, ← numericCast no ty, ty)
  else if t.isPointer no.type && isNullConstant t yes then
    let ty := t.unqualified no.type
    return (← numericCast yes ty, no, ty)
  else if t.isPointer yes.type && t.isPointer no.type then
    let target := if ((t.pointee yes.type).map t.isVoid).getD false then yes.type else no.type
    let yes ← convert yes target
    let no ← convert no target
    return (yes, no, (← get).unqualified target)
  else typeFault loc (.conditionalTypes (← shown yes.type) (← shown no.type))

def conditional (cond yes no : Expr) (loc : Location) : TypingM Expr := do
  let cond ← condition cond
  let yes ← decay yes
  let no ← decay no
  let (yes, no, ty) ← joinArms yes no loc
  match ← constantOf cond with
  | some c => return if c.truth then yes else no
  | none => return .conditional ⟨ty, loc⟩ cond yes no

/-! ## Unary operators -/

def addressOf (e : Expr) (loc : Location) : TypingM Expr := do
  let t ← get
  match e with
  | .symbol .. =>
    if t.isFunction e.type || t.isArray e.type then
      return e.withType (← entered (·.pointerTo e.type))
    else typeFault loc .addressOfRvalue
  | _ =>
    if !e.isLvalue then typeFault loc .addressOfRvalue
    return .addressOf ⟨← entered (·.pointerTo e.type), loc⟩ e

def dereference (e : Expr) (loc : Location) : TypingM Expr := do
  let e ← decay e
  let t ← get
  match t.pointee e.type with
  | none => typeFault loc (.cannotDereference (← shown e.type))
  | some ty =>
    if t.isVoid ty then typeFault loc .dereferencesVoid
    return .deref ⟨ty, loc⟩ e

def sizeConstant (ty : TypeId) (isSize : Bool) (loc : Location) : TypingM Expr := do
  let t ← get
  match t.sizeOf ty with
  | none => typeFault loc (.sizeofType (← shown ty))
  | some size =>
    return .int ⟨.uint, loc⟩ (if isSize then size else (t.alignOf ty).getD 1)

def promoted (integerOnly : Bool) (e : Expr) (loc : Location) : TypingM (Expr × TypeId) := do
  let e ← decay e
  let t ← get
  if !(if integerOnly then t.isInteger e.type else t.isArith e.type) then
    typeFault loc (.unaryOperand (← shown e.type))
  let ty := t.promote e.type
  return (← numericCast e ty, ty)

/-- The operators that stand before their operand. -/
inductive PrefixOp where
  | neg | plus | not | bitNot | addressOf | deref | preInc | preDec | sizeof | alignof
  | cast (type : TypeId)
  deriving DecidableEq

def unary (op : PrefixOp) (e : Expr) (loc : Location) : TypingM Expr := do
  match op with
  | .plus => return (← promoted false e loc).1
  | .neg =>
    let (e, ty) ← promoted false e loc
    foldNode (.unary ⟨ty, loc⟩ .neg e)
  | .bitNot =>
    let (e, ty) ← promoted true e loc
    foldNode (.unary ⟨ty, loc⟩ .bitNot e)
  | .not => foldNode (.unary ⟨.int, loc⟩ .logNot (← condition e))
  | .addressOf => addressOf e loc
  | .deref => dereference e loc
  | .preInc => incDec true true e loc
  | .preDec => incDec true false e loc
  | .sizeof | .alignof =>
    if (← get).isFunction e.type then typeFault loc .sizeofFunction
    sizeConstant e.type (op = .sizeof) loc
  | .cast ty => cast e ty loc

/-! ## Calls and members -/

def markTypeUsed (ty : TypeId) : TypingM Unit :=
  modify fun t ↦ match t.asStruct ty with
    | some id => t.markUsed id
    | none => t

def resultType (t : TypeTable) (ty : TypeId) : TypeId :=
  match t.kind ty with
  | .function result _ _ => result
  | _ => .void

def convertExtra (e : Expr) : TypingM Expr := do
  let e ← decay e
  let t ← get
  numericCast e <| match t.kind e.type with
    | .float _ => .double
    | .int .. => t.promote e.type
    | _ => t.unqualified e.type

def convertArgs : List TypeId → List Expr → TypingM (List Expr)
  | _, [] => return []
  | params, e :: rest => do
    let e ← match params.head? with
      | some p => convert e p
      | none => convertExtra e
    markTypeUsed e.type
    return e :: (← convertArgs params.tail rest)

def checkArgs (fnType : TypeId) (args : List Expr) (loc : Location) : TypingM (List Expr) := do
  match (← get).kind fnType with
  | .function _ params varargs =>
    if args.length < params.length || (!varargs && args.length > params.length) then
      typeFault loc (.argumentCount params.length args.length)
    convertArgs params args
  | _ => throw (.internal .callThroughNonFunction)

def adjustPointer (e : Expr) (offset : Int) (loc : Location) : Expr :=
  if offset = 0 then e else .adjust ⟨e.type, loc⟩ e offset false

/-- A call of a member function of the struct that `this` points to. For an object whose own type is
known, a virtual function needs no table. -/
def methodCall (this : Expr) (id : StructId) (name : String) (isObject : Bool) (args : List Expr)
    (loc : Location) : TypingM Expr := do
  match (← get).findMember id name with
  | some (.method _ offset m) =>
    if !m.isVirtual then
      let args ← checkArgs m.fnType args loc
      return .call ⟨resultType (← get) m.fnType, loc⟩ (.direct m.label)
        (adjustPointer this (wrap32 offset) loc :: args)
    match (← get).findSlot id name with
    | none => throw (.internal (.virtualWithoutSlot name))
    | some slot =>
      let args ← checkArgs slot.entry.fnType args loc
      let info : ExprInfo := ⟨resultType (← get) slot.entry.fnType, loc⟩
      if isObject then
        if slot.entry.isPure then typeFault loc (.pureCall name)
        return .call info (.direct slot.entry.label)
          (adjustPointer this (wrap32 slot.entry.implOffset) loc :: args)
      return .call info (.virtualSlot (adjustPointer this (wrap32 slot.pointerOffset) loc) slot.slot) args
  | _ => typeFault loc (.noSuchMethod name)

def call (callee : Expr) (args : List Expr) (loc : Location) : TypingM Expr := do
  let t ← get
  let (target, fnType) ← match callee, t.isFunction callee.type with
    | .symbol i label, true => pure (Callee.direct label, i.type)
    | _, _ => do
      let f ← decay callee
      let t ← get
      match t.pointee f.type with
      | some ty =>
        if t.isFunction ty then pure (Callee.indirect f, ty)
        else typeFault loc (.notFunction (← shown f.type))
      | none => typeFault loc (.notFunction (← shown f.type))
  let fnType := (← get).unqualified fnType
  let args ← checkArgs fnType args loc
  return .call ⟨resultType (← get) fnType, loc⟩ target args

end W16Compiler.Grammar
