import W16Compiler.Grammar.Object
import W16Compiler.Grammar.Specifier

/-!
# Statements

A block is read item by item. When a local variable has to be terminated, the rest of its block
becomes the body of a try statement whose cleanup does that.
-/

namespace W16Compiler.Grammar

/-- What a statement of the current scope knows of itself. -/
def info (loc : Location) : ReadM StmtInfo := return ⟨(← get).scope, loc⟩

def isDeclarationWord : Keyword → Bool
  | .typedefKw | .staticKw | .externKw | .autoKw | .registerKw | .virtualKw => true
  | k => isTypeWord k

/-- Whether a declaration comes next. The name of a type before a colon is a label. -/
def startsDeclaration : ReadM Bool := do
  match (← peek).kind with
  | .keyword k => return isDeclarationWord k
  | .ident name =>
    if ← isTypedefName name then return !(← peekNth 1).isPunct .colon else return false
  | _ => return false

/-! ## Local declarations -/

/-- A local variable that has to be terminated when its block is left. -/
structure Guarded where
  decl : DeclId
  id : StructId
  loc : Location

def guardedVariable (decl : DeclId) (loc : Location) : ReadM (List Guarded) := do
  let t := (← get).types
  let ty := (← declaration decl).type
  match t.asStruct ty with
  | some id => return if (t.structDef id).needsTerm then [⟨decl, id, loc⟩] else []
  | none => return []

def localDeclaration (r : Readers) : ReadM (List Stmt × List Guarded) := do
  let spec ← specifiers r
  if spec.isVirtual then grammatical spec.loc .virtualOutsideStruct
  if ← eat .semicolon then return ([], [])
  loop (([], []) : List Stmt × List Guarded) fun (stmts, guarded) ↦ do
    let d ← declarator r
    let (ty, params) ← applyDeclarator spec.type d
    if ← peekIsWord .asmKw then grammatical (← here) .asmOnLocal
    let (stmts, guarded) ← match ← declareObject r spec d ty params none true with
      | some (decl, stmt) => do
        pure (stmts ++ [stmt], guarded ++ (← guardedVariable decl stmt.loc))
      | none => pure (stmts, guarded)
    if ← eat .comma then return .again (stmts, guarded)
    let _ ← expect .semicolon
    return .done (stmts, guarded)

/-! ## Blocks -/

def newTry (hasCleanup : Bool) (loc : Location) : ReadM TryId := do
  let f ← functionState loc
  modifyFunction loc fun f ↦ { f with tries := f.tries.push hasCleanup }
  return ⟨f.tries.size⟩

/-- A try statement around the rest of a block. -/
structure Frame where
  id : TryId
  outer : ScopeId
  scope : ScopeId
  guarded : Guarded

def enterFrame (g : Guarded) : ReadM Frame := do
  let outer := (← get).scope
  let id ← newTry true g.loc
  let scope ← enterScope (.tryBody id)
  return ⟨id, outer, scope, g⟩

def terminate (g : Guarded) : TypingM Expr := do
  let label := ((← get).structDef g.id).termLabel
  let ty ← entered (·.structType g.id)
  let pointer ← entered (·.pointerTo ty)
  return .call ⟨.void, g.loc⟩ (.direct label) [.addressOf ⟨pointer, g.loc⟩ (.var ⟨ty, g.loc⟩ g.decl)]

def Frame.wrap (f : Frame) (body : List Stmt) : TypingM (List Stmt) := do
  let loc := f.guarded.loc
  let cleanup := Stmt.expr ⟨f.outer, loc⟩ (← terminate f.guarded)
  return [.tryStmt ⟨f.outer, loc⟩ f.id (.block ⟨f.scope, loc⟩ body) none (some cleanup)]

/-- A block broken off at variables that have to be terminated. -/
structure Level where
  items : List Stmt
  frames : List Frame

/-- Puts the rest of a block where it was broken off. -/
def Level.close (rest : List Stmt) (l : Level) : TypingM (List Stmt) := do
  return l.items ++ (← l.frames.reverse.foldlM (fun body f ↦ f.wrap body) rest)

def blockItems (r : Readers) : ReadM (List Stmt) :=
  loop (([], []) : List Stmt × List Level) fun (items, levels) ↦ do
    if ← eat .rightBrace then
      return .done (← (levels.foldlM Level.close items.reverse : TypingM (List Stmt)))
    if ← atEnd then unexpected "'\x7d'"
    if ← startsDeclaration then
      let (stmts, guarded) ← localDeclaration r
      let items := stmts.reverse ++ items
      if guarded.isEmpty then return .again (items, levels)
      let frames ← guarded.mapM enterFrame
      return .again ([], ⟨items.reverse, frames⟩ :: levels)
    return .again ((← r.statement) :: items, levels)

def compound (r : Readers) : ReadM Stmt := do
  let start ← expect .leftBrace
  let items ← inScope .block (blockItems r)
  return .block (← info start.loc) items

/-! ## Simple statements -/

def expressionStatement (r : Readers) : ReadM Stmt := do
  let loc ← here
  let e ← expression r true
  let _ ← expect .semicolon
  return .expr (← info loc) e

def parenthesizedCondition (r : Readers) : ReadM Expr := do
  let _ ← expect .leftParen
  let e ← expression r true
  let _ ← expect .rightParen
  condition e

def breakStatement (loc : Location) : ReadM Stmt := do
  let _ ← next
  let _ ← expect .semicolon
  if (← functionState loc).breakables.isEmpty then semantic loc .strayBreak
  return .breakLoop (← info loc)

def continueStatement (loc : Location) : ReadM Stmt := do
  let _ ← next
  let _ ← expect .semicolon
  if !(← functionState loc).breakables.any id then semantic loc .strayContinue
  return .continueLoop (← info loc)

def gotoStatement (loc : Location) : ReadM Stmt := do
  let _ ← next
  let (name, _) ← expectIdent
  let _ ← expect .semicolon
  let i ← info loc
  modifyFunction loc fun f ↦ { f with gotos := f.gotos.push (name, i.scope, loc) }
  return .goto i name

def returnStatement (r : Readers) (loc : Location) : ReadM Stmt := do
  let _ ← next
  let result := (← functionState loc).result
  let isVoid := (← get).types.isVoid result
  if ← eat .semicolon then
    if !isVoid then semantic loc .missingResult
    return .ret (← info loc) none
  let e ← expression r true
  let _ ← expect .semicolon
  if isVoid then
    if !(← get).types.isVoid e.type then semantic loc .unwantedResult
    return .ret (← info loc) (some e)
  let e ← convert e result
  return .ret (← info loc) (some e)

/-! ## Branches and loops -/

def branchStatement (r : Readers) (loc : Location) : ReadM Stmt := do
  let _ ← next
  let cond ← parenthesizedCondition r
  let yes ← r.statement
  let no ← if ← eatWord .elseKw then pure (some (← r.statement)) else pure none
  return .branch (← info loc) cond yes no

def breakableBody (r : Readers) (isLoop : Bool) (loc : Location) : ReadM Stmt := do
  modifyFunction loc fun f ↦ { f with breakables := isLoop :: f.breakables }
  let body ← attempt r.statement
  modifyFunction loc fun f ↦ { f with breakables := f.breakables.tail }
  ofExcept body

def whileStatement (r : Readers) (loc : Location) : ReadM Stmt := do
  let _ ← next
  let cond ← parenthesizedCondition r
  let body ← breakableBody r true loc
  return .whileLoop (← info loc) cond body

def doStatement (r : Readers) (loc : Location) : ReadM Stmt := do
  let _ ← next
  let body ← breakableBody r true loc
  if !(← eatWord .whileKw) then unexpected "'while'"
  let cond ← parenthesizedCondition r
  let _ ← expect .semicolon
  return .doLoop (← info loc) body cond

def forInit (r : Readers) (loc : Location) : ReadM (Option Stmt) := do
  if ← eat .semicolon then return none
  if ← startsDeclaration then
    let (stmts, guarded) ← localDeclaration r
    if !guarded.isEmpty then semantic loc .loopVariableTerm
    return some (.block (← info loc) stmts)
  return some (← expressionStatement r)

def forStatement (r : Readers) (loc : Location) : ReadM Stmt := do
  let _ ← next
  let _ ← expect .leftParen
  let i ← info loc
  inScope .block do
    let init ← forInit r loc
    let cond ← if ← peekIs .semicolon then pure none
      else pure (some (← condition (← expression r true)))
    let _ ← expect .semicolon
    let step ← if ← peekIs .rightParen then pure none else pure (some (← expression r true))
    let _ ← expect .rightParen
    let body ← breakableBody r true loc
    return .forLoop i init cond step body

/-! ## Switches -/

def switchStatement (r : Readers) (loc : Location) : ReadM Stmt := do
  let _ ← next
  let _ ← expect .leftParen
  let e ← expression r true
  let _ ← expect .rightParen
  let e ← decay e
  let t := (← get).types
  if !t.isInteger e.type then semantic loc .switchNotInteger
  let valueType := t.promote e.type
  let value ← convert e valueType
  let i ← info loc
  modifyFunction loc fun f ↦ { f with switches := { valueType, scope := i.scope } :: f.switches }
  let body ← attempt (breakableBody r false loc)
  match (← functionState loc).switches with
  | [] => internal .switchLost
  | s :: rest =>
    modifyFunction loc fun f ↦ { f with switches := rest }
    return .switch i value (← ofExcept body) s.cases s.default

def currentSwitch (loc : Location) : ReadM SwitchState := do
  match (← functionState loc).switches with
  | s :: _ => return s
  | [] => semantic loc .strayCase

/-- The number of a new case marker. It must not stand in a try statement inside its switch. -/
def caseMarker (loc : Location) : ReadM Nat := do
  let switch ← currentSwitch loc
  let s ← get
  if !(s.symbols.crossed s.scope switch.scope).isEmpty then semantic loc .caseInTry
  let n := (← functionState loc).cases
  modifyFunction loc fun f ↦ { f with cases := n + 1 }
  return n

def setSwitch (loc : Location) (s : SwitchState) : ReadM Unit :=
  modifyFunction loc fun f ↦ { f with switches := s :: f.switches.tail }

def labeled (r : Readers) (loc : Location) : ReadM Stmt := do
  if ← peekIs .rightBrace then return .empty (← info loc) else r.statement

def markedStatement (r : Readers) (marker : Nat) (loc : Location) : ReadM Stmt := do
  let _ ← expect .colon
  let i ← info loc
  return .block i [.caseMarker i marker, ← labeled r loc]

def caseStatement (r : Readers) (loc : Location) : ReadM Stmt := do
  let _ ← next
  let e ← expression r false
  let valueType := (← currentSwitch loc).valueType
  let v := wrapTo (← get).types valueType (← constInt e)
  let marker ← caseMarker loc
  let switch ← currentSwitch loc
  if switch.cases.any (·.1 = v) then semantic loc (.duplicateCase v)
  setSwitch loc { switch with cases := switch.cases ++ [(v, marker)] }
  markedStatement r marker loc

def defaultStatement (r : Readers) (loc : Location) : ReadM Stmt := do
  let _ ← next
  let marker ← caseMarker loc
  let switch ← currentSwitch loc
  if switch.default.isSome then semantic loc .manyDefaults
  setSwitch loc { switch with default := some marker }
  markedStatement r marker loc

/-! ## Exceptions -/

def caughtType (r : Readers) : ReadM TypeId := do
  let spec ← specifiers r
  loop spec.type fun ty ↦ do
    if !(← eat .star) then return .done ty
    let _ ← qualifiers
    return .again (← entered (·.pointerTo ty))

def catchVariable (r : Readers) (loc : Location) : ReadM DeclId := do
  let hidden := declareHidden "__exc" (.variable .int .none .stack) loc
  if !(← eat .leftParen) then return ← hidden
  if ← eat .ellipsis then
    let _ ← expect .rightParen
    return ← hidden
  let ty ← caughtType r
  let nameLoc ← here
  let name ← eatIdent
  let t := (← get).types
  if t.sizeOf ty ≠ some 1 || !t.isScalar ty then semantic loc (.caughtType (t.display ty))
  let _ ← expect .rightParen
  match name with
  | some name => declare name (.variable ty .none .stack) nameLoc
  | none => hidden

def catchClause (r : Readers) (loc : Location) : ReadM Handler := do
  let var ← catchVariable r loc
  modifyFunction loc fun f ↦ { f with catches := var :: f.catches }
  let body ← attempt r.compound
  modifyFunction loc fun f ↦ { f with catches := f.catches.tail }
  return .mk var (← ofExcept body)

def tryStatement (r : Readers) (loc : Location) : ReadM Stmt := do
  let _ ← next
  let id ← newTry false loc
  let body ← inScope (.tryBody id) r.compound
  let handler ← if ← eatWord .catchKw then
      pure (some (← inScope (.catchBody id) (catchClause r loc)))
    else pure none
  if ← peekIsWord .catchKw then semantic (← here) .manyCatches
  let cleanup ← if ← eatWord .finallyKw then pure (some (← r.compound)) else pure none
  if handler.isNone && cleanup.isNone then grammatical loc .tryWithoutHandler
  modifyFunction loc fun f ↦ { f with tries := f.tries.setIfInBounds id.index cleanup.isSome }
  return .tryStmt (← info loc) id body handler cleanup

def throwStatement (r : Readers) (loc : Location) : ReadM Stmt := do
  let _ ← next
  if ← eat .semicolon then
    match (← functionState loc).catches with
    | [] => semantic loc .strayRethrow
    | var :: _ => return .throwStmt (← info loc) (.var ⟨(← declaration var).type, loc⟩ var)
  let e ← expression r true
  let _ ← expect .semicolon
  let e ← decay e
  let t := (← get).types
  let ty := if t.isInteger e.type then t.promote e.type else t.unqualified e.type
  if t.sizeOf ty ≠ some 1 || !t.isScalar ty then semantic loc (.thrownType (t.display e.type))
  let e ← convert e ty
  return .throwStmt (← info loc) e

/-! ## Any statement -/

def labelStatement (r : Readers) (name : String) (loc : Location) : ReadM Stmt := do
  let _ ← next
  let _ ← next
  let i ← info loc
  if let some (_, prior) := (← functionState loc).labels.lookup name then
    semantic loc (.redefinition name prior)
  modifyFunction loc fun f ↦ { f with labels := (name, i.scope, loc) :: f.labels }
  return .label i name (← labeled r loc)

def keywordStatement (r : Readers) (k : Keyword) (loc : Location) : ReadM Stmt :=
  match k with
  | .ifKw => branchStatement r loc
  | .whileKw => whileStatement r loc
  | .doKw => doStatement r loc
  | .forKw => forStatement r loc
  | .switchKw => switchStatement r loc
  | .caseKw => caseStatement r loc
  | .defaultKw => defaultStatement r loc
  | .breakKw => breakStatement loc
  | .continueKw => continueStatement loc
  | .gotoKw => gotoStatement loc
  | .returnKw => returnStatement r loc
  | .tryKw => tryStatement r loc
  | .throwKw => throwStatement r loc
  | .catchKw | .finallyKw => grammatical loc (.handlerWithoutTry k.spelling)
  | .elseKw => grammatical loc .elseWithoutIf
  | _ => expressionStatement r

def plainStatement (r : Readers) : ReadM Stmt := do
  let t ← peek
  match t.kind with
  | .punct .leftBrace => compound r
  | .punct .semicolon => let _ ← next; return .empty (← info t.loc)
  | .keyword k => keywordStatement r k t.loc
  | .ident name =>
    if (← peekNth 1).isPunct .colon then labelStatement r name t.loc else expressionStatement r
  | _ => expressionStatement r

def statement (r : Readers) : ReadM Stmt := nested (plainStatement r)

end W16Compiler.Grammar
