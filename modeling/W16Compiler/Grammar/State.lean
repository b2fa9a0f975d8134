import W16Compiler.Grammar.Typing
import W16Compiler.Prim.Basic
import W16Compiler.Token.Stream
import W16Compiler.Unit

/-!
# The state of a reader

A reader goes over the tokens once and builds typed trees. What it has declared stays declared when
a declaration fails.
-/

namespace W16Compiler.Grammar

/-- The deepest nesting of statements and parenthesized expressions. -/
def maxNesting : Nat := 64

structure SwitchState where
  valueType : TypeId
  scope : ScopeId
  /-- Values and markers in the order of the source. -/
  cases : List (Int × Nat) := []
  default : Option Nat := none

/-- What is known of the function around the current statement. -/
structure FunctionState where
  result : TypeId
  this : Option (DeclId × StructId)
  tries : Array Bool := #[]
  cases : Nat := 0
  /-- The loops and switches around, the innermost first; set for a loop. -/
  breakables : List Bool := []
  switches : List SwitchState := []
  labels : List (String × ScopeId × Location) := []
  gotos : Array (String × ScopeId × Location) := #[]
  /-- The variables of the handlers around, the innermost first. -/
  catches : List DeclId := []

structure State where
  tokens : TokenStream
  types : TypeTable := .initial
  symbols : Symbols := {}
  nextLabel : Nat := 1
  functions : Array FunctionDef := #[]
  data : Array DataItem := #[]
  scope : ScopeId := .global
  function : Option FunctionState := none
  /-- How many structs without a name there are. -/
  anonymous : Nat := 0
  depth : Nat := 0

abbrev ReadM := ExceptT Diagnostic (StateM State)

variable {α β : Type}

instance : MonadLiftT TypingM ReadM where
  monadLift act := fun s ↦
    let (r, types) := act s.symbols s.types
    (r, { s with types })

def semantic (loc : Location) (f : SemanticFault) : ReadM α := throw (.semantic loc f)

def grammatical (loc : Location) (f : GrammarFault) : ReadM α := throw (.grammatical loc f)

def internal (f : InternalFault) : ReadM α := throw (.internal f)

/-- Answers also how an action failed, so that something can be put right after it. -/
def attempt (act : ReadM α) : ReadM (Except Diagnostic α) := ExceptT.lift act.run

/-! ## Loops -/

inductive Turn (α β : Type) where
  | again (a : α)
  | done (b : β)

def loopWithin (step : α → ReadM (Turn α β)) : Nat → α → ReadM β
  | 0, _ => internal .outOfSteps
  | fuel + 1, a => do
    match ← step a with
    | .again a => loopWithin step fuel a
    | .done b => return b

/-- Repeats a step that takes at least one token whenever it asks for another turn. -/
def loop (a : α) (step : α → ReadM (Turn α β)) : ReadM β := do
  loopWithin step ((← get).tokens.remaining + 1) a

/-! ## Tokens -/

def onTokens (f : TokenStream → α × TokenStream) : ReadM α :=
  modifyGet fun s ↦ let (a, tokens) := f s.tokens; (a, { s with tokens })

def ofFailure : Except TokenStream.Failure α → ReadM α
  | .ok a => return a
  | .error (loc, f) => grammatical loc f

def peek : ReadM Token := return (← get).tokens.peek

def peekIs (p : Punct) : ReadM Bool := return (← peek).isPunct p

def peekIsWord (k : Keyword) : ReadM Bool := return (← peek).isKeyword k

def peekNth (n : Nat) : ReadM Token := onTokens (·.peekNth n)

def atEnd : ReadM Bool := return (← get).tokens.atEnd

def next : ReadM Token := onTokens (·.next)

def eat (p : Punct) : ReadM Bool := onTokens (·.eat p)

def eatWord (k : Keyword) : ReadM Bool := onTokens (·.eatKeyword k)

def expect (p : Punct) : ReadM Token := do ofFailure (← onTokens (·.expect p))

def expectIdent : ReadM (String × Location) := do ofFailure (← onTokens (·.expectIdent))

def eatIdent : ReadM (Option String) := do
  match (← peek).kind with
  | .ident name => let _ ← next; return some name
  | _ => return none

def here : ReadM Location := return (← peek).loc

def unexpected (what : String) : ReadM α := do
  let t ← peek
  grammatical t.loc (.expected what t.kind.text)

def nested (act : ReadM α) : ReadM α := do
  if (← get).depth ≥ maxNesting then grammatical (← here) .nestingTooDeep
  modify fun s ↦ { s with depth := s.depth + 1 }
  let r ← attempt act
  modify fun s ↦ { s with depth := s.depth - 1 }
  ofExcept r

/-! ## Names, scopes and labels -/

def onSymbols (f : Symbols → α × Symbols) : ReadM α :=
  modifyGet fun s ↦ let (a, symbols) := f s.symbols; (a, { s with symbols })

def declaration (id : DeclId) : ReadM Declaration := return (← get).symbols.decl id

def declare (name : String) (entity : Entity) (loc : Location) : ReadM DeclId := do
  let scope := (← get).scope
  onSymbols (·.declare ⟨name, entity, scope, loc⟩)

def declareHidden (name : String) (entity : Entity) (loc : Location) : ReadM DeclId := do
  let scope := (← get).scope
  onSymbols (·.declareHidden ⟨name, entity, scope, loc⟩)

def lookupLocal (name : String) : ReadM (Option DeclId) := do
  let s ← get
  return s.symbols.lookupLocal s.scope name

def lookupTag (name : String) : ReadM (Option Tag) := do
  let s ← get
  return s.symbols.lookupTag s.scope name

def setVariableType (id : DeclId) (ty : TypeId) : ReadM Unit :=
  modify fun s ↦ { s with symbols := s.symbols.modifyDecl id fun d ↦
    match d.entity with
    | .variable _ storage place => { d with entity := .variable ty storage place }
    | _ => d }

def checkRedefinition (name : String) (loc : Location) : ReadM Unit := do
  if let some prior ← lookupLocal name then
    semantic loc (.redefinition name (← declaration prior).loc)

def isTypedefName (name : String) : ReadM Bool := do
  let s ← get
  return match s.symbols.lookup s.scope name with
    | some (_, d) => (s.symbols.decl d).isTypedef
    | none => false

def setScope (scope : ScopeId) : ReadM Unit := modify fun s ↦ { s with scope }

def enterScope (kind : ScopeKind) : ReadM ScopeId := do
  let outer := (← get).scope
  let id ← onSymbols (·.pushScope kind outer)
  setScope id
  return id

/-- Runs an action in a new scope and comes back to the one around it. -/
def inScope (kind : ScopeKind) (act : ReadM α) : ReadM α := do
  let outer := (← get).scope
  let _ ← enterScope kind
  let a ← act
  setScope outer
  return a

def dataLabel : ReadM String :=
  modifyGet fun s ↦ ((⟨s.nextLabel⟩ : Label).text, { s with nextLabel := s.nextLabel + 1 })

def addData (item : DataItem) : ReadM Unit := modify fun s ↦ { s with data := s.data.push item }

def functionState (loc : Location) : ReadM FunctionState := do
  match (← get).function with
  | some f => return f
  | none => grammatical loc .statementOutsideFunction

def modifyFunction (loc : Location) (f : FunctionState → FunctionState) : ReadM Unit := do
  let state ← functionState loc
  modify fun s ↦ { s with function := some (f state) }

end W16Compiler.Grammar
