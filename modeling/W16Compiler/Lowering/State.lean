import W16Compiler.Fault.Internal
import W16Compiler.Prim.Basic
import W16Compiler.Scope

/-!
# Writing nodes

The state in which the body of a function is lowered to primitive operations. Nodes are appended one
after another. A node that control cannot reach is written too, behind a label of its own, so that
every node is either reached from the one before it or labelled.

A jump that leaves a try statement goes through an exit of that statement. It ends the protection,
runs the cleanup and goes on towards the target, which may lie behind the exit of the next statement
further out. Exits and the shared return are written after the body.
-/

namespace W16Compiler.Lowering

/-- A loop or switch around the current statement. -/
structure Breakable where
  exit : Label
  next : Option Label
  scope : ScopeId

structure Context where
  types : TypeTable
  symbols : Symbols
  /-- How the result is represented if registers hold it. -/
  result : Option Rep := none
  /-- Whether the first argument points to where the result goes. -/
  hiddenResult : Bool := false
  paramScope : ScopeId := .global
  tries : List Bool := []
  cases : List Label := []
  /-- The last one of a name comes first. -/
  labels : List (String × Label × ScopeId) := []
  breakables : List Breakable := []

/-- A try statement whose code has been started. -/
structure TryState where
  record : SlotId
  cleanup : Option (Label × SlotId)
  /-- Where the cleanup goes on, in the order of the calls. -/
  resumes : List Label := []
  scope : ScopeId

/-- The way out of a try statement towards a label. -/
structure Exit where
  label : Label
  leaving : TryId
  target : Label
  scope : ScopeId

structure State where
  nextLabel : Nat
  loc : Location
  prims : Array (Item Prim) := #[]
  slots : Array Slot := #[]
  /-- Whether control goes on from the last node. -/
  reachable : Bool := true
  locals : List (DeclId × SlotId) := []
  /-- One entry for each try statement, of the latest time that it was started. -/
  tries : List (TryId × TryState) := []
  /-- The exits still to be written, the latest first. -/
  exits : List Exit := []
  exitLabels : List ((TryId × Label) × Label) := []
  returnLabel : Option Label := none
  returnSlot : Option SlotId := none

abbrev LowerM := ReaderT Context (StateT State (Except InternalFault))

variable {α : Type}

def fail (f : InternalFault) : LowerM α := throw f

/-! ## Nodes -/

def newLabel : LowerM Label :=
  modifyGet fun s ↦ (⟨s.nextLabel⟩, { s with nextLabel := s.nextLabel + 1 })

def push (p : Prim) : LowerM Unit :=
  modify fun s ↦ { s with prims := s.prims.push ⟨p, some s.loc⟩ }

def reachable : LowerM Bool := return (← get).reachable

/-- Appends a node, with a label before it if control would not reach it. -/
def emit (p : Prim) : LowerM Unit := do
  let labelled := p.definedLabel.isSome
  unless (← reachable) || labelled do push (.label (← newLabel))
  modify fun s ↦ { s with reachable := labelled || p.fallsThrough }
  push p

def mark (l : Label) : LowerM Unit := emit (.label l)

/-- Goes to a label, unless control is elsewhere already. -/
def jump (l : Label) : LowerM Unit := do
  if ← reachable then emit (.jump l)

def locate (loc : Location) : LowerM Unit := modify fun s ↦ { s with loc }

/-! ## Slots -/

def newSlot (words : Nat) (temp : Bool) : LowerM SlotId :=
  modifyGet fun s ↦ (⟨s.slots.size⟩, { s with slots := s.slots.push (.sized words temp) })

def newTemp (rep : Rep) : LowerM Place := return .slot (← newSlot rep.words true) 0

def repOf (type : TypeId) : LowerM Rep := return .ofType (← read).types type

def localSlot (decl : DeclId) : LowerM SlotId := do
  match (← get).locals.lookup decl with
  | some slot => return slot
  | none =>
    let c ← read
    let slot ← newSlot ((c.types.sizeOf (c.symbols.decl decl).type).getD 1) false
    modify fun s ↦ { s with locals := (decl, slot) :: s.locals }
    return slot

def variablePlace (decl : DeclId) : LowerM Place := do
  let d := (← read).symbols.decl decl
  match d.entity with
  | .variable _ _ (.global label) | .text _ label | .asmLabel _ label => return .global label 0
  | .variable _ _ (.param offset) => return .param offset
  | .variable _ _ .stack => return .slot (← localSlot decl) 0
  | _ => fail (.noStorage d.name)

/-! ## Leaving try statements -/

/-- The try statements whose cleanup runs on the way from `source` to `target`, the innermost
first. Leaving a handler matters only if there is a cleanup. -/
def crossing (source target : ScopeId) : LowerM (List TryId) := do
  let c ← read
  return (c.symbols.crossed source target).filterMap fun
    | .tryBody id => some id
    | .catchBody id => if (c.tries[id.index]?).getD false then some id else none
    | _ => none

def exitLabel (leaving : TryId) (target : Label) (scope : ScopeId) : LowerM Label := do
  match (← get).exitLabels.lookup (leaving, target) with
  | some label => return label
  | none =>
    let label ← newLabel
    modify fun s ↦
      let exitLabels := ((leaving, target), label) :: s.exitLabels
      { s with exitLabels, exits := ⟨label, leaving, target, scope⟩ :: s.exits }
    return label

/-- Goes from one scope to a label in another, through the exit of the innermost try statement that
is left. -/
def jumpTo (source : ScopeId) (target : Label) (scope : ScopeId) : LowerM Unit := do
  match ← crossing source scope with
  | [] => jump target
  | leaving :: _ => jump (← exitLabel leaving target scope)

/-- Starts a try statement. The code of an initializer is written for each object that it initializes;
what is known of an earlier copy is dropped then. -/
def startTry (id : TryId) (t : TryState) : State → State := fun s ↦
  { s with tries := (id, t) :: s.tries.filter (·.1 ≠ id) }

def addResume (id : TryId) (resume : Label) : State → State := fun s ↦
  let tries := s.tries.map fun (i, t) ↦
    (i, if i = id then { t with resumes := t.resumes ++ [resume] } else t)
  { s with tries }

def runCleanup (id : TryId) : LowerM Unit := do
  match ((← get).tries.lookup id).bind (·.cleanup) with
  | none => return
  | some (start, link) =>
    let resume ← newLabel
    emit (.cleanupCall start link resume)
    mark resume
    modify (addResume id resume)

def resultSlot (rep : Rep) : LowerM SlotId := do
  match (← get).returnSlot with
  | some slot => return slot
  | none =>
    let slot ← newSlot rep.words false
    modify fun s ↦ { s with returnSlot := some slot }
    return slot

def sharedReturn : LowerM Label := do
  match (← get).returnLabel with
  | some label => return label
  | none =>
    let label ← newLabel
    modify fun s ↦ { s with returnLabel := some label }
    return label

/-- Returns, or goes to the shared return through the exits of the try statements around. -/
def returnFrom (scope : ScopeId) (value : Option Operand) : LowerM Unit := do
  let c ← read
  let result := value.bind fun v ↦ c.result.map fun rep ↦ (v, rep)
  if (← crossing scope c.paramScope).isEmpty then emit (.ret result)
  else
    result.forM fun (v, rep) ↦ do emit (.assign rep (.slot (← resultSlot rep) 0) v)
    jumpTo scope (← sharedReturn) c.paramScope

/-! ## The end of a body -/

def writeExit (e : Exit) : LowerM Unit := do
  match (← get).tries.lookup e.leaving with
  | none => fail .unknownTry
  | some t =>
    mark e.label
    emit (.tryEnd t.record)
    runCleanup e.leaving
    jumpTo t.scope e.target e.scope

/-- Writes the exits, the latest first. An exit asks for at most one more, of a statement further
out. -/
def writeExitsWithin : Nat → LowerM Unit
  | 0 => fail .outOfSteps
  | fuel + 1 => do
    match (← get).exits with
    | [] => return
    | e :: rest =>
      modify fun s ↦ { s with exits := rest }
      writeExit e
      writeExitsWithin fuel

def writeExits : LowerM Unit := do
  let scopes := (← read).symbols.scopes.size
  writeExitsWithin ((← get).exits.length * (scopes + 1) + 1)

def writeReturn : LowerM Unit := do
  let s ← get
  let result := (← read).result
  s.returnLabel.forM fun label ↦ do
    mark label
    emit (.ret (s.returnSlot.bind fun slot ↦ result.map fun rep ↦ (.load (.slot slot 0), rep)))

/-- Writes what follows the body: a return if control gets there, the exits and the shared
return. -/
def close : LowerM Unit := do
  if ← reachable then emit (.ret none)
  writeExits
  writeReturn

/-- Tells the end of each cleanup where it can go on. Of the copies of a statement only the last one is
told. -/
def State.resolved (s : State) : List (Item Prim) :=
  s.prims.toList.map fun item ↦
    match item.value with
    | .cleanupReturn link resumes =>
      let state := s.tries.find? fun (_, t) ↦ t.cleanup.any (·.2 = link)
      { item with value := .cleanupReturn link ((state.map (·.2.resumes)).getD resumes) }
    | _ => item

end W16Compiler.Lowering
