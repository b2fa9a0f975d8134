import W16Compiler.Grammar.Initializer

/-!
# Declared objects and functions

What a declarator declares in its scope, and the storage of objects that live as long as the program.
-/

namespace W16Compiler.Grammar

def redefined {α : Type} (name : String) (loc : Location) (prior : DeclId) : ReadM α := do
  semantic loc (.redefinition name (← declaration prior).loc)

def qualifiedFunction (owner : String) (ownerLoc : Location) (name : String) (loc : Location)
    (ty : TypeId) : ReadM (DeclId × Option StructId) := do
  let t := (← get).types
  match ← lookupTag owner with
  | some (.struct id) =>
    let d := t.structDef id
    if !d.complete then semantic ownerLoc (.notStruct owner)
    match d.methods.find? (·.name == name) with
    | some m => if m.fnType = ty then return (m.decl, some id) else semantic loc (.conflictingTypes owner name)
    | none => semantic loc (.noMemberFunction name owner)
  | _ => semantic ownerLoc (.notStruct owner)

/-- Declares a function, perhaps once more, and answers the struct it is a member of. -/
def declareFunction (spec : Specifiers) (d : Declarator) (ty : TypeId) (params : Option (List Param))
    (asm : Option String) : ReadM (DeclId × Option StructId) := do
  match d.name with
  | none => unexpected "function name"
  | some (name, loc) =>
    if let some (owner, ownerLoc) := d.owner then
      return ← qualifiedFunction owner ownerLoc name loc ty
    let names := (params.getD []).filterMap (·.name)
    match ← lookupLocal name with
    | some prior =>
      match (← declaration prior).entity with
      | .function priorType storage label defined memberOf priorNames =>
        if priorType ≠ ty then redefined name loc prior
        let names := if params.isSome then names else priorNames
        let entity := Entity.function priorType storage label defined memberOf names
        modify fun s ↦ { s with symbols := s.symbols.setEntity prior entity }
        return (prior, none)
      | _ => redefined name loc prior
    | none =>
      return (← declare name (.function ty spec.storage (asm.getD name) false none names) loc, none)

def declareTypedef (name : String) (ty : TypeId) (loc : Location) : ReadM Unit := do
  match ← lookupLocal name with
  | some prior =>
    if (← declaration prior).entity ≠ .typedef ty then redefined name loc prior
  | none => let _ ← declare name (.typedef ty) loc

/-! ## Static storage -/

def innermostElement (t : TypeTable) : Nat → TypeId → TypeId
  | 0, ty => ty
  | fuel + 1, ty =>
    match t.element ty with
    | some element => innermostElement t fuel element
    | none => ty

def checkArrayElements (ty : TypeId) (loc : Location) : ReadM Unit := do
  let t := (← get).types
  if t.isArray ty then
    if let some id := t.asStruct (innermostElement t t.size ty) then
      let d := t.structDef id
      if d.needsInit || d.needsTerm then semantic loc (.arrayConstruction d.name)

/-- Whether a variable of one type may be declared again with another: arrays may differ in length. -/
def compatibleTypes (t : TypeTable) (a b : TypeId) : Bool :=
  a = b || match t.element a, t.element b with
    | some x, some y => x = y
    | _, _ => false

def priorStatic (name : String) (ty : TypeId) (loc : Location) : ReadM (Option (DeclId × String)) := do
  match ← lookupLocal name with
  | none => return none
  | some prior =>
    match (← declaration prior).entity with
    | .variable priorType _ (.global label) =>
      if compatibleTypes (← get).types priorType ty then return some (prior, label)
      else redefined name loc prior
    | _ => redefined name loc prior

/-- A static constant of arithmetic type is a value without storage. -/
def declareNumeric (r : Readers) (name : String) (ty : TypeId) (loc : Location) : ReadM Unit := do
  let _ ← next
  let e ← convert (← expression r false) ty
  let value ← match ← constantOf e with
    | some (.int v) => pure (Constant.int v)
    | some (.float x) => pure (Constant.float x)
    | _ => semantic e.loc .notConstant
  checkRedefinition name loc
  let _ ← declare name (.numeric ty value) loc

/-- A static constant array of characters shares no storage with variables. -/
def declareText (r : Readers) (name : String) (ty : TypeId) (loc : Location) : ReadM Unit := do
  let _ ← next
  let label ← dataLabel
  let (ty, words) ← staticInitializer r ty loc
  addData { DataItem.initialized label .const words false with loc := some loc }
  let _ ← declare name (.text ty label) loc

def putData (place : Option Nat) (item : DataItem) : ReadM Unit :=
  match place with
  | some i => modify fun s ↦ { s with data := s.data.setIfInBounds i item }
  | none => addData item

/-- The words of a static object with an initializer. A second initializer is refused. -/
def defineInitialized (r : Readers) (name : String) (decl : DeclId) (label : String) (ty : TypeId)
    (place : Section) (exported : Bool) (existing : Option Nat) (loc : Location) : ReadM Unit := do
  let data := (← get).data
  if let some item := existing.bind (data[·]?) then
    if item.place ≠ .bss then redefined name loc decl
  let _ ← next
  let (ty, words) ← staticInitializer r ty loc
  setVariableType decl ty
  putData existing { DataItem.initialized label place words exported with loc := some loc }

/-- The storage of a static object without an initializer. An array of unknown length at the top
level is completed elsewhere. -/
def defineZeroed (name : String) (label : String) (ty : TypeId) (place : Section) (exported isLocal : Bool)
    (loc : Location) : ReadM Unit := do
  let t := (← get).types
  match t.sizeOf ty with
  | none =>
    if isLocal || !t.isArray ty then semantic loc (.incompleteVariable name (t.display ty))
  | some size =>
    let item ←
      if t.needsInitType ty then
        match t.asStruct ty with
        | some id => pure (DataItem.initialized label place (← structImage id true loc) exported)
        | none => pure (DataItem.zeroed label size exported)
      else pure (DataItem.zeroed label size exported)
    addData { item with loc := some loc }

/-- A variable at the top level, or a static or external one in a function. -/
def declareStatic (r : Readers) (spec : Specifiers) (name : String) (ty : TypeId) (isLocal : Bool)
    (loc : Location) : ReadM Unit := do
  checkArrayElements ty loc
  let prior ← priorStatic name ty loc
  let hasInit ← peekIs .assign
  if spec.storage = .external then
    if hasInit then semantic loc (.externInitializer name)
    if prior.isNone then let _ ← declare name (.variable ty .external (.global name)) loc
    return
  let t := (← get).types
  let isConst := t.isConst ty || ((t.element ty).map t.isConst).getD false
  if spec.storage = .static && isConst && hasInit && prior.isNone then
    if t.isArith ty then return ← declareNumeric r name ty loc
    if ((t.element ty).map (isCharacter t)).getD false then
      if (← peekNth 1).kind matches .str _ then return ← declareText r name ty loc
  let (decl, label) ← match prior with
    | some found => pure found
    | none => do
      let label ← if isLocal then dataLabel else pure name
      pure (← declare name (.variable ty spec.storage (.global label)) loc, label)
  let exported := !isLocal && spec.storage ≠ .static
  let place := if isConst then Section.const else .data
  let existing := (← get).data.findIdx? (·.label == label)
  if hasInit then defineInitialized r name decl label ty place exported existing loc
  else if existing.isNone then defineZeroed name label ty place exported isLocal loc

/-! ## Any object -/

def declareAutomatic (r : Readers) (spec : Specifiers) (name : String) (ty : TypeId) (loc : Location) :
    ReadM (DeclId × Stmt) := do
  checkArrayElements ty loc
  checkRedefinition name loc
  let decl ← declare name (.variable ty spec.storage .stack) loc
  let (ty, init) ← localInitializer r ty loc
  setVariableType decl ty
  let s ← get
  if (s.types.sizeOf ty).isNone then semantic loc (.incompleteVariable name (s.types.display ty))
  markTypeUsed ty
  return (decl, .localVar ⟨s.scope, loc⟩ decl init)

/-- What one declarator declares, other than a function with its body. Answers the definition of a
variable in the frame. -/
def declareObject (r : Readers) (spec : Specifiers) (d : Declarator) (ty : TypeId)
    (params : Option (List Param)) (asm : Option String) (isLocal : Bool) :
    ReadM (Option (DeclId × Stmt)) := do
  match d.name with
  | none => unexpected "identifier"
  | some (name, loc) =>
    if let some (_, ownerLoc) := d.owner then grammatical ownerLoc .qualifiedDeclaration
    if spec.storage = .typedef then
      if asm.isSome then grammatical loc .asmOnTypedef
      declareTypedef name ty loc
      return none
    if (← get).types.isFunction ty then
      let _ ← declareFunction spec d ty params asm
      return none
    if (← get).types.isVoid ty then semantic loc (.voidVariable name)
    if let some label := asm then
      checkRedefinition name loc
      let _ ← declare name (.asmLabel ty label) loc
      return none
    if !isLocal || spec.storage = .static || spec.storage = .external then
      declareStatic r spec name ty isLocal loc
      return none
    return some (← declareAutomatic r spec name ty loc)

end W16Compiler.Grammar
