import W16Compiler.Grammar.Readers

/-!
# Function bodies

A body has its parameters in a scope of their own. Its gotos are checked once all labels are known.
-/

namespace W16Compiler.Grammar

def declareParam (declares : String → Entity → Location → ReadM DeclId) (name : String) (ty : TypeId)
    (offset : Nat) (loc : Location) : ReadM DeclId :=
  declares name (.variable ty .none (.param offset)) loc

def declareParams : Nat → List Param → ReadM (List DeclId)
  | _, [] => return []
  | offset, p :: rest => do
    match p.name with
    | none => grammatical p.loc .unnamedParameter
    | some name =>
      match (← get).types.sizeOf p.type with
      | none => semantic p.loc (.incompleteParameter name)
      | some size =>
        checkRedefinition name p.loc
        markTypeUsed p.type
        let id ← declareParam declare name p.type offset p.loc
        return id :: (← declareParams (addWords offset size) rest)

/-- A goto needs its label, and must not lead into a try statement. -/
def checkGotos (f : FunctionState) : ReadM Unit :=
  f.gotos.forM fun (name, scope, loc) ↦ do
    match f.labels.lookup name with
    | none => semantic loc (.undefinedLabel name)
    | some (target, _) =>
      if !((← get).symbols.crossed target scope).isEmpty then semantic loc (.gotoIntoTry name)

def declareThis (offset : Nat) (loc : Location) (id : StructId) : ReadM DeclId := do
  let ty ← entered (·.structType id)
  declareParam declare "this" (← entered (·.pointerTo ty)) offset loc

structure Heading where
  decl : DeclId
  label : String
  exported : Bool
  result : TypeId
  params : List Param
  owner : Option StructId
  loc : Location

def hiddenParameter (h : Heading) : ReadM (List DeclId) := do
  if (← get).types.returnsInMemory h.result then
    let ty ← entered (·.pointerTo h.result)
    return [← declareParam declareHidden "__result" ty 0 h.loc]
  else return []

/-- Declares the pointer to a result in memory, the object and the parameters, one behind the other. -/
def parameters (h : Heading) : ReadM (List DeclId × List DeclId × List DeclId) := do
  let hidden ← hiddenParameter h
  let this ← h.owner.toList.mapM (declareThis hidden.length h.loc)
  return (hidden, this, ← declareParams (hidden.length + this.length) h.params)

def definition (r : Readers) (h : Heading) : ReadM FunctionDef := do
  let paramScope := (← get).scope
  let (hidden, this, params) ← parameters h
  modify fun s ↦ { s with function := some { result := h.result, this := this.head?.bind fun d ↦ h.owner.map (d, ·) } }
  let body ← r.compound
  match (← get).function with
  | none => internal .functionLost
  | some f =>
    modify fun s ↦ { s with function := none }
    checkGotos f
    return { decl := h.decl, label := h.label, exported := h.exported, result := h.result,
             params := hidden ++ this ++ params, hiddenResult := !hidden.isEmpty, body, paramScope,
             tries := f.tries.toList, cases := f.cases, loc := h.loc }

def functionBody (r : Readers) (decl : DeclId) (params : List Param) (owner : Option StructId)
    (loc : Location) : ReadM Unit := do
  let d ← declaration decl
  match d.entity with
  | .function ty storage label defined memberOf names =>
    if defined then semantic loc (.redefinition d.name d.loc)
    modify fun s ↦ { s with symbols := s.symbols.modifyDecl decl fun d ↦
      { d with entity := .function ty storage label true memberOf names, loc } }
    let t := (← get).types
    match t.kind ty with
    | .function result _ _ =>
      if !t.isVoid result && (t.sizeOf result).isNone then semantic loc .incompleteResult
      let outer := (← get).scope
      setScope ((owner.bind fun id ↦ (t.structDef id).scope).getD .global)
      let _ ← enterScope .param
      let heading : Heading :=
        { decl, label, exported := storage ≠ .static, result, params, owner, loc }
      let f ← attempt (definition r heading)
      modify fun s ↦ { s with scope := outer, function := none }
      let f ← ofExcept f
      modify fun s ↦ { s with functions := s.functions.push f }
    | _ => internal .declarationWithoutFunctionType
  | _ => internal .bodyOfNonFunction

end W16Compiler.Grammar
