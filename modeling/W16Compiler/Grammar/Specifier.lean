import W16Compiler.Grammar.Body
import W16Compiler.Grammar.Declarator

/-!
# Specifiers

What stands before the declarators: a storage class, qualifiers and a type, which may be a struct,
union or enumeration with its body. Bodies of member functions are put aside until their struct is
complete.
-/

namespace W16Compiler.Grammar

/-- The largest number of words that a byte counts. -/
def maxWords : Nat := 255

/-- Whether there are words. Their counts are added up in a byte. -/
def hasWords (words : List Keyword) : ReadM Bool := do
  if words.length > maxWords then internal (.overflow "add")
  return !words.isEmpty

/-- The type that words such as `unsigned long` name together. -/
def builtinType (words : List Keyword) : Except GrammarFault TypeId :=
  let n (k : Keyword) : Nat := words.count k
  let isUnsigned := n .unsignedKw > 0
  if words.isEmpty then .error .missingSpecifier
  else if n .signedKw > 1 || n .unsignedKw > 1 || (n .signedKw > 0 && isUnsigned) then
    .error .invalidSpecifiers
  else if n .signedKw + n .unsignedKw > 0 && n .voidKw + n .floatKw + n .doubleKw ≠ 0 then
    .error .invalidSpecifiers
  else if n .voidKw > 0 then
    if n .voidKw > 1 || n .charKw + n .shortKw + n .intKw + n .longKw + n .floatKw + n .doubleKw > 0
    then .error .invalidSpecifiers else .ok .void
  else if n .floatKw > 0 then
    if n .floatKw > 1 || n .charKw + n .shortKw + n .intKw + n .longKw + n .doubleKw > 0
    then .error .invalidSpecifiers else .ok .float
  else if n .doubleKw > 0 then
    if n .doubleKw > 1 || n .charKw + n .shortKw + n .intKw > 0 || n .longKw > 1
    then .error .invalidSpecifiers else .ok .double
  else if n .charKw > 0 then
    if n .charKw > 1 || n .shortKw + n .intKw + n .longKw > 0 then .error .invalidSpecifiers
    else .ok (if isUnsigned then .uchar else .char)
  else if n .longKw > 1 then .error .longLong
  else if n .intKw > 1 || n .shortKw > 1 || (n .shortKw > 0 && n .longKw > 0) then
    .error .invalidSpecifiers
  else if n .longKw = 1 then .ok (if isUnsigned then .ulong else .long)
  else .ok (if isUnsigned then .uint else .int)

/-! ## Enumerations -/

def enumerators (r : Readers) : ReadM Unit :=
  loop (0 : Int) fun value ↦ do
    if ← eat .rightBrace then return .done ()
    let (name, loc) ← expectIdent
    let value ← if ← eat .assign then constInt (← expression r false) else pure value
    if !(← get).types.intFits .int value then semantic loc (.enumeratorRange name)
    checkRedefinition name loc
    let _ ← declare name (.enumerator value) loc
    if ← eat .comma then return .again (value + 1)
    let _ ← expect .rightBrace
    return .done ()

def enumSpecifier (r : Readers) : ReadM TypeId := do
  let loc ← here
  let name ← eatIdent
  if ← eat .leftBrace then
    if let some n := name then
      let s ← get
      if let some (_, prior) := s.symbols.lookupTagLocal s.scope n then
        semantic loc (.redefinition n prior)
      set { s with symbols := s.symbols.declareTag s.scope n (.enum .int) loc }
    enumerators r
    return .int
  match name with
  | none => unexpected "'\x7b' after 'enum'"
  | some n =>
    match ← lookupTag n with
    | some (.enum ty) => return ty
    | _ => semantic loc (.undefinedEnum n)

/-! ## Members -/

/-- The body of a member function, put aside. -/
structure Deferred where
  decl : DeclId
  params : List Param
  start : Token
  body : List Token

structure Members where
  fields : Array Field := #[]
  methods : Array Method := #[]
  deferred : Array Deferred := #[]

def pureMark : ReadM Bool := do
  if !(← eat .assign) then return false
  let t ← next
  match t.kind with
  | .int 0 _ _ => return true
  | _ => grammatical t.loc .impurePureSpecifier

def memberFunction (structName : String) (id : StructId) (spec : Specifiers) (name : String)
    (loc : Location) (ty : TypeId) (params : List Param) : ReadM (Method × Option Deferred) := do
  let asm ← asmLabel
  if (name == "__ctor" || name == "__dtor") && !params.isEmpty then
    semantic loc (.takesNoParameters name)
  let label := asm.getD s!"{structName}__{name}"
  let isPure ← pureMark
  if isPure && !spec.isVirtual then semantic loc (.pureNotVirtual name)
  let decl ← declare name (.function ty .none label false (some id) (params.filterMap (·.name))) loc
  let method : Method := ⟨name, decl, label, ty, spec.isVirtual, isPure⟩
  if ← peekIs .leftBrace then
    let start ← next
    let body ← ofFailure (← onTokens (·.takeBraced))
    return (method, some { decl, params, start, body })
  return (method, none)

def memberField (r : Readers) (spec : Specifiers) (name : String) (loc : Location) (ty : TypeId) :
    ReadM Field := do
  if spec.isVirtual then semantic loc .virtualData
  if ((← get).types.sizeOf ty).isNone then semantic loc (.incompleteField name)
  let init ← if ← eat .assign then
      pure (some (← convert (← expression r false) ty))
    else pure none
  return { name, type := ty, offset := 0, init, loc }

def memberDeclarators (r : Readers) (structName : String) (id : StructId) (spec : Specifiers)
    (ms : Members) : ReadM Members :=
  loop ms fun ms ↦ do
    let d ← declarator r
    match d.name with
    | none => unexpected "member name"
    | some (name, loc) =>
      let (ty, params) ← applyDeclarator spec.type d
      let (ms, ended) ←
        if (← get).types.isFunction ty then
          let (m, body) ← memberFunction structName id spec name loc ty (params.getD [])
          pure ({ ms with methods := ms.methods.push m, deferred := ms.deferred ++ body.toArray },
            body.isSome)
        else
          pure ({ ms with fields := ms.fields.push (← memberField r spec name loc ty) }, false)
      if ended then return .done ms
      if ← eat .comma then return .again ms
      let _ ← expect .semicolon
      return .done ms

def members (r : Readers) (structName : String) (id : StructId) : ReadM Members :=
  loop ({} : Members) fun ms ↦ do
    if ← eat .rightBrace then return .done ms
    if ← atEnd then unexpected "'\x7d'"
    let spec ← r.specifiers
    if spec.storage ≠ .none then grammatical spec.loc .storageOnMember
    if ← eat .semicolon then return .again ms
    return .again (← memberDeclarators r structName id spec ms)

def deferredBody (r : Readers) (id : StructId) (d : Deferred) : ReadM Unit := do
  let closeLoc := ((d.body.getLast?).map (·.loc)).getD d.start.loc
  let tokens := d.start :: d.body ++ [⟨.punct .rightBrace, closeLoc⟩]
  let s ← get
  set { s with tokens := .ofTokens tokens }
  let result ← attempt (functionBody r d.decl d.params (some id) d.start.loc)
  modify fun t ↦ { t with tokens := s.tokens, scope := s.scope }
  ofExcept result

/-! ## Structs and unions -/

def newStruct (name : String) (isUnion : Bool) (loc : Location) : ReadM (StructId × TypeId) :=
  modifyGet fun s ↦
    let (id, ty, types) := s.types.newStruct name isUnion loc
    ((id, ty), { s with types, symbols := s.symbols.declareTag s.scope name (.struct id) loc })

def structReference (name : String) (isUnion : Bool) (loc : Location) : ReadM TypeId := do
  match ← lookupTag name with
  | some (.struct id) =>
    if ((← get).types.structDef id).isUnion ≠ isUnion then semantic loc (.wrongTag name)
    entered (·.structType id)
  | some (.enum _) => semantic loc (.wrongTag name)
  | none => return (← newStruct name isUnion loc).2

def structToDefine (name : String) (isUnion : Bool) (loc : Location) : ReadM StructId := do
  let s ← get
  match s.symbols.lookupTagLocal s.scope name with
  | some (.struct id, prior) =>
    let d := s.types.structDef id
    if d.complete || d.isUnion ≠ isUnion then semantic loc (.redefinition name prior)
    return id
  | some (.enum _, prior) => semantic loc (.redefinition name prior)
  | none => return (← newStruct name isUnion loc).1

def bases : ReadM (List StructId) :=
  loop [] fun found ↦ do
    let _ ← eatWord .structKw
    let (name, loc) ← expectIdent
    match ← lookupTag name with
    | some (.struct id) =>
      if found.contains id then semantic loc (.duplicateBase name)
      if ← eat .comma then return .again (id :: found)
      return .done (id :: found).reverse
    | _ => semantic loc (.baseNotStruct name)

/-- Gives a struct its body. One that cannot be laid out stays without. -/
def completeStruct (id : StructId) (bases : List StructId) (ms : Members) (loc : Location) : ReadM Unit := do
  match (← get).types.layoutStruct id bases ms.fields.toList ms.methods.toList with
  | .error f => semantic loc (.layout f)
  | .ok types => modify fun s ↦ { s with types }

def structDefinition (r : Readers) (name : String) (isUnion : Bool) (loc : Location) : ReadM TypeId := do
  let id ← structToDefine name isUnion loc
  let bases ← if ← eat .colon then bases else pure []
  let _ ← expect .leftBrace
  let ms ← inScope (.member id) do
    modify fun s ↦ { s with types := s.types.modifyStruct id fun d ↦ { d with scope := some s.scope } }
    members r name id
  completeStruct id bases ms loc
  ms.deferred.forM (deferredBody r id)
  entered (·.structType id)

def structSpecifier (r : Readers) (isUnion : Bool) : ReadM TypeId := do
  let loc ← here
  let name ← eatIdent
  let opens := (← peekIs .leftBrace) || name.isSome && (← peekIs .colon)
  match name, opens with
  | some name, true => structDefinition r name isUnion loc
  | some name, false => structReference name isUnion loc
  | none, true =>
    let n := (← get).anonymous + 1
    modify fun s ↦ { s with anonymous := n }
    structDefinition r s!"__anon{n}" isUnion loc
  | none, false => unexpected (if isUnion then "'\x7b' after 'union'" else "'\x7b' after 'struct'")

/-! ## All specifiers -/

structure Seen where
  storage : Storage := .none
  isVirtual : Bool := false
  isConst : Bool := false
  isVolatile : Bool := false
  words : List Keyword := []
  named : Option TypeId := none

def storageOf? : Keyword → Option Storage
  | .typedefKw => some .typedef
  | .staticKw => some .static
  | .externKw => some .external
  | .autoKw => some .auto
  | .registerKw => some .register
  | _ => none

def Seen.hasType (s : Seen) : ReadM Bool := if s.named.isSome then return true else hasWords s.words

def keywordSpecifier (r : Readers) (seen : Seen) (k : Keyword) (loc : Location) :
    ReadM (Turn Seen Seen) := do
  match storageOf? k with
  | some storage =>
    if seen.storage ≠ .none then grammatical loc .manyStorageClasses
    let _ ← next
    return .again { seen with storage }
  | none =>
    match k with
    | .virtualKw => let _ ← next; return .again { seen with isVirtual := true }
    | .constKw => let _ ← next; return .again { seen with isConst := true }
    | .volatileKw => let _ ← next; return .again { seen with isVolatile := true }
    | .voidKw | .charKw | .shortKw | .intKw | .longKw | .floatKw | .doubleKw | .signedKw
    | .unsignedKw =>
      if seen.words.count k = maxWords then internal (.overflow "add")
      let _ ← next
      return .again { seen with words := k :: seen.words }
    | .structKw | .unionKw | .enumKw =>
      if ← seen.hasType then grammatical loc .manyDataTypes
      let _ ← next
      let ty ← if k = .enumKw then enumSpecifier r else structSpecifier r (k = .unionKw)
      return .again { seen with named := some ty }
    | _ => return .done seen

def nameSpecifier (seen : Seen) (name : String) : ReadM (Turn Seen Seen) := do
  if ← seen.hasType then return .done seen
  let s ← get
  match s.symbols.lookup s.scope name with
  | none => return .done seen
  | some (_, d) =>
    match (s.symbols.decl d).entity with
    | .typedef ty => let _ ← next; return .again { seen with named := some ty }
    | _ => return .done seen

def specifier (r : Readers) (seen : Seen) : ReadM (Turn Seen Seen) := do
  let t ← peek
  match t.kind with
  | .keyword k => keywordSpecifier r seen k t.loc
  | .ident name => nameSpecifier seen name
  | _ => return .done seen

def specifiers (r : Readers) : ReadM Specifiers := do
  let loc ← here
  let seen ← loop {} (specifier r)
  let base ← match seen.named with
    | some ty => if ← hasWords seen.words then grammatical loc .manyDataTypes else pure ty
    | none =>
      let _ ← hasWords seen.words
      match builtinType seen.words with
      | .ok ty => pure ty
      | .error f => grammatical loc f
  let ty ← entered (·.qualified base seen.isConst seen.isVolatile)
  return ⟨seen.storage, ty, seen.isVirtual, loc⟩

end W16Compiler.Grammar
