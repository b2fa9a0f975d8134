import W16Compiler.Grammar.Expression

/-!
# Initializers

A static object gets all its words before the program runs. A local one gets a list of stores that
follow after it has been zeroed.
-/

namespace W16Compiler.Grammar

/-- A part of a struct that one element of a braced list initializes. -/
structure Component where
  offset : Nat
  type : TypeId
  /-- The value of a field that is left out. -/
  default : Option Expr

/-- Bases, then fields; a union has only its first field. -/
def components (id : StructId) : TypingM (List Component) := do
  let d := (← get).structDef id
  let bases ← d.bases.mapM fun b ↦ do
    return (⟨b.offset, ← entered (·.structType b.id), none⟩ : Component)
  let all := bases ++ d.fields.map fun f ↦ ⟨f.offset, f.type, f.init⟩
  return if d.isUnion then all.take 1 else all

def isCharacter (t : TypeTable) (element : TypeId) : Bool :=
  t.sizeOf element == some 1 && t.isInteger element

/-- The length of an array of characters initialized from a string. The zero at the end is left out
if there is no room for it. -/
def stringLength (count : Nat) (length : Option Nat) (loc : Location) : ReadM Nat :=
  match length with
  | none => return count + 1
  | some n => if n ≥ count then return n else semantic loc .stringTooLong

/-- Whether an array of a given length, if it has one, holds so many elements. -/
def isFull (length : Option Nat) (count : Nat) : Bool :=
  match length with
  | some n => count ≥ n
  | none => false

def eatString : ReadM (Option (List UInt8 × Location)) := do
  let t ← peek
  match t.kind with
  | .str bytes => let _ ← next; return some (bytes, t.loc)
  | _ => return none

/-- The elements of a braced list behind its opening brace. `element` gets the number of those
before; the list may end with a comma. -/
def bracedList {α : Type} (element : Nat → ReadM α) : ReadM (List α) :=
  loop [] fun done ↦ do
    if ← eat .rightBrace then return .done done.reverse
    let done := (← element done.length) :: done
    if ← eat .comma then return .again done
    let _ ← expect .rightBrace
    return .done done.reverse

def scalarValue (r : Readers) (ty : TypeId) (mayBrace : Bool) : ReadM Expr := do
  let braced ← if mayBrace then eat .leftBrace else pure false
  let e ← convert (← expression r false) ty
  if braced then
    let _ ← eat .comma
    let _ ← expect .rightBrace
  return e

/-! ## Static objects -/

def constantWords (ty : TypeId) (value : Constant) (loc : Location) : TypingM (List DataWord) := do
  let t ← get
  let size := (t.sizeOf ty).getD 1
  match value, t.kind ty with
  | .float x, .float .single => return valueWords x.singleBits 2
  | .float x, .float .double => return valueWords x.bits.toNat 4
  | .int v, _ => return valueWords (v % twoTo 64).toNat size
  | .address label offset, _ =>
    if size = 1 then return [.symbol label offset] else typeFault loc .notConstant
  | _, _ => typeFault loc .notConstant

def overwrite (image : List DataWord) (start : Nat) (words : List DataWord) : List DataWord :=
  image.take start ++ words ++ image.drop (start + words.length)

def storeTables (d : StructDef) (image : List DataWord) : List DataWord :=
  d.tables.foldl (fun image table ↦ image.set table.pointerOffset (.symbol table.label 0)) image

/-- The image of a struct without explicit values: default values of fields and table pointers.
With `construct` set a struct that has a constructor is refused. -/
def structImageWithin (loc : Location) : Nat → Bool → StructId → TypingM (List DataWord)
  | 0, _, _ => throw (.internal .outOfSteps)
  | fuel + 1, construct, id => do
    let d := (← get).structDef id
    if construct && d.methods.any (·.name == "__ctor") then
      typeFault loc (.dynamicConstruction d.name)
    modify (·.markUsed id)
    let inner (image : List DataWord) (offset : Nat) (part : StructId) : TypingM (List DataWord) := do
      if ((← get).structDef part).needsInit then
        return overwrite image offset (← structImageWithin loc fuel true part)
      else return image
    let image ← d.bases.foldlM (fun image b ↦ inner image b.offset b.id) (List.replicate d.size (.value 0))
    let fields := if d.isUnion then d.fields.take 1 else d.fields
    let image ← fields.foldlM (fun image f ↦ do
      match f.init with
      | some e =>
        match ← constantOf e with
        | some c =>
          let words ← constantWords ((← get).unqualified f.type) c e.loc
          return overwrite image f.offset words
        | none => typeFault e.loc .memberNotConstant
      | none =>
        match (← get).asStruct f.type with
        | some part => inner image f.offset part
        | none => return image) image
    return storeTables d image

def structImage (id : StructId) (construct : Bool) (loc : Location) : TypingM (List DataWord) := do
  structImageWithin loc ((← get).structs.size + 1) construct id

/-- How the elements inside a list are read: with their type, giving the type with all lengths. -/
abbrev StaticReader := TypeId → ReadM (TypeId × List DataWord)

def staticArray (inner : StaticReader) (element : TypeId) (length : Option Nat) (loc : Location) :
    ReadM (TypeId × List DataWord) := do
  let t := (← get).types
  match t.sizeOf element with
  | none => semantic loc .incompleteElement
  | some size =>
    if isCharacter t element then
      if let some (bytes, _) ← eatString then
        let n ← stringLength bytes.length length loc
        let words := bytes.map fun b ↦ DataWord.value b.toNat
        return (← entered (·.arrayOf element (some n)),
          words ++ List.replicate (n - words.length) (.value 0))
    let _ ← expect .leftBrace
    let elements ← bracedList fun count ↦ do
      if isFull length count then semantic (← here) .excessArrayElements
      return (← inner element).2
    let n := length.getD elements.length
    return (← entered (·.arrayOf element (some n)),
      elements.flatten ++ List.replicate ((n - elements.length) * size) (.value 0))

def staticStruct (inner : StaticReader) (id : StructId) (loc : Location) : ReadM (List DataWord) := do
  let image ← structImage id false loc
  let parts ← components id
  let given ← bracedList fun index ↦ do
    match parts[index]? with
    | some c => return (c.offset, (← inner c.type).2)
    | none => semantic (← here) .excessStructElements
  let image := given.foldl (fun image (offset, words) ↦ overwrite image offset words) image
  return storeTables ((← get).types.structDef id) image

def staticValueWithin (r : Readers) (loc : Location) : Nat → StaticReader
  | 0, _ => internal .outOfSteps
  | fuel + 1, ty => do
    let t := (← get).types
    let inner := staticValueWithin r loc fuel
    match t.kind ty with
    | .array element length => staticArray inner element length loc
    | .struct id =>
      if !(← eat .leftBrace) then semantic loc .notConstant
      return (ty, ← staticStruct inner id loc)
    | _ =>
      let e ← scalarValue r ty true
      match ← constantOf e with
      | some c => return (ty, ← constantWords (t.unqualified ty) c e.loc)
      | none => semantic e.loc .notConstant

/-- The initializer of a static object behind the equals sign: the type with its lengths filled in,
and the words. -/
def staticInitializer (r : Readers) (ty : TypeId) (loc : Location) : ReadM (TypeId × List DataWord) := do
  staticValueWithin r loc ((← get).tokens.remaining + 1) ty

/-! ## Local objects -/

/-- The stores of a braced local initializer, each at a word offset. -/
structure Stores where
  tables : List (Nat × String) := []
  constructs : List (Nat × StructId) := []
  items : List (Nat × Expr) := []

namespace Stores

def append (a b : Stores) : Stores :=
  ⟨a.tables ++ b.tables, a.constructs ++ b.constructs, a.items ++ b.items⟩

def join (all : List Stores) : Stores := all.foldl append {}

end Stores

/-- How the elements inside a list are read: with their type, place and the location of faults. -/
abbrev LocalReader := TypeId → Nat → Location → ReadM (TypeId × Stores)

def signedByte (b : UInt8) : Int := Int.bmod b.toNat (twoTo 8)

def localArray (inner : LocalReader) (element : TypeId) (length : Option Nat) (place : Nat)
    (loc : Location) : ReadM (TypeId × Stores) := do
  let t := (← get).types
  match t.sizeOf element with
  | none => semantic loc .incompleteElement
  | some size =>
    if isCharacter t element then
      if let some (bytes, strLoc) ← eatString then
        let n ← stringLength bytes.length length loc
        let info : ExprInfo := ⟨t.unqualified element, strLoc⟩
        let items := (bytes.take n).zipIdx.map fun (b, i) ↦ (addWords place i, .int info (signedByte b))
        return (← entered (·.arrayOf element (some n)), { items })
    let _ ← expect .leftBrace
    let elements ← bracedList fun count ↦ do
      if isFull length count then semantic (← here) .excessArrayElements
      return (← inner element (addWords place (count * size)) loc).2
    return (← entered (·.arrayOf element (some (length.getD elements.length))), Stores.join elements)

/-- Parts of a struct that the list leaves out are constructed or get their default values. -/
def omittedPart (place : Nat) (c : Component) : TypingM Stores := do
  match c.default with
  | some e => return { items := [(addWords place c.offset, e)] }
  | none =>
    let t ← get
    match t.asStruct c.type with
    | some id =>
      if (t.structDef id).needsInit then
        set (t.markUsed id)
        return { constructs := [(addWords place c.offset, id)] }
      else return {}
    | none => return {}

/-- A braced struct behind its opening brace. -/
def localStruct (inner : LocalReader) (id : StructId) (place : Nat) : ReadM Stores := do
  modify fun s ↦ { s with types := s.types.markUsed id }
  let parts ← components id
  let given ← bracedList fun index ↦ do
    let loc ← here
    match parts[index]? with
    | some c => return (← inner c.type (addWords place c.offset) loc).2
    | none => semantic loc .excessStructElements
  let omitted ← (parts.drop given.length).mapM fun c ↦ omittedPart place c
  let tables := ((← get).types.structDef id).tables.map fun t ↦ (addWords place t.pointerOffset, t.label)
  return ((Stores.join given).append (Stores.join omitted)).append { tables }

def localValueWithin (r : Readers) : Nat → LocalReader
  | 0, _, _, _ => internal .outOfSteps
  | fuel + 1, ty, place, loc => do
    let inner := localValueWithin r fuel
    match (← get).types.kind ty with
    | .array element length => localArray inner element length place loc
    | .struct id =>
      if ← eat .leftBrace then return (ty, ← localStruct inner id place)
      return (ty, { items := [(place, ← scalarValue r ty false)] })
    | _ => return (ty, { items := [(place, ← scalarValue r ty true)] })

/-- The optional initializer of a local object: the type with its lengths filled in, and how the
object starts out. -/
def localInitializer (r : Readers) (ty : TypeId) (loc : Location) : ReadM (TypeId × LocalInit) := do
  let t := (← get).types
  let id := t.asStruct ty
  if !(← eat .assign) then
    match id with
    | some id =>
      return (ty, if (t.structDef id).needsInit then .construct id else .uninitialized)
    | none => return (ty, .uninitialized)
  if t.isArray ty || (id.isSome && (← peekIs .leftBrace)) then
    let (ty, s) ← localValueWithin r ((← get).tokens.remaining + 1) ty 0 loc
    return (ty, .aggregate s.tables s.constructs s.items)
  return (ty, .value (← scalarValue r ty false))

end W16Compiler.Grammar
