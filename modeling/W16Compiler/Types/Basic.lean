import W16Compiler.Tree

/-!
# Types

Types are kept in a table in which equal types have one place, so that two types are equal exactly
when their handles are. A struct or union is equal only to itself; its body stands in a second
table. Sizes count words of sixteen bits.
-/

namespace W16Compiler

def maxObjectWords : Nat := 0xffff

inductive IntWidth where
  | byte | word | long
  deriving DecidableEq, Repr

def IntWidth.bits : IntWidth → Nat
  | byte => 8
  | word => 16
  | long => 32

inductive FloatWidth where
  | single | double
  deriving DecidableEq, Repr

/-- One level of a type over the handles of its parts. -/
inductive Ty where
  | void
  | int (width : IntWidth) (signed : Bool)
  | float (width : FloatWidth)
  | pointer (target : TypeId)
  | array (element : TypeId) (length : Option Nat)
  | function (result : TypeId) (params : List TypeId) (varargs : Bool)
  | struct (id : StructId)
  | qualified (base : TypeId) (isConst isVolatile : Bool)
  deriving DecidableEq, Repr

structure Field where
  name : String
  type : TypeId
  offset : Nat
  /-- The default value that construction gives it. -/
  init : Option Expr
  loc : Location

structure Method where
  name : String
  decl : DeclId
  label : String
  fnType : TypeId
  isVirtual : Bool
  isPure : Bool
  deriving DecidableEq

structure Base where
  id : StructId
  offset : Nat
  deriving DecidableEq

/-- The trap that stands in the place of a function without implementation. -/
def pureVirtual : String := "__pure_virtual"

/-- An entry of a table of virtual functions. -/
structure VirtualSlot where
  name : String
  decl : Option DeclId
  label : String
  /-- Where the object that the implementation expects stands in the struct that owns the table. -/
  implOffset : Nat
  fnType : TypeId
  deriving DecidableEq

def VirtualSlot.isPure (s : VirtualSlot) : Bool := s.decl.isNone

structure VirtualTable where
  label : String
  pointerOffset : Nat
  slots : List VirtualSlot
  deriving DecidableEq

/-- The label of the entry that moves the object pointer and goes on to `target`. -/
def thunkLabel (adjust : Int) (target : String) : String :=
  if adjust < 0 then s!"__thunk_m{wrap32 (-adjust)}_{target}" else s!"__thunk_{adjust}_{target}"

namespace VirtualTable

/-- How far the object pointer moves: it arrives at the table pointer and goes on to the object of
the implementation. -/
def adjust (t : VirtualTable) (s : VirtualSlot) : Int :=
  wrap32 (wrap32 s.implOffset - wrap32 t.pointerOffset)

def entryLabel (t : VirtualTable) (s : VirtualSlot) : String :=
  if s.isPure || t.adjust s == 0 then s.label else thunkLabel (t.adjust s) s.label

end VirtualTable

structure StructDef where
  name : String
  isUnion : Bool
  loc : Location
  complete : Bool := false
  bases : List Base := []
  fields : List Field := []
  methods : List Method := []
  size : Nat := 0
  tablePointer : Option Nat := none
  tables : List VirtualTable := []
  needsInit : Bool := false
  needsTerm : Bool := false
  scope : Option ScopeId := none
  /-- Whether the unit has to emit the code and data that support it. -/
  used : Bool := false

namespace StructDef

instance : Inhabited StructDef := ⟨{ name := "", isUnion := false, loc := .builtin }⟩

def initLabel (d : StructDef) : String := s!"{d.name}__init"

def termLabel (d : StructDef) : String := s!"{d.name}__term"

end StructDef

structure TypeTable where
  types : Array Ty
  structs : Array StructDef

namespace TypeTable

def initial : TypeTable where
  types := #[.void, .int .byte true, .int .byte false, .int .word true, .int .word false,
    .int .long true, .int .long false, .float .single, .float .double, .pointer .void, .pointer .char]
  structs := #[]

instance : Inhabited TypeTable := ⟨initial⟩

def intern (t : TypeTable) (ty : Ty) : TypeId × TypeTable :=
  match t.types.idxOf? ty with
  | some i => (⟨i⟩, t)
  | none => (⟨t.types.size⟩, { t with types := t.types.push ty })

def get (t : TypeTable) (id : TypeId) : Ty := (t.types[id.index]?).getD .void

def size (t : TypeTable) : Nat := t.types.size

def pointerTo (t : TypeTable) (target : TypeId) : TypeId × TypeTable := t.intern (.pointer target)

def arrayOf (t : TypeTable) (element : TypeId) (length : Option Nat) : TypeId × TypeTable :=
  t.intern (.array element length)

def function (t : TypeTable) (result : TypeId) (params : List TypeId) (varargs : Bool) :
    TypeId × TypeTable :=
  t.intern (.function result params varargs)

def qualified (t : TypeTable) (ty : TypeId) (isConst isVolatile : Bool) : TypeId × TypeTable :=
  if !isConst && !isVolatile then (ty, t)
  else
    match t.get ty with
    | .qualified base c v => t.intern (.qualified base (isConst || c) (isVolatile || v))
    | _ => t.intern (.qualified ty isConst isVolatile)

def unqualified (t : TypeTable) (ty : TypeId) : TypeId :=
  match t.get ty with
  | .qualified base _ _ => base
  | _ => ty

def isConst (t : TypeTable) (ty : TypeId) : Bool :=
  match t.get ty with
  | .qualified _ c _ => c
  | _ => false

def isVolatile (t : TypeTable) (ty : TypeId) : Bool :=
  match t.get ty with
  | .qualified _ _ v => v
  | _ => false

def kind (t : TypeTable) (ty : TypeId) : Ty := t.get (t.unqualified ty)

/-! ## Structs -/

def newStruct (t : TypeTable) (name : String) (isUnion : Bool) (loc : Location) :
    StructId × TypeId × TypeTable :=
  let id : StructId := ⟨t.structs.size⟩
  let (ty, t) := { t with structs := t.structs.push { name, isUnion, loc } }.intern (.struct id)
  (id, ty, t)

def structDef (t : TypeTable) (id : StructId) : StructDef := (t.structs[id.index]?).getD default

def modifyStruct (t : TypeTable) (id : StructId) (f : StructDef → StructDef) : TypeTable :=
  { t with structs := t.structs.modify id.index f }

def structType (t : TypeTable) (id : StructId) : TypeId × TypeTable := t.intern (.struct id)

def asStruct (t : TypeTable) (ty : TypeId) : Option StructId :=
  match t.kind ty with
  | .struct id => some id
  | _ => none

/-! ## Classification -/

/-- The size in words; void, functions and incomplete types have none. The parts of a type stand
before it in the table. -/
def sizeOf (t : TypeTable) (ty : TypeId) : Option Nat :=
  match t.kind ty with
  | .void | .function .. | .qualified .. => none
  | .int width _ => some (if width = .long then 2 else 1)
  | .float width => some (if width = .double then 4 else 2)
  | .pointer _ => some 1
  | .array element length => do
    let n ← length
    if _h : element.index < ty.index then
      let size ← t.sizeOf element
      if size * n < twoTo 32 then some (size * n) else none
    else none
  | .struct id =>
    let d := t.structDef id
    if d.complete then some d.size else none
termination_by ty.index

def alignOf (t : TypeTable) (ty : TypeId) : Option Nat := (t.sizeOf ty).map fun _ ↦ 1

def isInteger (t : TypeTable) (ty : TypeId) : Bool := t.kind ty matches .int ..

def isFloat (t : TypeTable) (ty : TypeId) : Bool := t.kind ty matches .float _

def isArith (t : TypeTable) (ty : TypeId) : Bool := t.isInteger ty || t.isFloat ty

def isPointer (t : TypeTable) (ty : TypeId) : Bool := t.kind ty matches .pointer _

def isScalar (t : TypeTable) (ty : TypeId) : Bool := t.isArith ty || t.isPointer ty

def isArray (t : TypeTable) (ty : TypeId) : Bool := t.kind ty matches .array ..

def isFunction (t : TypeTable) (ty : TypeId) : Bool := t.kind ty matches .function ..

def isVoid (t : TypeTable) (ty : TypeId) : Bool := t.kind ty matches .void

def isUnsigned (t : TypeTable) (ty : TypeId) : Bool :=
  match t.kind ty with
  | .int _ signed => !signed
  | .pointer _ => true
  | _ => false

def pointee (t : TypeTable) (ty : TypeId) : Option TypeId :=
  match t.kind ty with
  | .pointer target => some target
  | _ => none

def element (t : TypeTable) (ty : TypeId) : Option TypeId :=
  match t.kind ty with
  | .array element _ => some element
  | _ => none

def decay (t : TypeTable) (ty : TypeId) : TypeId × TypeTable :=
  match t.kind ty with
  | .array element _ => t.pointerTo element
  | .function .. => t.pointerTo (t.unqualified ty)
  | _ => (ty, t)

/-- Whether a result of this type is handed over behind a hidden pointer. -/
def returnsInMemory (t : TypeTable) (result : TypeId) : Bool :=
  match t.kind result with
  | .struct _ | .float .double => true
  | _ => false

def display (t : TypeTable) (ty : TypeId) : String :=
  let part (p : TypeId) : String := if _h : p.index < ty.index then t.display p else ""
  match t.get ty with
  | .void => "void"
  | .int width signed =>
    let name := match width with
      | .byte => "char"
      | .word => "int"
      | .long => "long"
    if signed then name else s!"unsigned {name}"
  | .float width => if width = .single then "float" else "double"
  | .pointer target =>
    if t.get target matches .function .. then part target ++ " (*)" else part target ++ "*"
  | .array element length =>
    match length with
    | some n => part element ++ s!"[{n}]"
    | none => part element ++ "[]"
  | .function result params varargs =>
    let parts := params.map part ++ (if varargs then ["..."] else [])
    part result ++ "(" ++ ", ".intercalate parts ++ ")"
  | .struct id =>
    let d := t.structDef id
    (if d.isUnion then "union " else "struct ") ++ d.name
  | .qualified base isConst isVolatile =>
    part base ++ (if isConst then " const" else "") ++ (if isVolatile then " volatile" else "")
termination_by ty.index

end TypeTable

end W16Compiler
