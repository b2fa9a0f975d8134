import W16Compiler.Fault.Layout
import W16Compiler.Types.Basic

/-!
# Struct layout

A struct holds its bases in order, then a pointer to its table of virtual functions if it has
virtual functions and no base brings such a pointer, then its fields. The members of a union all
stand at offset zero. Every pointer to a table inside a struct has its own table there, in which the
functions that the struct overrides are replaced.
-/

namespace W16Compiler.TypeTable

/-! ## Looking through the bases

No struct is its own base, so a path through the bases is never longer than the number of structs. -/

def baseOffsetWithin (t : TypeTable) (target : StructId) : Nat → StructId → Option Nat
  | 0, _ => none
  | fuel + 1, id =>
    if id = target then some 0
    else (t.structDef id).bases.findSome? fun b ↦
      (t.baseOffsetWithin target fuel b.id).map (addWords · b.offset)

/-- Where the first `base` subobject stands inside `derived`, bases searched in order and in depth. -/
def baseOffset (t : TypeTable) (derived base : StructId) : Option Nat :=
  t.baseOffsetWithin base (t.structs.size + 1) derived

inductive Member where
  | field (type : TypeId) (offset : Nat)
  | method (owner : StructId) (offset : Nat) (m : Method)

def Member.shift (by_ : Nat) : Member → Member
  | field type offset => field type (addWords offset by_)
  | method owner offset m => method owner (addWords offset by_) m

def findMemberWithin (t : TypeTable) (name : String) : Nat → StructId → Option Member
  | 0, _ => none
  | fuel + 1, id =>
    let d := t.structDef id
    match d.fields.find? (·.name == name) with
    | some f => some (.field f.type f.offset)
    | none =>
      match d.methods.find? (·.name == name) with
      | some m => some (.method id 0 m)
      | none => d.bases.findSome? fun b ↦ (t.findMemberWithin name fuel b.id).map (·.shift b.offset)

/-- The member of a name: the struct's own members come first, then those of its bases in order. -/
def findMember (t : TypeTable) (id : StructId) (name : String) : Option Member :=
  t.findMemberWithin name (t.structs.size + 1) id

structure SlotRef where
  table : Nat
  pointerOffset : Nat
  slot : Nat
  entry : VirtualSlot

/-- The first place of a virtual function, the first table first. -/
def findSlot (t : TypeTable) (id : StructId) (name : String) : Option SlotRef :=
  (t.structDef id).tables.zipIdx.findSome? fun (table, i) ↦
    (table.slots.zipIdx.find? fun (s, _) ↦ s.name == name).map fun (s, j) ↦
      ⟨i, table.pointerOffset, j, s⟩

/-! ## Tables of virtual functions -/

def rebase (slots : List VirtualSlot) (offset : Nat) : List VirtualSlot :=
  slots.map fun s ↦ { s with implOffset := addWords s.implOffset offset }

def mergeSlots (slots more : List VirtualSlot) : List VirtualSlot :=
  more.foldl (fun slots s ↦ if slots.any (·.name == s.name) then slots else slots ++ [s]) slots

/-- The slot of a function that no base declares, before it is given its implementation. -/
def newSlot (m : Method) : VirtualSlot := ⟨m.name, none, pureVirtual, 0, m.fnType⟩

/-- The slot after the struct's own functions have replaced what they override. -/
def override (methods : List Method) (s : VirtualSlot) : VirtualSlot :=
  match methods.find? (·.name == s.name) with
  | some m =>
    if m.isPure then ⟨s.name, none, pureVirtual, 0, m.fnType⟩
    else ⟨s.name, some m.decl, m.label, 0, m.fnType⟩
  | none => s

structure BaseTable where
  first : Bool
  base : Base
  table : VirtualTable

def baseTables (t : TypeTable) (b : Base) : List BaseTable :=
  (t.structDef b.id).tables.zipIdx.map fun (table, i) ↦ ⟨i == 0, b, table⟩

/-- The tables that the bases bring, without the first table of the base at place `primary`, which
the struct's own first table continues. -/
def inheritedTables (t : TypeTable) (bases : List Base) (primary : Option Nat) : List BaseTable :=
  bases.zipIdx.flatMap fun (b, i) ↦
    if some i == primary then (t.baseTables b).drop 1 else t.baseTables b

def BaseTable.slots (i : BaseTable) : List VirtualSlot := rebase i.table.slots i.base.offset

def BaseTable.placed (i : BaseTable) (name : String) : VirtualTable :=
  let offset := addWords i.table.pointerOffset i.base.offset
  { label := s!"__vtbl_{name}_{offset}", pointerOffset := offset, slots := i.slots }

def continuedSlots (t : TypeTable) (bases : List Base) (primary : Option Nat) : List VirtualSlot :=
  match primary.bind (bases[·]?) with
  | some b => (((t.structDef b.id).tables.head?).map fun table ↦ rebase table.slots b.offset).getD []
  | none => []

/-- The slots of the first table: those that it continues, those of the first tables of the other
bases, and those of the struct's own functions. -/
def firstSlots (t : TypeTable) (bases : List Base) (primary : Option Nat) (methods : List Method) :
    List VirtualSlot :=
  let fromBases := (t.inheritedTables bases primary).foldl (fun slots i ↦
    if i.first then mergeSlots slots i.slots else slots) (t.continuedSlots bases primary)
  mergeSlots fromBases ((methods.filter (·.isVirtual)).map newSlot)

def buildTables (t : TypeTable) (name : String) (pointer : Nat) (bases : List Base)
    (primary : Option Nat) (methods : List Method) : List VirtualTable :=
  let first : VirtualTable :=
    { label := s!"__vtbl_{name}", pointerOffset := pointer, slots := t.firstSlots bases primary methods }
  let others := (t.inheritedTables bases primary).map (·.placed name)
  (first :: others).map fun table ↦ { table with slots := table.slots.map (override methods) }

/-! ## Layout -/

def firstDuplicate : List String → Option String
  | [] => none
  | names => go [] names
where
  go (seen : List String) : List String → Option String
    | [] => none
    | n :: rest => if seen.contains n then some n else go (n :: seen) rest

/-- Places the bases one after another; answers them and the offset behind the last. -/
def placeBases (t : TypeTable) (id : StructId) (offset : Nat) :
    List StructId → Except LayoutFault (List Base × Nat)
  | [] => .ok ([], offset)
  | b :: rest => do
    let d := t.structDef b
    if !d.complete then throw (.incompleteBase d.name)
    if b = id || (t.baseOffset b id).isSome then throw (.derivesFromItself (t.structDef id).name)
    let (placed, size) ← t.placeBases id (addWords offset d.size) rest
    return (⟨b, offset⟩ :: placed, size)

def placeFields (t : TypeTable) (name : String) (isUnion : Bool) (size : Nat) :
    List Field → Except LayoutFault (List Field × Nat)
  | [] => .ok ([], size)
  | f :: rest => do
    let some words := t.sizeOf f.type | throw (.incompleteField f.name)
    let total := if isUnion then max size words else addWords size words
    if total > maxObjectWords then throw (.tooLarge name total)
    let (placed, total) ← t.placeFields name isUnion total rest
    return ({ f with offset := if isUnion then 0 else size } :: placed, total)

def needsInitType (t : TypeTable) (ty : TypeId) : Bool :=
  ((t.asStruct ty).map fun id ↦ (t.structDef id).needsInit).getD false

def needsTermType (t : TypeTable) (ty : TypeId) : Bool :=
  ((t.asStruct ty).map fun id ↦ (t.structDef id).needsTerm).getD false

/-- The functions of a struct. One that is named like a virtual function of a base is virtual too. -/
def overriding (t : TypeTable) (placed : List Base) (methods : List Method) : List Method :=
  let inherited := placed.flatMap fun b ↦
    (t.structDef b.id).tables.flatMap fun table ↦ table.slots.map (·.name)
  methods.map fun m ↦ if inherited.contains m.name then { m with isVirtual := true } else m

def primaryBase (t : TypeTable) (placed : List Base) : Option Nat :=
  placed.findIdx? fun b ↦ (t.structDef b.id).tablePointer.isSome

/-- The pointer to the first table, and the offset behind it: the pointer is that of the first base that
brings one, or stands behind the bases. -/
def placePointer (t : TypeTable) (placed : List Base) (methods : List Method) (offset : Nat) :
    Option Nat × Nat :=
  match (t.primaryBase placed).bind (placed[·]?) with
  | some b => ((t.structDef b.id).tablePointer.map (addWords · b.offset), offset)
  | none => if methods.any (·.isVirtual) then (some offset, addWords offset 1) else (none, offset)

def body (t : TypeTable) (placed : List Base) (methods : List Method) (pointer : Option Nat)
    (fields : List Field) (size : Nat) (d : StructDef) : StructDef :=
  let tables := match pointer with
    | some p => t.buildTables d.name p placed (t.primaryBase placed) methods
    | none => []
  let needsInit := pointer.isSome || fields.any (·.init.isSome) ||
    methods.any (·.name == "__ctor") || placed.any (fun b ↦ (t.structDef b.id).needsInit) ||
    fields.any (fun f ↦ t.needsInitType f.type)
  let needsTerm := methods.any (·.name == "__dtor") ||
    placed.any (fun b ↦ (t.structDef b.id).needsTerm) || fields.any (fun f ↦ t.needsTermType f.type)
  { d with bases := placed, fields, methods, size, tablePointer := pointer, tables, needsInit,
           needsTerm, complete := true }

def layoutStruct (t : TypeTable) (id : StructId) (bases : List StructId) (fields : List Field)
    (methods : List Method) : Except LayoutFault TypeTable := do
  let d := t.structDef id
  if d.isUnion && !bases.isEmpty then throw (.unionWithBases d.name)
  if let some n := firstDuplicate (fields.map (·.name) ++ methods.map (·.name)) then
    throw (.duplicateMember n)
  let (placed, offset) ← t.placeBases id 0 bases
  let methods := t.overriding placed methods
  let (pointer, offset) := t.placePointer placed methods offset
  let (fields, size) ← t.placeFields d.name d.isUnion offset fields
  return t.modifyStruct id (t.body placed methods pointer fields size)

def markUsedWithin : Nat → TypeTable → StructId → TypeTable
  | 0, t, _ => t
  | fuel + 1, t, id =>
    let d := t.structDef id
    if d.used then t
    else
      let inner := d.bases.map (·.id) ++ d.fields.filterMap fun f ↦ t.asStruct f.type
      inner.foldl (markUsedWithin fuel) (t.modifyStruct id fun d ↦ { d with used := true })

/-- Asks for the code and tables that support a struct and everything inside it. -/
def markUsed (t : TypeTable) (id : StructId) : TypeTable := markUsedWithin (t.structs.size + 1) t id

end W16Compiler.TypeTable
