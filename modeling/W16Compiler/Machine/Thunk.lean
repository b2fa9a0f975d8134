import W16Compiler.Data
import W16Compiler.Machine.Basic

/-!
# Thunks

An entry of a virtual table whose function expects the object elsewhere than at the table pointer
goes through a thunk, which moves the object pointer on the stack and goes on to the function.
-/

namespace W16Compiler

structure AdjustThunk where
  /-- How far the object pointer moves. -/
  adjust : Int
  target : String
  objectAt : Int
  deriving DecidableEq

namespace AdjustThunk

def le (a b : AdjustThunk) : Bool :=
  a.adjust < b.adjust || a.adjust == b.adjust &&
    (a.target < b.target || a.target == b.target && a.objectAt ≤ b.objectAt)

def code (t : AdjustThunk) : List Instr :=
  [.load .r0 .sp (.num t.objectAt)] ++
  (if fitsSigned t.adjust 6 then [.addImm .r0 .r0 (.num t.adjust)]
    else [.loadImm .r1 t.adjust, .alu .add .r0 .r0 .r1]) ++
  [.store .r0 .sp (.num t.objectAt), .jumpSymbol t.target]

def function (t : AdjustThunk) : MachineFunction :=
  { label := thunkLabel t.adjust t.target
    exported := false
    loc := .builtin
    code := t.code.map (⟨·, none⟩) }

/-- On entry the return address is on top of the stack. A hidden result pointer comes before the
object. -/
def objectOffset (t : TypeTable) (fnType : TypeId) : Int :=
  match t.kind fnType with
  | .function result .. => if t.returnsInMemory result then 2 else 1
  | _ => 1

def ofTable (t : TypeTable) (table : VirtualTable) : List AdjustThunk :=
  table.slots.filterMap fun s ↦
    if table.adjust s == 0 || s.isPure then none
    else some ⟨table.adjust s, s.label, objectOffset t s.fnType⟩

def ofStructs (t : TypeTable) (ds : List StructDef) : List AdjustThunk :=
  ((ds.flatMap (·.tables)).flatMap (ofTable t)).eraseDups.mergeSort le

end AdjustThunk

def VirtualTable.data (t : VirtualTable) (loc : Location) : DataItem :=
  { DataItem.initialized t.label .const (t.slots.map fun s ↦ .symbol (t.entryLabel s) 0) false with
    loc := some loc }

end W16Compiler
