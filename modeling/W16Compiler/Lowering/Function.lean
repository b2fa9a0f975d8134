import W16Compiler.Lowering.Tree
import W16Compiler.Unit

/-!
# Code for functions

A function is lowered with its types and names fixed. Labels are numbered through the whole unit:
first come those of the case markers, then those that the source names, then all others in the order
in which they are needed.
-/

namespace W16Compiler

mutual

def Stmt.namedLabels : Stmt → List (String × ScopeId)
  | .label i name body => (name, i.scope) :: body.namedLabels
  | .block _ body => Stmt.allNamedLabels body
  | .branch _ _ yes no => yes.namedLabels ++ Stmt.namedLabels? no
  | .whileLoop _ _ body | .doLoop _ body _ | .switch _ _ body _ _ => body.namedLabels
  | .forLoop _ init _ _ body => Stmt.namedLabels? init ++ body.namedLabels
  | .tryStmt _ _ body handler cleanup =>
    body.namedLabels ++ Handler.namedLabels? handler ++ Stmt.namedLabels? cleanup
  | .expr .. | .caseMarker .. | .breakLoop _ | .continueLoop _ | .goto .. | .ret .. | .localVar ..
  | .throwStmt .. | .empty _ => []

def Stmt.allNamedLabels : List Stmt → List (String × ScopeId)
  | [] => []
  | s :: rest => s.namedLabels ++ Stmt.allNamedLabels rest

def Stmt.namedLabels? : Option Stmt → List (String × ScopeId)
  | none => []
  | some s => s.namedLabels

def Handler.namedLabels? : Option Handler → List (String × ScopeId)
  | none => []
  | some (.mk _ body) => body.namedLabels

end

namespace Lowering

/-- Writes a function: its entry, the given body and what has to follow it. The result has the
number of the next label, too. -/
def written (c : Context) (label : String) (exported : Bool) (loc : Location) (body : LowerM Unit)
    (nextLabel : Nat) : Except InternalFault (PrimFunction × Nat) := do
  let code : LowerM Unit := do
    emit .entry
    body
    close
  let (_, s) ← (code.run c).run { nextLabel, loc }
  return ({ label, exported, loc, prims := s.resolved, slots := s.slots }, s.nextLabel)

end Lowering

open Lowering

def FunctionDef.lower (f : FunctionDef) (n : Names) (nextLabel : Nat) :
    Except InternalFault (PrimFunction × Nat) :=
  let named := f.body.namedLabels
  let afterCases := nextLabel + f.cases
  let inMemory := n.types.isVoid f.result || f.hiddenResult
  let c : Context :=
    { types := n.types
      symbols := n.symbols
      result := if inMemory then none else some (.ofType n.types f.result)
      hiddenResult := f.hiddenResult
      paramScope := f.paramScope
      tries := f.tries
      cases := (List.range f.cases).map fun k ↦ ⟨nextLabel + k⟩
      labels := (named.zipIdx.map fun ((name, scope), k) ↦ (name, ⟨afterCases + k⟩, scope)).reverse }
  written c f.label f.exported f.loc f.body.lowered.run (afterCases + named.length)

/-! ## Lifetime of structs -/

namespace StructDef

def constructorName : String := "__ctor"

/-- The member function that starts the tear-down. -/
def destructorName : String := "__dtor"

def member (offset : Nat) : Place := .indirect (.load (.param 0)) offset

def callForMember (label : String) (offset : Nat) : LowerM Unit := do
  callWithPointer label (← addressOf (member offset))

def callMethod (d : StructDef) (name : String) : LowerM Unit :=
  (d.methods.find? (·.name == name)).forM fun m ↦ do
    locate d.loc
    callWithPointer m.label (.load (.param 0))

def initField (t : TypeTable) (f : Field) : LowerM Unit := do
  locate f.loc
  match f.init, t.asStruct f.type with
  | some e, _ => e.lowered.assignTo (member f.offset)
  | none, some id =>
    let d := t.structDef id
    if d.needsInit then callForMember d.initLabel f.offset
  | none, none => return

/-- Initializes bases, table pointers, fields, and lastly calls the constructor. Of a union only the
first field is initialized. -/
def initCode (t : TypeTable) (d : StructDef) : LowerM Unit := do
  for b in d.bases do
    let base := t.structDef b.id
    if base.needsInit then callForMember base.initLabel b.offset
  for table in d.tables do storeTable (member table.pointerOffset) table.label
  for f in if d.isUnion then d.fields.take 1 else d.fields do initField t f
  d.callMethod constructorName

def termField (t : TypeTable) (f : Field) : LowerM Unit := do
  if let some id := t.asStruct f.type then
    let d := t.structDef id
    if d.needsTerm then
      locate f.loc
      callForMember d.termLabel f.offset

/-- Calls the destructor, then tears down fields and bases, the last one first. -/
def termCode (t : TypeTable) (d : StructDef) : LowerM Unit := do
  d.callMethod destructorName
  for f in if d.isUnion then [] else d.fields.reverse do termField t f
  for b in d.bases.reverse do
    let base := t.structDef b.id
    if base.needsTerm then callForMember base.termLabel b.offset

def lowerInit (d : StructDef) (n : Names) (nextLabel : Nat) :
    Except InternalFault (PrimFunction × Nat) :=
  written { n with } d.initLabel false d.loc (d.initCode n.types) nextLabel

def lowerTerm (d : StructDef) (n : Names) (nextLabel : Nat) :
    Except InternalFault (PrimFunction × Nat) :=
  written { n with } d.termLabel false d.loc (d.termCode n.types) nextLabel

end StructDef

end W16Compiler
