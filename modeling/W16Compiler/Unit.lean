import W16Compiler.Data
import W16Compiler.Scope
import W16Compiler.Types.Basic

/-!
# Units

What a source text defines: functions with typed bodies, and static data.
-/

namespace W16Compiler

/-- The tables that give meaning to the types and declarations of a unit. -/
structure Names where
  types : TypeTable
  symbols : Symbols

structure FunctionDef where
  decl : DeclId
  label : String
  exported : Bool
  result : TypeId
  /-- In order; the object of a member function comes first. -/
  params : List DeclId
  /-- Whether the first argument points to where the result goes. -/
  hiddenResult : Bool
  body : Stmt
  paramScope : ScopeId
  tries : List Bool
  cases : Nat
  loc : Location

end W16Compiler
