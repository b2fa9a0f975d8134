import W16Compiler.Constant.Basic
import W16Compiler.Ids
import W16Compiler.Location

/-!
# Declarations

What a name can stand for.
-/

namespace W16Compiler

inductive Storage where
  | none | static | external | auto | register | typedef
  deriving DecidableEq, Repr

inductive VarPlace where
  | global (label : String)
  | stack
  /-- A word offset into the argument area. -/
  | param (offset : Nat)
  deriving DecidableEq

inductive Entity where
  | variable (type : TypeId) (storage : Storage) (place : VarPlace)
  | function (type : TypeId) (storage : Storage) (label : String) (defined : Bool)
      (memberOf : Option StructId) (params : List String)
  | enumerator (value : Int)
  | numeric (type : TypeId) (value : Constant)
  /-- A constant array of characters. -/
  | text (type : TypeId) (label : String)
  | asmLabel (type : TypeId) (label : String)
  | typedef (type : TypeId)
  deriving DecidableEq

structure Declaration where
  name : String
  entity : Entity
  scope : ScopeId
  loc : Location
  deriving DecidableEq

namespace Declaration

instance : Inhabited Declaration := ⟨⟨"", .enumerator 0, .global, .builtin⟩⟩

def type (d : Declaration) : TypeId :=
  match d.entity with
  | .variable type .. | .function type .. | .numeric type _ | .text type _ | .asmLabel type _
  | .typedef type => type
  | .enumerator _ => .int

def isTypedef (d : Declaration) : Bool := d.entity matches .typedef _

end Declaration

end W16Compiler
