import W16Compiler.Declaration

/-!
# Scopes

Scopes form a tree under the scope of the unit; a scope stands in the table behind its parent. Each
has one set of names for declarations and one for the tags of structs, unions and enumerations.
-/

namespace W16Compiler

inductive ScopeKind where
  | global
  | block
  /-- A struct body, whose names are members of the current object. -/
  | member (id : StructId)
  | param
  | tryBody (id : TryId)
  | catchBody (id : TryId)
  deriving DecidableEq

def ScopeKind.isProtected : ScopeKind → Bool
  | tryBody _ | catchBody _ => true
  | _ => false

inductive Tag where
  | struct (id : StructId)
  | enum (type : TypeId)
  deriving DecidableEq

structure Scope where
  kind : ScopeKind
  parent : Option ScopeId
  names : List (String × DeclId) := []
  tags : List (String × Tag × Location) := []
  deriving DecidableEq

instance : Inhabited Scope := ⟨{ kind := .global, parent := none }⟩

structure Symbols where
  scopes : Array Scope := #[default]
  decls : Array Declaration := #[]

namespace Symbols

instance : Inhabited Symbols := ⟨{}⟩

def pushScope (s : Symbols) (kind : ScopeKind) (parent : ScopeId) : ScopeId × Symbols :=
  (⟨s.scopes.size⟩, { s with scopes := s.scopes.push { kind, parent := some parent } })

def scope (s : Symbols) (id : ScopeId) : Scope := (s.scopes[id.index]?).getD default

def decl (s : Symbols) (id : DeclId) : Declaration := (s.decls[id.index]?).getD default

def modifyDecl (s : Symbols) (id : DeclId) (f : Declaration → Declaration) : Symbols :=
  { s with decls := s.decls.modify id.index f }

def setEntity (s : Symbols) (id : DeclId) (e : Entity) : Symbols :=
  s.modifyDecl id fun d ↦ { d with entity := e }

def modifyScope (s : Symbols) (id : ScopeId) (f : Scope → Scope) : Symbols :=
  { s with scopes := s.scopes.modify id.index f }

def declareHidden (s : Symbols) (d : Declaration) : DeclId × Symbols :=
  (⟨s.decls.size⟩, { s with decls := s.decls.push d })

def declare (s : Symbols) (d : Declaration) : DeclId × Symbols :=
  let (id, s) := s.declareHidden d
  if d.name == "" then (id, s)
  else (id, s.modifyScope d.scope fun c ↦ { c with names := (d.name, id) :: c.names })

def lookupLocal (s : Symbols) (id : ScopeId) (name : String) : Option DeclId :=
  (s.scope id).names.lookup name

def chain (s : Symbols) (id : ScopeId) : List ScopeId :=
  match (s.scope id).parent with
  | some p => if _h : p.index < id.index then id :: s.chain p else [id]
  | none => [id]
termination_by id.index

def lookup (s : Symbols) (id : ScopeId) (name : String) : Option (ScopeId × DeclId) :=
  (s.chain id).findSome? fun c ↦ (s.lookupLocal c name).map (c, ·)

def declareTag (s : Symbols) (id : ScopeId) (name : String) (tag : Tag) (loc : Location) : Symbols :=
  s.modifyScope id fun c ↦ { c with tags := (name, tag, loc) :: c.tags }

def lookupTagLocal (s : Symbols) (id : ScopeId) (name : String) : Option (Tag × Location) :=
  (s.scope id).tags.lookup name

def lookupTag (s : Symbols) (id : ScopeId) (name : String) : Option Tag :=
  (s.chain id).findSome? fun c ↦ (s.lookupTagLocal c name).map (·.1)

def encloses (s : Symbols) (outer inner : ScopeId) : Bool := (s.chain inner).contains outer

/-- The try and catch bodies left on the way from `source` to `target`, the innermost first. -/
def crossed (s : Symbols) (source target : ScopeId) : List ScopeKind :=
  (((s.chain source).takeWhile fun c ↦ !s.encloses c target).map fun c ↦ (s.scope c).kind).filter
    (·.isProtected)

end Symbols

end W16Compiler
