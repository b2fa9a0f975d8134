/-!
# Handles

Types, structs, declarations, scopes and try statements are entered in tables in the order they are
met, and are referred to by their place there.
-/

namespace W16Compiler

structure TypeId where
  index : Nat
  deriving DecidableEq, Inhabited, Repr

structure StructId where
  index : Nat
  deriving DecidableEq, Inhabited, Repr

structure DeclId where
  index : Nat
  deriving DecidableEq, Inhabited, Repr

structure ScopeId where
  index : Nat
  deriving DecidableEq, Inhabited, Repr

/-- A try statement within its function. -/
structure TryId where
  index : Nat
  deriving DecidableEq, Inhabited, Repr

namespace TypeId

/-! The types that every table starts with. -/

def void : TypeId := ⟨0⟩
def char : TypeId := ⟨1⟩
def uchar : TypeId := ⟨2⟩
def int : TypeId := ⟨3⟩
def uint : TypeId := ⟨4⟩
def long : TypeId := ⟨5⟩
def ulong : TypeId := ⟨6⟩
def float : TypeId := ⟨7⟩
def double : TypeId := ⟨8⟩

end TypeId

def ScopeId.global : ScopeId := ⟨0⟩

end W16Compiler
