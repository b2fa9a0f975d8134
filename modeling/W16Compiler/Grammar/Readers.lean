import W16Compiler.Grammar.State

/-!
# Declarators and the recursive readers

The readers of expressions, statements and declarations call each other. Those of one module call
readers of modules before it directly and all others through a record. A call through the record
always comes after a token that the caller has taken, so the number of tokens bounds how deep such
calls nest.
-/

namespace W16Compiler.Grammar

structure Param where
  name : Option String
  type : TypeId
  loc : Location

/-- What the declarators of a declaration share. -/
structure Specifiers where
  storage : Storage
  type : TypeId
  isVirtual : Bool
  loc : Location

inductive Modifier where
  | pointer (isConst isVolatile : Bool)
  | array (length : Option Nat)
  | function (params : List Param) (varargs : Bool)

structure Declarator where
  name : Option (String × Location) := none
  /-- The struct in a qualified name. -/
  owner : Option (String × Location) := none
  /-- In the order in which they apply to the type of the specifiers. -/
  modifiers : List Modifier := []

structure Readers where
  /-- An expression, with or without a comma operator at its top. -/
  expression : Bool → ReadM Expr
  statement : ReadM Stmt
  compound : ReadM Stmt
  specifiers : ReadM Specifiers
  declarator : ReadM Declarator

def Readers.exhausted : Readers where
  expression _ := internal .outOfSteps
  statement := internal .outOfSteps
  compound := internal .outOfSteps
  specifiers := internal .outOfSteps
  declarator := internal .outOfSteps

def Modifier.params : Modifier → Option (List Param)
  | function params _ => some params
  | _ => none

def Modifier.apply (loc : Location) (ty : TypeId) : Modifier → TypingM TypeId
  | pointer isConst isVolatile => do
    let p ← entered (·.pointerTo ty)
    entered (·.qualified p isConst isVolatile)
  | array length => do
    let t ← get
    if t.isFunction ty then typeFault loc .arrayOfFunctions
    if t.isVoid ty then typeFault loc .arrayOfVoid
    if let (some n, some size) := (length, t.sizeOf ty) then
      if size * n > maxObjectWords then typeFault loc (.arrayTooLarge (size * n))
    entered (·.arrayOf ty length)
  | function params varargs => do
    let t ← get
    if t.isFunction ty || t.isArray ty then typeFault loc .badResult
    entered (·.function (t.unqualified ty) (params.map (·.type)) varargs)

/-- The type that a declarator makes of a base type, and the parameters if it declares a function.
Faults are reported at the name, or at the next token if there is none. -/
def applyDeclarator (base : TypeId) (d : Declarator) : ReadM (TypeId × Option (List Param)) := do
  let loc ← match d.name with
    | some (_, loc) => pure loc
    | none => here
  let ty ← d.modifiers.foldlM (fun ty m ↦ m.apply loc ty) base
  return (ty, d.modifiers.getLast?.bind (·.params))

def typeName (r : Readers) : ReadM TypeId := do
  let spec ← r.specifiers
  if spec.storage ≠ .none then grammatical spec.loc .storageInTypeName
  let d ← r.declarator
  if let some (_, loc) := d.name then grammatical loc .nameInTypeName
  return (← applyDeclarator spec.type d).1

end W16Compiler.Grammar
