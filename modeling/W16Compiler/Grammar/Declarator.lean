import W16Compiler.Grammar.Expression

/-!
# Declarators

A declarator is read from the outside in and applied from the inside out: pointers first, then
suffixes from the last to the first, then the modifiers inside parentheses.
-/

namespace W16Compiler.Grammar

def qualifier (seen : Bool × Bool) : ReadM (Turn (Bool × Bool) (Bool × Bool)) := do
  if ← eatWord .constKw then return .again (true, seen.2)
  if ← eatWord .volatileKw then return .again (seen.1, true)
  return .done seen

def qualifiers : ReadM (Bool × Bool) := loop (false, false) qualifier

def pointer (ms : List Modifier) : ReadM (Turn (List Modifier) (List Modifier)) := do
  if !(← eat .star) then return .done ms.reverse
  let (isConst, isVolatile) ← qualifiers
  return .again (.pointer isConst isVolatile :: ms)

def adjustParamType (ty : TypeId) : TypingM TypeId := do
  let t ← get
  match t.element ty with
  | some element => entered (·.pointerTo element)
  | none => if t.isFunction ty then entered (·.pointerTo ty) else return ty

def parameter (r : Readers) : ReadM Param := do
  let spec ← r.specifiers
  if spec.storage ≠ .none && spec.storage ≠ .register then
    grammatical spec.loc .storageOnParameter
  let d ← r.declarator
  let (ty, _) ← applyDeclarator spec.type d
  let ty ← adjustParamType ty
  if (← get).types.isVoid ty then semantic spec.loc .voidParameter
  return ⟨d.name.map (·.1), ty, spec.loc⟩

def listed (r : Readers) (params : List Param) : ReadM (Turn (List Param) (List Param × Bool)) := do
  if ← eat .ellipsis then
    let _ ← expect .rightParen
    return .done (params.reverse, true)
  let params := (← parameter r) :: params
  if ← eat .comma then return .again params
  let _ ← expect .rightParen
  return .done (params.reverse, false)

def parameterList (r : Readers) : ReadM (List Param × Bool) := do
  if ← eat .rightParen then return ([], false)
  if ← peekIsWord .voidKw then
    if (← peekNth 1).isPunct .rightParen then
      let _ ← next
      let _ ← next
      return ([], false)
  loop [] (listed r)

def arrayLength (r : Readers) : ReadM (Option Nat) := do
  if ← eat .rightBracket then return none
  let e ← expression r false
  let n ← constInt e
  if n ≤ 0 || n > maxObjectWords then semantic e.loc (.arraySize n)
  let _ ← expect .rightBracket
  return some n.toNat

def suffix (r : Readers) (ms : List Modifier) : ReadM (Turn (List Modifier) (List Modifier)) := do
  if ← eat .leftBracket then return .again (.array (← arrayLength r) :: ms)
  if ← eat .leftParen then
    let (params, varargs) ← parameterList r
    return .again (.function params varargs :: ms)
  return .done ms

/-- The name of a declarator, or a declarator in parentheses. A parenthesis starts one only if a star
or another parenthesis follows. -/
def declaratorCore (r : Readers) : ReadM Declarator := do
  match (← peek).kind with
  | .ident name =>
    let loc := (← next).loc
    if ← eat .colonColon then
      let member ← expectIdent
      return { name := some member, owner := some (name, loc) }
    return { name := some (name, loc) }
  | .punct .leftParen =>
    let after ← peekNth 1
    if after.isPunct .star || after.isPunct .leftParen then
      let _ ← next
      let d ← r.declarator
      let _ ← expect .rightParen
      return d
    return {}
  | _ => return {}

def declarator (r : Readers) : ReadM Declarator := do
  let outer ← loop [] pointer
  let core ← declaratorCore r
  let after ← loop [] (suffix r)
  return { core with modifiers := outer ++ after ++ core.modifiers }

def asmLabel : ReadM (Option String) := do
  if !(← eatWord .asmKw) then return none
  let _ ← expect .leftParen
  let t ← next
  match t.kind with
  | .str bytes =>
    let _ ← expect .rightParen
    return some (Text.decodeUtf8 bytes)
  | other => grammatical t.loc (.asmWithoutString other.text)

end W16Compiler.Grammar
