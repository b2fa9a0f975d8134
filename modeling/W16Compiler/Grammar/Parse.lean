import W16Compiler.Grammar.Statement

/-!
# Units

A unit is read declaration by declaration. After a fault the reader goes on behind the declaration
that has it; a fault of the compiler itself ends the reading.
-/

namespace W16Compiler.Grammar

def readersWithin : Nat → Readers
  | 0 => .exhausted
  | fuel + 1 =>
    let r := readersWithin fuel
    { expression := expression r, statement := statement r, compound := compound r,
      specifiers := specifiers r, declarator := declarator r }

/-- A declaration at the top level. Only its first declarator can have a body. -/
def externalDeclaration (r : Readers) : ReadM Unit := do
  let spec ← specifiers r
  if spec.isVirtual then grammatical spec.loc .virtualOutsideStruct
  if ← eat .semicolon then return
  loop true fun first ↦ do
    let d ← declarator r
    let (ty, params) ← applyDeclarator spec.type d
    let asm ← asmLabel
    if first && (← get).types.isFunction ty && (← peekIs .leftBrace) then
      let loc := (d.name.map (·.2)).getD spec.loc
      let (decl, owner) ← declareFunction spec d ty params asm
      functionBody r decl (params.getD []) owner loc
      return .done ()
    let _ ← declareObject r spec d ty params asm false
    if ← eat .comma then return .again false
    let _ ← expect .semicolon
    return .done ()

def unitWithin (r : Readers) : Nat → State → List Diagnostic → State × List Diagnostic
  | 0, s, ds => (s, .internal .outOfSteps :: ds)
  | fuel + 1, s, ds =>
    if s.tokens.atEnd then (s, ds)
    else
      let start := s.tokens.position
      match externalDeclaration r s with
      | (.ok _, s) => unitWithin r fuel s ds
      | (.error d, s) =>
        if d.isFatal then (s, d :: ds)
        else
          let tokens := s.tokens.resync start
          unitWithin r fuel { s with function := none, scope := .global, tokens } (d :: ds)

def parse (tokens : List Token) : State × List Diagnostic :=
  let s : State := { tokens := .ofTokens tokens }
  let bound := s.tokens.remaining + 1
  let (s, ds) := unitWithin (readersWithin bound) bound s []
  (s, ds.reverse)

end W16Compiler.Grammar
