import W16Compiler.Assembly
import W16Compiler.Grammar.Parse
import W16Compiler.Lowering.Function
import W16Compiler.Machine.Optimize
import W16Compiler.Machine.Relax
import W16Compiler.Machine.Select
import W16Compiler.Machine.Thunk
import W16Compiler.Prim.Optimize
import W16Compiler.Token.Dump
import W16Compiler.Token.Scan

/-!
# Compilation

From a source text to assembly. Faults of the source are collected; if there are any, nothing is
written. A fault of the compiler itself ends the compilation at once.
-/

namespace W16Compiler

structure Options where
  /-- Zero turns optimization off. -/
  level : Nat := 1
  listing : Bool := false
  /-- Whether to show the primitive operations of every function. -/
  flow : Bool := false
  file : String := "<stdin>"

structure Compiled where
  assembly : String
  listing : Option String
  flow : Option String
  /-- The number of functions, those that the compiler adds included. -/
  functions : Nat
  codeWords : Nat

inductive Failure where
  | internal (fault : InternalFault)
  | rejected (faults : List Diagnostic)

def Failure.render : Failure → String
  | internal fault => (Diagnostic.internal fault).render
  | rejected faults => "\n".intercalate (faults.map (·.render))

/-- The largest frame whose displacements fit a word. -/
def maxFrame : Nat := 0x7fff

/-- Answers all results, or else the first fault of the compiler, or else all other faults. -/
def collect {α : Type} (rs : List (Except Diagnostic α)) : Except Failure (List α) :=
  let faults := rs.filterMap fun
    | .error d => some d
    | .ok _ => none
  match faults.findSome? fun
    | .internal fault => some fault
    | _ => none with
  | some fault => throw (.internal fault)
  | none =>
    if faults.isEmpty then return rs.filterMap (·.toOption)
    else throw (.rejected faults)

def numbered {α : Type} (nextLabel : Nat) :
    List (Nat → Except InternalFault (α × Nat)) → Except Failure (List α × Nat)
  | [] => return ([], nextLabel)
  | step :: rest =>
    match step nextLabel with
    | .error fault => throw (.internal fault)
    | .ok (a, nextLabel) => do
      let (as, nextLabel) ← numbered nextLabel rest
      return (a :: as, nextLabel)

def StructDef.lifetime (d : StructDef) (n : Names) :
    List (Nat → Except InternalFault (PrimFunction × Nat)) :=
  (if d.needsInit then [d.lowerInit n] else []) ++ (if d.needsTerm then [d.lowerTerm n] else [])

namespace MachineFunction

def finish (m : MachineFunction) : Except Diagnostic MachineFunction :=
  match m.relax with
  | (some fault, _) => throw (.internal fault)
  | (none, m) => return m

end MachineFunction

def PrimFunction.machine (f : PrimFunction) (level : Nat) : Except Diagnostic MachineFunction :=
  match f.select with
  | .error fault => throw (.internal fault)
  | .ok m =>
    match m.layout with
    | (some fault, _) => throw (.internal fault)
    | (none, m) =>
      if m.frame > maxFrame then throw (.frameTooLarge f.loc f.label m.frame)
      else (if level > 0 then m.optimize else m).finish

def dumpTokens (o : Options) (source : String) : Except Failure String :=
  match Token.scan source o.file with
  | (tokens, []) => return Token.dumpAll tokens
  | (_, faults) => throw (.rejected (faults.map fun (loc, fault) ↦ .lexical loc fault))

def compile (o : Options) (source : String) : Except Failure Compiled := do
  let (tokens, lexical) := Token.scan source o.file
  let (unit, faults) := Grammar.parse tokens
  if let some (.internal (.overflow verb)) := faults.getLast? then throw (.internal (.overflow verb))
  let names : Names := ⟨unit.types, unit.symbols⟩
  let (functions, nextLabel) ← numbered unit.nextLabel (unit.functions.toList.map (·.lower names))
  let faults := lexical.map (fun (loc, fault) ↦ Diagnostic.lexical loc fault) ++ faults
  unless faults.isEmpty do throw (.rejected faults)
  let structs := unit.types.structs.toList.filter fun d ↦ d.used && d.complete
  let (added, _) ← numbered nextLabel (structs.flatMap (·.lifetime names))
  let functions := (functions ++ added).map (·.optimize o.level)
  let thunks := (AdjustThunk.ofStructs unit.types structs).map (·.function.finish)
  let machine ← collect (functions.map (·.machine o.level) ++ thunks)
  let tables := structs.flatMap fun d ↦ d.tables.map (·.data d.loc)
  match Assembly.rows machine (unit.data.toList ++ tables) with
  | .error fault => throw (.internal fault)
  | .ok rows =>
    let lines := (Text.lines source).toArray
    return {
      assembly := String.join (rows.map (·.text lines))
      listing := if o.listing then some (String.join (rows.map (·.listing lines))) else none
      flow := if o.flow then some (PrimFunction.dumpAll functions) else none
      functions := machine.length
      codeWords := total (machine.map (·.code.size)) }

end W16Compiler
