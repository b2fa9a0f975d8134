import W16Compiler.CommandLine.Arguments
import W16Compiler.CommandLine.Files
import W16Compiler.Compile

/-!
# The command line

Compiles one file. Faults of the source are reported as they are; any other failure has the name of
the program before it.
-/

namespace W16Compiler

/-- How a run ended and what it printed. -/
structure Outcome where
  exit : Nat := 0
  stdout : String := ""
  stderr : String := ""

namespace Outcome

def failed (program message : String) : Outcome :=
  { exit := 1, stderr := program ++ ": " ++ message ++ "\n" }

def ofFailure (program : String) : Failure → Outcome
  | .internal fault => failed program (Diagnostic.internal fault).render
  | .rejected faults => { exit := 1, stderr := (Failure.rejected faults).render ++ "\n" }

end Outcome

variable {m : Type → Type} [Monad m]

namespace Arguments

def options (a : Arguments) : Options where
  level := a.level
  listing := a.listing.isSome
  flow := a.dumpFlow
  file := a.input

/-- Writes a file and answers how that failed, if it did. What was written of it is removed. -/
def save (fs : Files m) (a : Arguments) (path text : String) : m (Option Outcome) := do
  match ← fs.write path text with
  | .ok _ => return none
  | .error fault =>
    fs.remove path
    return some (.failed a.program s!"failed to write '{path}': {fault.message}")

def saveAll (fs : Files m) (a : Arguments) (c : Compiled) : m (Option Outcome) := do
  match ← a.save fs a.output c.assembly with
  | some failure => return some failure
  | none =>
    match a.listing, c.listing with
    | some path, some text =>
      match ← a.save fs path text with
      | some failure =>
        fs.remove a.output
        return some failure
      | none => return none
    | _, _ => return none

def run (fs : Files m) (a : Arguments) : m Outcome := do
  match ← fs.read a.input with
  | .error fault => return .failed a.program s!"failed to read '{a.input}': {fault.message}"
  | .ok source =>
    if a.dumpTokens then
      match W16Compiler.dumpTokens a.options source with
      | .error failure => return .ofFailure a.program failure
      | .ok text => return { stdout := text }
    else
      match compile a.options source with
      | .error failure => return .ofFailure a.program failure
      | .ok c =>
        let outcome := (← a.saveAll fs c).getD {}
        return { outcome with stdout := c.flow.getD "" }

end Arguments

def runCommandLine (fs : Files m) (program : String) (args : List String) : m Outcome :=
  match Arguments.parse program args with
  | .ok (some a) => a.run fs
  | .ok none => return { stderr := Arguments.usage program }
  | .error fault =>
    return { exit := 2, stderr := program ++ ": " ++ fault.message ++ "\n" ++ Arguments.usage program }

end W16Compiler
