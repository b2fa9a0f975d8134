import W16Compiler.CommandLine.Run

/-!
# The program

Runs the command line on the files of the system.
-/

namespace W16Compiler

def programName : String := "wcc"

def FileFault.ofError : IO.Error → FileFault
  | .noFileOrDirectory .. => .notFound
  | .inappropriateType _ code details | .permissionDenied _ code details
  | .resourceExhausted _ code details | .invalidArgument _ code details
  | .alreadyExists _ code details | .noSuchThing _ code details
  | .otherError code details => .system details code.toNat
  | .userError _ => .notText
  | e => .system (toString e) 5

def attemptFile {α : Type} (act : IO α) : IO (Except FileFault α) := do
  match ← act.toBaseIO with
  | .ok a => return .ok a
  | .error e => return .error (.ofError e)

def systemFiles : Files IO where
  read path := attemptFile (IO.FS.readFile path)
  write path text := attemptFile (IO.FS.writeFile path text)
  remove path := discard (attemptFile (IO.FS.removeFile path))

end W16Compiler

open W16Compiler in
def main (args : List String) : IO UInt32 := do
  let outcome ← runCommandLine systemFiles programName args
  (← IO.getStdout).putStr outcome.stdout
  (← IO.getStderr).putStr outcome.stderr
  return .ofNat outcome.exit
