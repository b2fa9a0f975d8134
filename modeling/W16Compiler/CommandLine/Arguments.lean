import W16Compiler.CommandLine.Path

/-!
# Arguments

The arguments of the command line, read from left to right. A later file name or level replaces an
earlier one; a second input is a fault.
-/

namespace W16Compiler

structure Arguments where
  program : String
  input : String
  output : String
  listing : Option String
  level : Nat
  dumpTokens : Bool
  dumpFlow : Bool
  deriving DecidableEq

inductive ArgumentFault where
  | missingFile (flag : String)
  | invalidFlag (flag : String)
  | unexpected (arg : String)
  | noInput
  deriving DecidableEq

def ArgumentFault.message : ArgumentFault → String
  | missingFile flag => s!"missing file name after '{flag}'"
  | invalidFlag flag => s!"invalid flag '{flag}'"
  | unexpected arg => s!"unexpected argument '{arg}'"
  | noInput => "no input file"

namespace Arguments

/-- What the arguments so far ask for. -/
structure Request where
  input : Option String := none
  output : Option String := none
  listing : Option String := none
  level : Nat := 1
  dumpTokens : Bool := false
  dumpFlow : Bool := false

def read (r : Request) : List String → Except ArgumentFault (Option Request)
  | [] => return some r
  | arg :: rest =>
    if arg ∈ ["-o", "--output"] then
      match rest with
      | [] => throw (.missingFile "-o")
      | path :: rest => read { r with output := some path } rest
    else if arg ∈ ["-l", "--listing"] then
      match rest with
      | [] => throw (.missingFile "-l")
      | path :: rest => read { r with listing := some path } rest
    else if arg = "-O0" then read { r with level := 0 } rest
    else if arg = "--dump-tokens" then read { r with dumpTokens := true } rest
    else if arg = "--dump-ir" then read { r with dumpFlow := true } rest
    else if arg ∈ ["-h", "--help"] then return none
    else if arg.startsWith "-" && arg != "-" then throw (.invalidFlag arg)
    else if r.input.isSome then throw (.unexpected arg)
    else read { r with input := some arg } rest

/-- The assembly goes to the input's path with the extension `s` unless another is given. -/
def parse (program : String) (args : List String) : Except ArgumentFault (Option Arguments) := do
  match ← read {} args with
  | none => return none
  | some r =>
    match r.input with
    | none => throw .noInput
    | some input =>
      return some {
        program, input
        output := r.output.getD (Path.withExtension input "s")
        listing := r.listing
        level := r.level
        dumpTokens := r.dumpTokens
        dumpFlow := r.dumpFlow }

def flags : List (String × String) :=
  [("-o, --output", "FILE   write assembly to FILE (default: input with '.s' extension)"),
    ("-l, --listing", "FILE  write a listing with addresses and encoded words to FILE"),
    ("-O0", "                disable the IR and machine-code optimizers"),
    ("--dump-tokens", "        print the token stream as JSON lines and stop"),
    ("--dump-ir", "            print the optimized IR of every function"),
    ("-h, --help", "            print this summary")]

def usage (program : String) : String :=
  s!"usage:\n      {program} [options] <infile>\noptions:\n" ++
  String.join (flags.map fun (names, description) ↦ s!"   {names}  {description}\n") ++
  "environment:\n   WCC_LOG               tracing filter (default: warn)\n"

end Arguments

end W16Compiler
