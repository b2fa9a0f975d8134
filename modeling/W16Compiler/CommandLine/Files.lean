/-!
# Files

What the command line asks of a file system, and a file system that is a value: a folder of texts,
addressed relative to it.
-/

namespace W16Compiler

/-- Why a file cannot be read or written. -/
inductive FileFault where
  | notFound
  | notDirectory
  | isDirectory
  | nameTooLong
  | notText
  | system (text : String) (code : Nat)
  deriving DecidableEq

namespace FileFault

def numbered (text : String) (code : Nat) : String := s!"{text} (os error {code})"

def message : FileFault → String
  | notFound => numbered "No such file or directory" 2
  | notDirectory => numbered "Not a directory" 20
  | isDirectory => numbered "Is a directory" 21
  | nameTooLong => numbered "File name too long" 36
  | notText => "stream did not contain valid UTF-8"
  | system text code => numbered text code

end FileFault

structure Files (m : Type → Type) where
  read : String → m (Except FileFault String)
  write : String → String → m (Except FileFault Unit)
  remove : String → m Unit

/-- Where a file is: the names on the way from the folder. The way may start upwards. -/
abbrev FilePlace := List String

structure Folder where
  files : List (FilePlace × String) := []

namespace Folder

/-- The largest size of a name, and of a path with its end mark. -/
def maxName : Nat := 255

def maxPath : Nat := 4096

/-- Whether a place lies outside of the folder, where nothing is known but that it leads there. -/
def isOutside (p : FilePlace) : Bool := p.all fun name ↦ name == ".." || name == "/"

def isFolder (f : Folder) (p : FilePlace) : Bool :=
  isOutside p || f.files.any fun (q, _) ↦ p.isPrefixOf q && p != q

def parent (p : FilePlace) : FilePlace :=
  if p == ["/"] then p else if isOutside p then p ++ [".."] else p.dropLast

def step (f : Folder) (p : FilePlace) (name : String) : Except FileFault FilePlace :=
  if !f.isFolder p then throw (if (f.files.lookup p).isSome then .notDirectory else .notFound)
  else if name == "" || name == "." then return p
  else if name == ".." then return parent p
  else if maxName < name.utf8ByteSize then throw .nameTooLong
  else return p ++ [name]

def walk (f : Folder) (p : FilePlace) (names : List String) : Except FileFault FilePlace :=
  names.foldlM f.step p

def split (path : String) : Except FileFault (FilePlace × List String) :=
  if path == "" then throw .notFound
  else if maxPath ≤ path.utf8ByteSize then throw .nameTooLong
  else
    match path.splitOn "/" with
    | "" :: names => return (["/"], names)
    | names => return ([], names)

def read (f : Folder) (path : String) : Except FileFault String := do
  let (start, names) ← split path
  let p ← f.walk start names
  match f.files.lookup p with
  | some text => return text
  | none => throw (if f.isFolder p then .isDirectory else .notFound)

def target (f : Folder) (path : String) : Except FileFault FilePlace := do
  let (start, names) ← split path
  let slash := names.getLast? == some ""
  let names := (names.reverse.dropWhile (· == "")).reverse
  let p ← f.walk start names.dropLast
  let last := names.getLast?.getD "."
  if slash && last != "." && last != ".." then throw .isDirectory
  let p ← f.step p last
  if f.isFolder p then throw .isDirectory else return p

def without (f : Folder) (p : FilePlace) : Folder := { files := f.files.filter (·.1 != p) }

def write (f : Folder) (path text : String) : Except FileFault Folder := do
  let p ← f.target path
  return { files := (f.without p).files ++ [(p, text)] }

def remove (f : Folder) (path : String) : Folder :=
  match f.target path with
  | .ok p => f.without p
  | .error _ => f

def ofTexts (texts : List (String × String)) : Folder :=
  { files := texts.map fun (path, text) ↦ (path.splitOn "/", text) }

def entries (f : Folder) : List (String × String) :=
  f.files.filterMap fun
    | ([name], text) => some (name, text)
    | (name :: _, _) => if name == ".." || name == "/" then none else some (name, "")
    | ([], _) => none

def access : Files (StateM Folder) where
  read path := return (← get).read path
  write path text := do
    match (← get).write path text with
    | .ok f =>
      set f
      return .ok ()
    | .error fault => return .error fault
  remove path := modify (·.remove path)

end Folder

end W16Compiler
