/-!
# Paths

A path is text in which `/` divides names. Trailing `/` and `/.` say nothing about which file is
meant. Paths are taken apart from their end, so that here they stand backwards.
-/

namespace W16Compiler.Path

def dropTail : List Char → List Char
  | '/' :: rest => dropTail rest
  | '.' :: '/' :: rest => dropTail rest
  | path => path

/-- The name at the end of a path and the folder before it. A path that ends in `.` or `..` names no
file. -/
def splitName (path : List Char) : Option (List Char × List Char) :=
  let path := dropTail path
  let name := path.takeWhile (· != '/')
  if name ∈ [[], ['.'], ['.', '.']] then none else some (name, path.drop name.length)

def splitExtension (name : List Char) : List Char × List Char :=
  match name.dropWhile (· != '.') with
  | _ :: c :: rest => (c :: rest, name.takeWhile (· != '.'))
  | _ => (name, [])

def setExtension (path extension : List Char) : List Char :=
  match splitName path with
  | none => path
  | some (name, folder) => extension ++ '.' :: (splitExtension name).1 ++ folder

def cutExtension (path : List Char) : List Char :=
  match splitName path with
  | none => path
  | some (name, _) => path.drop (splitExtension name).2.length

/-- The path with its extension replaced, or added if it has none. The old one is cut off first. A
path that then ends in `..` names a folder and gets no extension. -/
def withExtension (path extension : String) : String :=
  String.ofList (setExtension (cutExtension path.toList.reverse) extension.toList.reverse).reverse

end W16Compiler.Path
