import W16Compiler.Data
import W16Compiler.Machine.Encode
import W16Compiler.Machine.Text
import W16Compiler.Text.Blank

/-!
# Assembly

The output as rows, of which there is an assembly text and a listing. Code comes first and then the
data, section by section. The first instruction of a source line has that line before it.
-/

namespace W16Compiler

inductive Row where
  | sectionStart (name : String) (flags : Nat)
  | source (loc : Location)
  | exported (name : String)
  | label (address : Nat) (name : String)
  /-- An instruction or data directive with the words that it stands for. -/
  | content (address : Nat) (words : List CodeWord) (text : String)

namespace Row

def comment (lines : Array String) (loc : Location) : String :=
  let text := (lines[loc.physicalLine - 1]?).getD ""
  s!"; {loc.file}:{loc.line}: " ++ String.ofList (Text.trimEnd text.toList)

def text (lines : Array String) : Row → String
  | sectionStart name flags => s!"\t.psect\t{name},pflg={flags},p2al=0\n"
  | source loc => comment lines loc ++ "\n"
  | exported name => s!"\t.global\t{name}\n"
  | label _ name => name ++ ":\n"
  | content _ _ text => text ++ "\n"

def margin : String := String.ofList (List.replicate 24 ' ')

def listed (address : String) (words : List CodeWord) (text : String) : String :=
  let front := Text.padRight 4 address ++ " " ++ Text.padRight 19 (" ".intercalate (words.map (·.text)))
  match Text.lines text with
  | [] => front ++ "\n"
  | first :: rest => front ++ first ++ "\n" ++ String.join (rest.map fun l ↦ margin ++ l ++ "\n")

def listing (lines : Array String) : Row → String
  | sectionStart name _ => margin ++ s!"\t.psect\t{name}\n"
  | source loc => margin ++ comment lines loc ++ "\n"
  | exported name => listed "" [] ("\t.global\t" ++ name)
  | label address name => listed (Text.hex 4 address) [] (name ++ ":")
  | content address words text => listed (Text.hex 4 address) words text

/-- The rows with each line of the source at most once; `seen` are those shown already. Code that no
line wrote has none. -/
def echoOnce (seen : List (String × Nat)) : List Row → List Row
  | [] => []
  | source loc :: rest =>
    if loc.line == 0 || seen.contains (loc.file, loc.line) then echoOnce seen rest
    else source loc :: echoOnce ((loc.file, loc.line) :: seen) rest
  | row :: rest => row :: echoOnce seen rest

end Row

def symbolRows (label : String) (exported : Bool) (address : Nat) : List Row :=
  (if exported then [.exported label] else []) ++ [.label address label]

def sourceRow (loc : Option Location) : List Row := (loc.map .source).toList

namespace MachineFunction

def rows (f : MachineFunction) (address : Nat) : Except InternalFault (List Row) := do
  let encoded ← f.code.encode address
  let body := (f.code.zip encoded).flatMap fun (i, at_, words) ↦
    sourceRow i.loc ++ [.content at_ words i.value.text]
  return symbolRows f.label f.exported address ++ body

def allRows (address : Nat) : List MachineFunction → Except InternalFault (List Row)
  | [] => return []
  | f :: rest => do
    let rows ← f.rows address
    return rows ++ (← allRows (address + f.code.size) rest)

end MachineFunction

namespace DataWord

def text : DataWord → String
  | value bits => toString (wrapBits bits 16 true)
  | symbol label offset => withOffset label offset

def codeWord : DataWord → CodeWord
  | value bits => .plain bits
  | symbol _ offset => .reloc offset

end DataWord

namespace DataItem

def rows (d : DataItem) (address : Nat) : List Row :=
  let contents :=
    if d.place = .bss then [.content address [] s!"\t.blkw\t{d.size}"]
    else d.words.zipIdx.map fun (w, k) ↦ .content (address + k) [w.codeWord] ("\t.word\t" ++ w.text)
  sourceRow d.loc ++ symbolRows d.label d.exported address ++ contents

def allRows (address : Nat) : List DataItem → List Row
  | [] => []
  | d :: rest => d.rows address ++ allRows (address + d.size) rest

end DataItem

namespace Assembly

def inSection (name : String) (flags : Nat) : List Row → List Row
  | [] => []
  | rows => .sectionStart name flags :: rows

def codeSection : String × Nat := ("text", 5)

def rows (functions : List MachineFunction) (data : List DataItem) :
    Except InternalFault (List Row) := do
  let code ← MachineFunction.allRows 0 functions
  let sections := Section.all.flatMap fun s ↦
    inSection s.name s.flags (DataItem.allRows 0 (data.filter (·.place = s)))
  return Row.echoOnce [] (inSection codeSection.1 codeSection.2 code ++ sections)

end Assembly

end W16Compiler
