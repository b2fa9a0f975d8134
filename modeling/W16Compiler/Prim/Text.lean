import W16Compiler.Binary64.Layout
import W16Compiler.Prim.Basic
import W16Compiler.Text.Numeral

/-!
# Texts of primitive operations

How the nodes of a flow list are shown, and the dump of whole functions.
-/

namespace W16Compiler

def shownOperandFloat : Binary64.Layout where
  positional := some (-4, 16)
  point := true
  plus := false
  tie := .up
  infinity := "inf"
  nan := "NaN"

def Rep.text : Rep → String
  | byte signed => if signed then "b" else "ub"
  | word signed => if signed then "w" else "uw"
  | long signed => if signed then "l" else "ul"
  | float => "f"
  | double => "d"
  | block n => s!"blk{n}"

def Cond.text : Cond → String
  | eq => "eq"
  | ne => "ne"
  | lt => "lt"
  | ge => "ge"
  | gt => "gt"
  | le => "le"

def withOffset (name : String) (offset : Int) : String :=
  if offset = 0 then name else name ++ Text.signed offset

mutual

def Operand.text : Operand → String
  | .imm value => s!"#{value}"
  | .float value => "#" ++ value.text shownOperandFloat
  | .address base offset =>
    let name := match base with
      | .slot s => s.text
      | .param => "param"
      | .global label => label
    "&" ++ withOffset name offset
  | .load place => place.text

def Place.text : Place → String
  | .slot s offset => withOffset s.text offset
  | .param offset => withOffset "param" offset
  | .global label offset => withOffset label offset
  | .arg word => s!"arg{word}"
  | .indirect pointer offset => "[" ++ pointer.text ++ Text.signed offset ++ "]"

end

namespace Prim

def text : Prim → String
  | entry => "    entry"
  | label l => l.text ++ ":"
  | jump l => "    jump " ++ l.text
  | compare cond rep lhs rhs l =>
    s!"    if {cond.text}.{rep.text} {lhs.text}, {rhs.text} goto {l.text}"
  | test nonzero rep value l =>
    let op := if nonzero then "nz" else "z"
    s!"    if {op}.{rep.text} {value.text} goto {l.text}"
  | callStart words => s!"    callstart {words}"
  | call target words result =>
    let store := match result with
      | some (place, rep) => s!"{place.text}.{rep.text} = "
      | none => ""
    let name := match target with
      | .direct target => target
      | .indirect pointer => "*" ++ pointer.text
    s!"    {store}call {name} ({words})"
  | cast dst rep src srcRep => s!"    {dst.text}.{rep.text} = ({rep.text}) {src.text}.{srcRep.text}"
  | unary op rep dst src =>
    let name := match op with
      | .neg => "neg"
      | .not => "not"
    s!"    {dst.text}.{rep.text} = {name} {src.text}"
  | binary op rep dst lhs rhs =>
    s!"    {dst.text}.{rep.text} = {lhs.text} {op.spelling} {rhs.text}"
  | assign rep dst src => s!"    {dst.text}.{rep.text} = {src.text}"
  | ret none => "    return"
  | ret (some (value, rep)) => s!"    return {value.text}.{rep.text}"
  | throwValue value => "    throw " ++ value.text
  | tryBegin record handler => s!"    try {record.text} -> {handler.text}"
  | tryEnd record => "    endtry " ++ record.text
  | cleanupEntry l link => s!"{l.text}: finally {link.text}"
  | cleanupCall start link resume =>
    s!"    callfinally {start.text} via {link.text} resume {resume.text}"
  | cleanupReturn link resumes =>
    let names := ", ".intercalate (resumes.map (·.text))
    s!"    retfinally {link.text} [{names}]"
  | catchEntry l (some dst) => s!"{l.text}: catch -> {dst.text}"
  | catchEntry l none => l.text ++ ": catch"

end Prim

namespace PrimFunction

def text (f : PrimFunction) : String :=
  f.label ++ ":\n" ++ String.join (f.prims.map fun p ↦ p.value.text ++ "\n")

def rule : String := String.ofList (List.replicate 59 '═')

def thinRule : String := String.ofList (List.replicate 59 '─')

def dump (f : PrimFunction) : String :=
  let slots := f.slots.toList
  let temps := (slots.filter (·.temp)).length
  let words := total (slots.map (·.words))
  let head := f.label ++ if f.exported then " (global)" else ""
  let lines := f.prims.zipIdx.map fun (p, i) ↦
    Text.padLeft 4 '0' (toString i) ++ ": " ++ p.value.text
  let all := [rule, head, s!"Slots: {slots.length} ({temps} temps), {words} words", thinRule] ++ lines
  String.join (all.map (· ++ "\n"))

def dumpAll (fs : List PrimFunction) : String :=
  if fs.isEmpty then "" else String.join (fs.map dump) ++ rule ++ "\n"

end PrimFunction

end W16Compiler
