import W16Compiler.Fault.Conversion
import W16Compiler.Types.Layout

/-!
# Conversions

How a value of one type becomes a value of another, implicitly or by a cast, and the types of
arithmetic.
-/

namespace W16Compiler

/-- Arithmetic types by strength, after promotion. -/
inductive Rank where
  | int | uint | long | ulong | float | double
  deriving DecidableEq, Repr

namespace Rank

def order : Rank → Nat
  | int => 0
  | uint => 1
  | long => 2
  | ulong => 3
  | float => 4
  | double => 5

def type : Rank → TypeId
  | int => .int
  | uint => .uint
  | long => .long
  | ulong => .ulong
  | float => .float
  | double => .double

def stronger (a b : Rank) : Rank := if a.order ≤ b.order then b else a

end Rank

inductive Conversion where
  | identity
  /-- Of width, of signedness, or between integers and floating numbers. -/
  | numeric
  /-- The same bits under another type. -/
  | reinterpret
  /-- A pointer that moves by so many words unless it is null. -/
  | adjust (offset : Int)
  | invalid (fault : ConversionFault)
  deriving DecidableEq

inductive ConstantHint where
  | int (value : Int)
  | float (value : Binary64)
  deriving DecidableEq

namespace TypeTable

def rank (t : TypeTable) (ty : TypeId) : Option Rank :=
  match t.kind ty with
  | .int .long signed => some (if signed then .long else .ulong)
  | .int .word signed => some (if signed then .int else .uint)
  | .int .byte _ => some .int
  | .float .single => some .float
  | .float .double => some .double
  | _ => none

/-- Eight bit types become `int`; qualifiers are dropped. -/
def promote (t : TypeTable) (ty : TypeId) : TypeId :=
  match t.rank ty with
  | some r => r.type
  | none => t.unqualified ty

def commonType (t : TypeTable) (a b : TypeId) : TypeId :=
  match t.rank a, t.rank b with
  | some x, some y => (x.stronger y).type
  | _, _ => t.unqualified a

def intInfo (t : TypeTable) (ty : TypeId) : Option (Nat × Bool) :=
  match t.kind ty with
  | .int width signed => some (width.bits, signed)
  | .pointer _ => some (16, false)
  | _ => none

def intFits (t : TypeTable) (ty : TypeId) (value : Int) : Bool :=
  match t.intInfo ty with
  | some (bits, _) => -(twoTo (bits - 1)) ≤ value && value ≤ twoTo bits - 1
  | none => false

def pointerConversion (t : TypeTable) (source target : TypeId) : Conversion :=
  let s := t.unqualified source
  let d := t.unqualified target
  if (t.isConst source && !t.isConst target) || (t.isVolatile source && !t.isVolatile target) then
    .invalid (.discardsQualifiers (t.display source) (t.display target))
  else if s = d then .reinterpret
  else if (t.isVoid s || t.isVoid d) && !(t.isFunction s || t.isFunction d) then .reinterpret
  else
    let offset := do t.baseOffset (← t.asStruct s) (← t.asStruct d)
    match offset with
    | some 0 => .reinterpret
    | some n => .adjust (wrap32 n)
    | none => .invalid (.incompatiblePointers (t.display source) (t.display target))

def assignConversion (t : TypeTable) (source target : TypeId) (hint : Option ConstantHint) :
    Conversion :=
  let s := t.unqualified source
  let d := t.unqualified target
  let refuse (fault : String → String → ConversionFault) : Conversion :=
    .invalid (fault (t.display source) (t.display target))
  if s = d then .identity
  else match t.get s, t.get d with
    | .pointer p, .pointer q => t.pointerConversion p q
    | .int .., .pointer _ => if hint = some (.int 0) then .reinterpret else refuse .incompatibleNeedsCast
    | .pointer _, .int .. => refuse .incompatibleNeedsCast
    | .int v _, .int w _ =>
      let widens := v ≠ .long || w = .long
      let fits := match hint with
        | some (.int n) => t.intFits d n
        | _ => false
      if widens || fits then .numeric else refuse .losesData
    | .int .., .float _ => .numeric
    | .float v, .float w =>
      if w = .double || v = .single || (hint matches some (.float _)) then .numeric
      else refuse .losesPrecision
    | .float _, .int .. =>
      match hint with
      | some (.float x) => if x.isIntegral && t.intFits d x.toInt64 then .numeric else refuse .needsCast
      | _ => refuse .needsCast
    | _, _ => refuse .incompatible

def castConversion (t : TypeTable) (source target : TypeId) : Conversion :=
  let s := t.unqualified source
  let d := t.unqualified target
  let refuse : Conversion := .invalid (.invalidCast (t.display source) (t.display target))
  if s = d then .identity
  else if t.isVoid d then .numeric
  else match t.get s, t.get d with
    | .pointer p, .pointer q =>
      match t.asStruct p, t.asStruct q with
      | some a, some b =>
        match t.baseOffset a b, t.baseOffset b a with
        | some (n + 1), _ => .adjust (wrap32 (n + 1))
        | _, some (n + 1) => if wrap32 (n + 1) = -twoTo 31 then .invalid .negation else .adjust (-wrap32 (n + 1))
        | _, _ => .reinterpret
      | _, _ => .reinterpret
    | .float _, .pointer _ | .pointer _, .float _ => refuse
    | .pointer _, .int .. | .int .., .pointer _ => .reinterpret
    | _, _ => if t.isArith s && t.isArith d then .numeric else refuse

end TypeTable

end W16Compiler
