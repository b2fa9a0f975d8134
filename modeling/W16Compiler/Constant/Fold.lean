import W16Compiler.Scope
import W16Compiler.Types.Conversion

/-!
# Constant folding

The value of an expression, if it is known before the program runs. Integers wrap to the width of
the type of each node; division goes toward zero and the remainder has the sign of the dividend.
Floating values are rounded to the type of each node.
-/

namespace W16Compiler

def wrapTo (t : TypeTable) (ty : TypeId) (value : Int) : Int :=
  match t.intInfo ty with
  | some (bits, signed) => wrapBits value bits signed
  | none => value

def roundTo (t : TypeTable) (ty : TypeId) (x : Binary64) : Binary64 :=
  if t.kind ty matches .float .single then x.toSingle else x

namespace Constant

def unary (t : TypeTable) (op : UnaryOp) (ty : TypeId) (c : Constant) : Option Constant :=
  match op, c with
  | .logNot, c => some (ofBool !c.truth)
  | .neg, int v => some (int (wrapTo t ty (wrap64 (-v))))
  | .neg, float x => some (float x.neg)
  | .bitNot, int v => some (int (wrapTo t ty (-v - 1)))
  | _, _ => none

/-- The shift of a number of sixty-four bits; a count outside of `0..63` shifts everything out. -/
def shiftLeft (a b : Int) : Int := if 0 ≤ b && b < 64 then wrap64 (a * twoTo b.toNat) else 0

def shiftRight (a b : Int) : Int :=
  if 0 ≤ b && b < 64 then Int.fdiv a (twoTo b.toNat) else if a < 0 then -1 else 0

def compareInts (op : BinaryOp) (a b : Int) : Bool :=
  match op with
  | .eq => a = b
  | .ne => a ≠ b
  | .lt => a < b
  | .le => a ≤ b
  | .gt => a > b
  | .ge => a ≥ b
  | _ => false

/-- The operation on numbers of sixty-four bits; nothing divides by zero. -/
def arithmetic (op : BinaryOp) (a b : Int) : Option Int :=
  match op with
  | .add => some (wrap64 (a + b))
  | .sub => some (wrap64 (a - b))
  | .mul => some (wrap64 (a * b))
  | .div => if b = 0 then none else some (a.tdiv b)
  | .mod => if b = 0 then none else some (a.tmod b)
  | .and => some (bitwise64 (· &&& ·) a b)
  | .or => some (bitwise64 (· ||| ·) a b)
  | .xor => some (bitwise64 (· ^^^ ·) a b)
  | .shl => some (shiftLeft a b)
  | .shr => some (shiftRight a b)
  | _ => none

def binaryInts (t : TypeTable) (op : BinaryOp) (operandType ty : TypeId) (a b : Int) :
    Option Constant :=
  let bits := ((t.intInfo operandType).map (·.1)).getD 16
  let norm (v : Int) := wrapBits v bits (!t.isUnsigned operandType)
  if op.isComparison then some (ofBool (compareInts op (norm a) (norm b)))
  else (arithmetic op (norm a) (norm b)).map fun v ↦ int (wrapTo t ty v)

def binaryFloats (t : TypeTable) (op : BinaryOp) (ty : TypeId) (a b : Binary64) : Option Constant :=
  let order := a.compare? b
  match op with
  | .add => some (float (roundTo t ty (a.add b)))
  | .sub => some (float (roundTo t ty (a.sub b)))
  | .mul => some (float (roundTo t ty (a.mul b)))
  | .div => some (float (roundTo t ty (a.div b)))
  | .eq => some (ofBool (order = some .eq))
  | .ne => some (ofBool (order ≠ some .eq))
  | .lt => some (ofBool (order = some .lt))
  | .le => some (ofBool (order = some .lt || order = some .eq))
  | .gt => some (ofBool (order = some .gt))
  | .ge => some (ofBool (order = some .gt || order = some .eq))
  | _ => none

def binary (t : TypeTable) (op : BinaryOp) (operandType ty : TypeId) : Constant → Constant →
    Option Constant
  | int a, int b => binaryInts t op operandType ty a b
  | float a, float b => binaryFloats t op ty a b
  | address l o, int n =>
    match op with
    | .add => some (address l (wrap64 (o + n)))
    | .sub => some (address l (wrap64 (o - n)))
    | _ => none
  | int n, address l o => if op = .add then some (address l (wrap64 (o + n))) else none
  | address l a, address m b =>
    if l = m then
      match op with
      | .sub => some (int (wrapTo t ty (wrap64 (a - b))))
      | .eq => some (ofBool (a = b))
      | .ne => some (ofBool (a ≠ b))
      | _ => none
    else none
  | _, _ => none

def convert (t : TypeTable) (source target : TypeId) (c : Constant) : Option Constant :=
  if t.isVoid target then none
  else match c with
    | int n =>
      if t.isFloat target then
        let bits := ((t.intInfo source).map (·.1)).getD 16
        let n := if t.isUnsigned source then wrapBits n bits false else n
        some (float (roundTo t target (.ofInt n)))
      else some (int (wrapTo t target n))
    | float x =>
      if t.isFloat target then some (float (roundTo t target x))
      else if t.isInteger target then some (int (wrapTo t target x.toInt64))
      else none
    | address l o =>
      if t.isPointer target || t.sizeOf target = some 1 then some (address l o) else none

def shift (by_ : Int) : Constant → Option Constant
  | address l o => some (address l (wrap64 (o + by_)))
  | int v => some (int (wrap64 (v + by_)))
  | float _ => none

end Constant

def Declaration.fixedLabel (d : Declaration) : Option String :=
  match d.entity with
  | .variable _ _ (.global label) => some label
  | .text _ label | .asmLabel _ label => some label
  | _ => none

mutual

def fold (t : TypeTable) (s : Symbols) : Expr → Option Constant
  | .int i v => some (.int (wrapTo t i.type v))
  | .float i x => some (.float (roundTo t i.type x))
  | .symbol _ label => some (.address label 0)
  | .addressOf _ object => foldAddress t s object
  | .unary i op operand => do (← fold t s operand).unary t op i.type
  | .binary i op lhs rhs => do
    let l ← fold t s lhs
    let r ← fold t s rhs
    l.binary t op lhs.type i.type r
  | .logical _ conjunction lhs rhs => do
    let l := (← fold t s lhs).truth
    if l != conjunction then some (.ofBool l) else return .ofBool (← fold t s rhs).truth
  | .cast i operand => do (← fold t s operand).convert t operand.type i.type
  | .adjust _ operand offset _ => do
    match ← fold t s operand with
    | .int 0 => some (.int 0)
    | .address l o => some (.address l (wrap64 (o + offset)))
    | _ => none
  | .conditional _ cond yes no => do
    if (← fold t s cond).truth then fold t s yes else fold t s no
  | _ => none

def foldAddress (t : TypeTable) (s : Symbols) : Expr → Option Constant
  | .var _ decl => (s.decl decl).fixedLabel.map (.address · 0)
  | .member _ base offset => do (← foldAddress t s base).shift offset
  | .deref _ pointer => fold t s pointer
  | _ => none

end

end W16Compiler
