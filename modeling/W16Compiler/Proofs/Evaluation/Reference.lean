import W16Compiler.Lowering.Tree
import W16Compiler.Proofs.Prim.Meaning
import Mathlib.Algebra.Group.Nat.Defs

/-!
# The meaning of expressions

An expression is evaluated in memory. The operands of an operator, of a compound assignment and the
arguments of a call are evaluated to values from left to right, each before the next one starts, so that a
value is the one that the operand had before anything to its right happened. A call is answered by the rest
of the program, and an exception ends the evaluation. Values are those of the model that gives flow lists
their meaning.

Code may read an operand later than this, when it is used. The cells that are still to be read then are the
sources of the operand; an expression is steady in a store if nothing that is evaluated in between changes
the sources of an operand that waits.
-/

namespace W16Compiler

open Lowering

variable {V : Type}

def Rep.list (rep : Rep) (value : Nat → V) : List V := (List.range rep.words).map value

/-- A model and the rest of the program, with the types and names of a body and the slots of its
variables. -/
structure Interpretation (V : Type) extends World V where
  types : TypeTable
  symbols : Symbols
  slotOf : DeclId → SlotId

/-- The calls that were made, and the memory. -/
structure Store (V : Type) where
  past : List (CallEvent V)
  state : PrimState V

/-- An evaluation gives a value and changes the store, or else a value is thrown. -/
abbrev Eval (V : Type) := EStateM V (Store V)

/-! ## Objects -/

inductive Locus (V : Type) where
  | direct (base : AddressBase) (offset : Int)
  | indirect (pointer : V) (offset : Int)

namespace Locus

def shift (by_ : Int) : Locus V → Locus V
  | direct base offset => direct base (offset + by_)
  | indirect pointer offset => indirect pointer (offset + by_)

/-- How far the object is from its base or from where the pointer leads. -/
def extent : Locus V → Nat
  | direct _ offset | indirect _ offset => offset.natAbs

def cell (M : Model V) (i : Nat) : Locus V → Cell
  | direct (.slot s) offset => .slot s (offset + i)
  | direct .param offset => .outer (M.param + .ofInt 16 (offset + i))
  | direct (.global label) offset => .outer (M.symbol label + .ofInt 16 (offset + i))
  | indirect pointer offset => M.locate pointer (offset + i)

def Covers (M : Model V) (L : Locus V) (n : Nat) (c : Cell) : Prop := ∃ i < n, c = L.cell M i

end Locus

namespace Interpretation

variable (I : Interpretation V)

def rep (type : TypeId) : Rep := .ofType I.types type

def int (value : Int) (i : Nat) : V := I.constant (constantWord (.ofInt 64 value) i)

def float (rep : Rep) (x : Binary64) (i : Nat) : V := I.constant (constantWord (x.bitsAs rep) i)

def pointer (p : V) (i : Nat) : V := if i = 0 then p else I.constant 0

def truth (rep : Rep) (value : Nat → V) : Bool := !I.isZero rep (rep.list value)

def bool (b : Bool) : Nat → V := I.int (if b then 1 else 0)

def convert (source target : Rep) (value : Nat → V) : Nat → V :=
  if source = target then value else I.cast source target (source.list value)

def advance (p : V) (offset : Int) : V := I.binary .add pointerRep [p] [I.int offset 0] 0

def address : Locus V → V
  | .direct base offset => I.toModel.address base offset
  | .indirect p offset => if offset = 0 then p else I.advance p offset

def adjust (p : V) (offset : Int) (nullCheck : Bool) : V :=
  if offset = 0 || (nullCheck && I.isZero pointerRep [p]) then p else I.advance p offset

def step (rep : Rep) (n : Int) : Nat → V := if rep.isFloat then I.float rep (.ofInt n) else I.int n

def home (decl : DeclId) : Locus V :=
  match (I.symbols.decl decl).entity with
  | .variable _ _ (.global label) | .text _ label | .asmLabel _ label => .direct (.global label) 0
  | .variable _ _ (.param offset) => .direct .param offset
  | _ => .direct (.slot (I.slotOf decl)) 0

def Stored (decl : DeclId) : Prop :=
  match (I.symbols.decl decl).entity with
  | .variable .. | .text .. | .asmLabel .. => True
  | _ => False

/-! ## Actions -/

def load (L : Locus V) : Eval V (Nat → V) := fun S ↦ .ok (fun i ↦ S.state.mem (L.cell I.toModel i)) S

def written (L : Locus V) (rep : Rep) (value : Nat → V) (st : PrimState V) : PrimState V :=
  { st with mem := writeWords (fun i ↦ L.cell I.toModel i) value rep.words st.mem }

def store (L : Locus V) (rep : Rep) (value : Nat → V) : Eval V Unit := fun S ↦
  .ok () { S with state := I.written L rep value S.state }

def putArgs (sp : Word) : Nat → List (Rep × (Nat → V)) → (Cell → V) → Cell → V
  | _, [], mem => mem
  | word, (rep, value) :: rest, mem =>
    putArgs sp (word + rep.words) rest
      (writeWords (fun i ↦ .outer (sp + .ofNat 16 (word + i))) value rep.words mem)

def argWords (args : List (Rep × (Nat → V))) : Nat := total (args.map (·.1.words))

/-- The state in which a function is called: the arguments stand below the stack pointer. -/
def calling (args : List (Rep × (Nat → V))) (st : PrimState V) : PrimState V :=
  let sp := st.sp - .ofNat 16 (argWords args)
  { st with sp, mem := putArgs sp 0 args st.mem }

/-- What is observed of a call with so many words of arguments. -/
def event (target : String ⊕ V) (words : Nat) (st : PrimState V) : CallEvent V where
  target
  args := (List.range words).map fun i ↦ st.mem (.outer (st.sp + .ofNat 16 i))
  memory := st.visible I.toWorld

def call (target : String ⊕ V) (args : List (Rep × (Nat → V))) : Eval V (Nat → V) := fun S ↦
  let st := calling args S.state
  let past := I.event target (argWords args) st :: S.past
  match I.answer past with
  | .returns change values => .ok values ⟨past, (st.changed change).release (argWords args)⟩
  | .throws change value => .error value ⟨past, st.changed change⟩

end Interpretation

/-! ## Expressions -/

mutual

/-- The words of an expression, its parts evaluated from left to right. -/
def Expr.eval (I : Interpretation V) : Expr → Eval V (Nat → V)
  | .int _ value => return I.int value
  | .float i x => return I.float (I.rep i.type) x
  | .symbol _ label => return I.pointer (I.toModel.address (.global label) 0)
  | .var _ decl => I.load (I.home decl)
  | .unary _ .logNot e => return I.bool (!I.truth (I.rep e.type) (← e.eval I))
  | .unary i .neg e => return I.unary .neg (I.rep i.type) ((I.rep i.type).list (← e.eval I))
  | .unary i .bitNot e => return I.unary .not (I.rep i.type) ((I.rep i.type).list (← e.eval I))
  | .deref _ e => do I.load (.indirect ((← e.eval I) 0) 0)
  | .addressOf _ e => return I.pointer (I.address (← e.locus I))
  | .incDec _ before increment e step => do
    let L ← e.locus I
    let rep := I.rep e.type
    let old ← I.load L
    let op := if increment then .add else .sub
    I.store L rep (I.binary op rep (rep.list old) (rep.list (I.step rep step)))
    if before then I.load L else return old
  | .binary i op l r => do
    let x ← l.eval I
    let y ← r.eval I
    match Cond.ofOp? op with
    | some cond =>
      let rep := I.rep l.type
      return I.bool (cond.holds (I.order rep (rep.list x) (rep.list y)))
    | none =>
      let rep := I.rep i.type
      return I.binary op rep (rep.list x) ((rightRep op rep).list y)
  | .logical _ conjunction l r => do
    let x := I.truth (I.rep l.type) (← l.eval I)
    if x == conjunction then return I.bool (I.truth (I.rep r.type) (← r.eval I))
    else return I.bool x
  | .assign i l r => do
    let L ← l.locus I
    I.store L (I.rep i.type) (← r.eval I)
    I.load L
  | .compound _ op l r opType => do
    let L ← l.locus I
    let old ← I.load L
    let y ← r.eval I
    let rep := I.rep l.type
    let opRep := I.rep opType
    let x := I.convert rep opRep old
    I.store L rep (I.convert opRep rep (I.binary op opRep (opRep.list x) ((rightRep op opRep).list y)))
    I.load L
  | .call i callee args => do
    let values ← Expr.evalAll I args
    let (target, this) ← callee.eval I
    let result ← I.call target (this.toList.map (fun p ↦ (pointerRep, I.pointer p)) ++ values)
    return if I.types.isVoid i.type then I.int 0 else result
  | .member _ e offset => do I.load ((← e.locus I).shift offset)
  | .cast i e => do
    let x ← e.eval I
    return if I.types.isVoid i.type then I.int 0 else I.convert (I.rep e.type) (I.rep i.type) x
  | .adjust _ e offset nullCheck => return I.pointer (I.adjust ((← e.eval I) 0) offset nullCheck)
  | .conditional i cond yes no => do
    let b := I.truth (I.rep cond.type) (← cond.eval I)
    let x ← if b then yes.eval I else no.eval I
    return if I.types.isVoid i.type then I.int 0 else x
  | .comma _ first second => do
    let _ ← first.eval I
    second.eval I
  | .statement .. => return I.int 0

def Expr.locus (I : Interpretation V) : Expr → Eval V (Locus V)
  | .var _ decl => return I.home decl
  | .deref _ e => return .indirect ((← e.eval I) 0) 0
  | .member _ e offset => return (← e.locus I).shift offset
  | _ => return .direct .param 0

def Expr.evalAll (I : Interpretation V) : List Expr → Eval V (List (Rep × (Nat → V)))
  | [] => return []
  | e :: rest => do
    let x ← e.eval I
    let xs ← Expr.evalAll I rest
    return (I.rep e.type, x) :: xs

/-- What is called, and the object that it is called for if that is found on the way. -/
def Callee.eval (I : Interpretation V) : Callee → Eval V ((String ⊕ V) × Option V)
  | .direct label => return (.inl label, none)
  | .indirect e => return (.inr ((← e.eval I) 0), none)
  | .virtualSlot receiver slot => do
    let this := (← receiver.eval I) 0
    let table := (← I.load (.indirect this 0)) 0
    let target := (← I.load (.indirect table slot)) 0
    return (.inr target, some this)

end

/-! ## Operands that wait -/

mutual

def Expr.sources (I : Interpretation V) : Expr → Store V → Cell → Prop
  | .var i decl, _, c => (I.home decl).Covers I.toModel (I.rep i.type).words c
  | .deref i e, S, c => e.sources I S c ∨
    ∃ x S', e.eval I S = .ok x S' ∧ (Locus.indirect (x 0) 0).Covers I.toModel (I.rep i.type).words c
  | .addressOf _ e, S, c => e.anchors I S c
  | .incDec _ before _ e _, S, c => before = true ∧
    ∃ L S', e.locus I S = .ok L S' ∧ L.Covers I.toModel (I.rep e.type).words c
  | .assign i l _, S, c => ∃ L S', l.locus I S = .ok L S' ∧ L.Covers I.toModel (I.rep i.type).words c
  | .compound _ _ l _ _, S, c =>
    ∃ L S', l.locus I S = .ok L S' ∧ L.Covers I.toModel (I.rep l.type).words c
  | .member i e offset, S, c => e.anchors I S c ∨
    ∃ L S', e.locus I S = .ok L S' ∧ (L.shift offset).Covers I.toModel (I.rep i.type).words c
  | .cast i e, S, c => (∃ v, sameBits v (I.rep e.type) (I.rep i.type) = true) ∧ e.sources I S c
  | .adjust _ e offset _, S, c => offset = 0 ∧ e.sources I S c
  | .comma _ first second, S, c => ∃ x S', first.eval I S = .ok x S' ∧ second.sources I S' c
  | _, _, _ => False

def Expr.anchors (I : Interpretation V) : Expr → Store V → Cell → Prop
  | .deref _ e, S, c => e.sources I S c
  | .member _ e _, S, c => e.anchors I S c
  | _, _, _ => False

end

def Expr.allSources (I : Interpretation V) : List Expr → Store V → Cell → Prop
  | [], _, _ => False
  | e :: rest, S, c => e.sources I S c ∨ ∃ x S', e.eval I S = .ok x S' ∧ Expr.allSources I rest S' c

def Callee.sources (I : Interpretation V) : Callee → Store V → Cell → Prop
  | .direct _, _, _ => False
  | .indirect e, S, c => e.sources I S c
  | .virtualSlot receiver slot, S, c => ∃ x S', receiver.eval I S = .ok x S' ∧
    ((Locus.indirect (x 0) 0).Covers I.toModel 1 c ∨
      (Locus.indirect (S'.state.mem (I.locate (x 0) 0)) slot).Covers I.toModel 1 c)

def Store.SameIn (cells : Cell → Prop) (S S' : Store V) : Prop := ∀ c, cells c → S'.state.mem c = S.state.mem c

def Expr.isAddress : Expr → Bool
  | .symbol .. | .addressOf .. => true
  | .cast _ e | .adjust _ e _ _ => e.isAddress
  | .comma _ _ second => second.isAddress
  | _ => false

mutual

/-- No operand that waits is changed by what is evaluated in between, when the expression is evaluated from a
store; and the address of an object is not null where that matters. -/
def Expr.Steady (I : Interpretation V) : Expr → Store V → Prop
  | .unary _ _ e, S | .deref _ e, S | .cast _ e, S => e.Steady I S
  | .addressOf _ e, S | .incDec _ _ _ e _, S | .member _ e _, S => e.LocusSteady I S
  | .binary _ _ l r, S => l.Steady I S ∧ ∀ x S₁, l.eval I S = .ok x S₁ →
    r.Steady I S₁ ∧ ∀ y S₂, r.eval I S₁ = .ok y S₂ → S₁.SameIn (l.sources I S) S₂
  | .logical _ conjunction l r, S => l.Steady I S ∧ ∀ x S₁, l.eval I S = .ok x S₁ →
    I.truth (I.rep l.type) x = conjunction → r.Steady I S₁
  | .assign _ l r, S => l.LocusSteady I S ∧ ∀ L S₁, l.locus I S = .ok L S₁ → r.Steady I S₁
  | .compound _ _ l r _, S => l.LocusSteady I S ∧ ∀ L S₁, l.locus I S = .ok L S₁ →
    r.Steady I S₁ ∧ ∀ y S₂, r.eval I S₁ = .ok y S₂ →
      S₁.SameIn (L.Covers I.toModel (I.rep l.type).words) S₂
  | .call _ callee args, S => Expr.AllSteady I args S ∧ ∀ xs S₁, Expr.evalAll I args S = .ok xs S₁ →
    callee.Steady I S₁ ∧ ∀ target this S₂, callee.eval I S₁ = .ok (target, this) S₂ →
      S₁.SameIn (Expr.allSources I args S) S₂ ∧
      -- The arguments are put below the stack pointer before the last ones of these are read.
      ∀ c, Expr.allSources I args S c ∨ callee.sources I S₁ c →
        ∀ k < this.toList.length + Interpretation.argWords xs,
          c ≠ .outer (S₂.state.sp - .ofNat 16 (this.toList.length + Interpretation.argWords xs) + .ofNat 16 k)
  | .adjust _ e offset nullCheck, S => e.Steady I S ∧ ∀ x S₁, e.eval I S = .ok x S₁ →
    e.isAddress = true → nullCheck = true → offset ≠ 0 → I.isZero pointerRep [x 0] = false
  | .conditional _ cond yes no, S => cond.Steady I S ∧ ∀ x S₁, cond.eval I S = .ok x S₁ →
    if I.truth (I.rep cond.type) x then yes.Steady I S₁ else no.Steady I S₁
  | .comma _ first second, S => first.Steady I S ∧ ∀ x S₁, first.eval I S = .ok x S₁ → second.Steady I S₁
  | _, _ => True

def Expr.LocusSteady (I : Interpretation V) : Expr → Store V → Prop
  | .deref _ e, S => e.Steady I S
  | .member _ e _, S => e.LocusSteady I S
  | _, _ => True

def Expr.AllSteady (I : Interpretation V) : List Expr → Store V → Prop
  | [], _ => True
  | e :: rest, S => e.Steady I S ∧ ∀ x S₁, e.eval I S = .ok x S₁ →
    Expr.AllSteady I rest S₁ ∧ ∀ xs S₂, Expr.evalAll I rest S₁ = .ok xs S₂ → S₁.SameIn (e.sources I S) S₂

def Callee.Steady (I : Interpretation V) : Callee → Store V → Prop
  | .direct _, _ => True
  | .indirect e, S | .virtualSlot e _, S => e.Steady I S

end

/-! ## Typed expressions -/

def Interpretation.literal (I : Interpretation V) (rep : Rep) : Operand → Nat → V
  | .imm value => I.int value
  | .float x => I.float rep x
  | .address base offset => I.pointer (I.toModel.address base offset)
  | .load _ => I.int 0

def Interpretation.IsScalar (I : Interpretation V) (type : TypeId) : Prop := (I.rep type).isBlock = false

mutual

def Expr.number? (I : Interpretation V) : Expr → Option Operand
  | .int _ value => some (.imm value)
  | .float _ x => some (.float x)
  | .cast i e =>
    if I.types.isVoid i.type then some (.imm 0)
    else (e.number? I).bind fun v ↦ convertConstant v (I.rep e.type) (I.rep i.type)
  | .call i .. | .conditional i .. => if I.types.isVoid i.type then some (.imm 0) else none
  | .addressOf _ e => e.pointed? I
  | .adjust _ e offset _ => if offset = 0 then e.number? I else none
  | .comma _ _ second => second.number? I
  | _ => none

def Expr.pointed? (I : Interpretation V) : Expr → Option Operand
  | .deref _ e => e.number? I
  | .member _ e offset => if offset = 0 then e.pointed? I else none
  | _ => none

end

def Expr.reach (I : Interpretation V) : Expr → Nat
  | .var _ decl => (I.home decl).extent
  | .deref _ e | .addressOf _ e | .cast _ e => e.reach I
  | .member _ e offset => e.reach I + offset
  | .adjust _ e offset _ => e.reach I + offset.natAbs
  | .comma _ _ second => second.reach I
  | _ => 0

mutual

/-- An expression for a scalar value that is typed as operators require: common types of operands, truth values
for conditions, words for pointers. It has no statements and no structs but as objects whose members are
named, and the model agrees with constants that are known beforehand. -/
def Expr.Plain (I : Interpretation V) : Expr → Prop
  | .int i value => I.IsScalar i.type ∧ I.truth (I.rep i.type) (I.int value) = decide (value ≠ 0)
  | .float i x => I.IsScalar i.type ∧ I.truth (I.rep i.type) (I.float (I.rep i.type) x) = !x.isZero
  | .symbol i label =>
    I.IsScalar i.type ∧ I.truth (I.rep i.type) (I.pointer (I.toModel.address (.global label) 0)) = true
  | .var i decl => I.IsScalar i.type ∧ I.Stored decl
  | .unary i .logNot e => I.rep i.type = truthRep ∧ e.Plain I
  | .unary i _ e => I.IsScalar i.type ∧ I.rep e.type = I.rep i.type ∧ e.Plain I
  | .deref i e => I.IsScalar i.type ∧ (I.rep e.type).isWord ∧ e.Plain I
  | .addressOf i e => (I.rep i.type).isWord ∧ e.Object I ∧ e.reach I < 2 ^ 15
  | .incDec i _ _ e _ => I.IsScalar e.type ∧ I.rep i.type = I.rep e.type ∧ e.Object I
  | .binary i op l r =>
    (if op.isComparison then I.rep i.type = truthRep ∧ I.rep r.type = I.rep l.type
      else I.IsScalar i.type ∧ I.rep l.type = I.rep i.type ∧ I.rep r.type = rightRep op (I.rep i.type)) ∧
    l.Plain I ∧ r.Plain I
  | .logical i _ l r => I.rep i.type = truthRep ∧ l.Plain I ∧ r.Plain I
  | .assign i l r => I.rep r.type = I.rep i.type ∧ l.Object I ∧ r.Plain I
  | .compound i op l r opType => I.rep i.type = I.rep l.type ∧ I.IsScalar l.type ∧ I.IsScalar opType ∧
    I.rep r.type = rightRep op (I.rep opType) ∧ l.Object I ∧ r.Plain I
  | .call i callee args => I.IsScalar i.type ∧
    (I.types.isVoid i.type ∨ I.types.returnsInMemory i.type = false) ∧ callee.Plain I ∧ Expr.AllPlain I args
  | .member i e offset => I.IsScalar i.type ∧ e.Object I ∧ e.reach I + offset < 2 ^ 15
  | .cast i e => I.IsScalar i.type ∧ e.Plain I ∧ (I.types.isVoid i.type = false → ∀ v c, e.number? I = some v →
    convertConstant v (I.rep e.type) (I.rep i.type) = some c →
      ∀ k < (I.rep i.type).words, I.convert (I.rep e.type) (I.rep i.type) (I.literal (I.rep e.type) v) k =
        I.literal (I.rep i.type) c k)
  | .adjust i e offset _ => (I.rep i.type).isWord ∧ (I.rep e.type).isWord ∧ e.Plain I ∧
    e.reach I + offset.natAbs < 2 ^ 15
  | .conditional i cond yes no => I.IsScalar i.type ∧ cond.Plain I ∧ yes.Plain I ∧ no.Plain I ∧
    (I.types.isVoid i.type ∨ I.rep yes.type = I.rep i.type ∧ I.rep no.type = I.rep i.type)
  | .comma i first second => I.rep second.type = I.rep i.type ∧ first.Plain I ∧ second.Plain I
  | .statement .. => False

def Expr.Object (I : Interpretation V) : Expr → Prop
  | .var _ decl => I.Stored decl
  | .deref _ e => (I.rep e.type).isWord ∧ e.Plain I
  | .member _ e offset => e.Object I ∧ e.reach I + offset < 2 ^ 15
  | _ => False

def Expr.AllPlain (I : Interpretation V) : List Expr → Prop
  | [] => True
  | e :: rest => e.Plain I ∧ Expr.AllPlain I rest

def Callee.Plain (I : Interpretation V) : Callee → Prop
  | .direct _ => True
  | .indirect e | .virtualSlot e _ => (I.rep e.type).isWord ∧ e.Plain I

end

/-! ## Laws -/

/-- What is required of a model and of the rest of the program: the order of numbers, conversions that keep all
bits, the arithmetic of addresses; and no pointer and no callee gets at a hidden slot. -/
structure Interpretation.Lawful (I : Interpretation V) : Prop where
  truth_bool : ∀ b, I.truth truthRep (I.bool b) = b
  order_swap : ∀ rep a b, I.order rep b a = (I.order rep a b).swap
  order_zero : ∀ rep a z, rep.isBlock = false → Operand.isZero z →
    (I.order rep a (rep.list (I.literal rep z)) = .eq ↔ I.isZero rep a)
  order_unsigned : ∀ rep a z, rep.isBlock = false → rep.isSigned = false → Operand.isZero z →
    I.order rep a (rep.list (I.literal rep z)) ≠ .lt
  cast_same : ∀ v source target value, sameBits v source target → source ≠ target → target.isBlock = false →
    ∀ i < target.words, I.cast source target (source.list value) i = value i
  locate_address : ∀ base offset k, (∀ s, base = .slot s → I.hidden s = false) →
    I.locate (I.toModel.address base offset) k = (Locus.direct base (offset + k)).cell I.toModel 0
  advance_address : ∀ base offset k, k.natAbs < 2 ^ 15 →
    I.advance (I.toModel.address base offset) k = I.toModel.address base (offset + k)
  locate_visible : ∀ v k s word, I.locate v k = .slot s word → I.hidden s = false
  answer_visible : ∀ past s word, I.hidden s →
    match I.answer past with
    | .returns change _ | .throws change _ => change (.slot s word) = none

end W16Compiler
