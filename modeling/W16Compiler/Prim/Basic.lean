import W16Compiler.Types.Basic

/-!
# Primitive operations

The body of a function as a flow list. Values live in memory: in slots of the frame, in parameters
and at labels. Every node reads its operands there and writes its result there. The labels that a
node refers to and whether control can go on to the next node make up the flow graph.
-/

namespace W16Compiler

/-- A value together with the source location it stems from. -/
structure Item (α : Type) where
  value : α
  loc : Option Location := none
  deriving DecidableEq

structure Label where
  index : Nat
  deriving DecidableEq, Inhabited, Repr

def Label.text (l : Label) : String := s!"L{l.index}"

structure SlotId where
  index : Nat
  deriving DecidableEq, Inhabited, Repr

def SlotId.text (s : SlotId) : String := s!"s{s.index}"

structure Slot where
  words : Nat
  /-- Made by the compiler, and open to forwarding and deletion. -/
  temp : Bool
  deriving DecidableEq

def Slot.sized (words : Nat) (temp : Bool) : Slot := ⟨max words 1, temp⟩

/-- How a value is represented in words. -/
inductive Rep where
  /-- Eight bits, extended to a word. -/
  | byte (signed : Bool)
  | word (signed : Bool)
  /-- Two words, the low one first. -/
  | long (signed : Bool)
  | float
  | double
  | block (words : Nat)
  deriving DecidableEq

namespace Rep

def ofType (t : TypeTable) (ty : TypeId) : Rep :=
  match t.kind ty with
  | .int .byte signed => byte signed
  | .int .word signed => word signed
  | .int .long signed => long signed
  | .float .double => double
  | .float .single => float
  | .pointer _ => word false
  | .struct _ | .array .. => block ((t.sizeOf ty).getD 0)
  | _ => word true

def words : Rep → Nat
  | byte _ | word _ => 1
  | long _ | float => 2
  | double => 4
  | block n => n

def isWord : Rep → Bool
  | byte _ | word _ => true
  | _ => false

def isSigned : Rep → Bool
  | byte signed | word signed | long signed => signed
  | float | double => true
  | block _ => false

def isFloat : Rep → Bool
  | float | double => true
  | _ => false

def isBlock : Rep → Bool
  | block _ => true
  | _ => false

end Rep

inductive AddressBase where
  | slot (s : SlotId)
  | param
  | global (label : String)
  deriving DecidableEq

mutual

inductive Operand where
  /-- All bits of an integer, however wide. -/
  | imm (value : Int)
  | float (value : Binary64)
  | address (base : AddressBase) (offset : Int)
  | load (place : Place)
  deriving DecidableEq

inductive Place where
  | slot (s : SlotId) (offset : Int)
  | param (offset : Int)
  | global (label : String) (offset : Int)
  | arg (word : Nat)
  | indirect (pointer : Operand) (offset : Int)
  deriving DecidableEq

end

mutual

def Operand.slots : Operand → List SlotId
  | .address (.slot s) _ => [s]
  | .load place => place.slots
  | _ => []

def Place.slots : Place → List SlotId
  | .slot s _ => [s]
  | .indirect pointer _ => pointer.slots
  | _ => []

end

namespace Place

def shift (by_ : Int) : Place → Place
  | slot s offset => slot s (wrap32 (offset + by_))
  | param offset => param (wrap32 (offset + by_))
  | global label offset => global label (wrap32 (offset + by_))
  | arg word => arg ((word + by_) % twoTo 32).toNat
  | indirect pointer offset => indirect pointer (wrap32 (offset + by_))

def address : Place → Option Operand
  | slot s offset => some (.address (.slot s) offset)
  | param offset => some (.address .param offset)
  | global label offset => some (.address (.global label) offset)
  | indirect pointer offset => if offset = 0 then some pointer else none
  | arg _ => none

def addressSlots : Place → List SlotId
  | indirect pointer _ => pointer.slots
  | _ => []

def slot? : Place → Option SlotId
  | slot s _ => some s
  | _ => none

end Place

inductive Cond where
  | eq | ne | lt | ge | gt | le
  deriving DecidableEq

namespace Cond

def ofOp? : BinaryOp → Option Cond
  | .eq => some eq
  | .ne => some ne
  | .lt => some lt
  | .ge => some ge
  | .gt => some gt
  | .le => some le
  | _ => none

def negate : Cond → Cond
  | eq => ne
  | ne => eq
  | lt => ge
  | ge => lt
  | gt => le
  | le => gt

def swap : Cond → Cond
  | lt => gt
  | gt => lt
  | le => ge
  | ge => le
  | c => c

end Cond

inductive PrimUnary where
  | neg | not
  deriving DecidableEq

inductive CallTarget where
  | direct (label : String)
  | indirect (pointer : Operand)
  deriving DecidableEq

inductive Prim where
  /-- The start of the function, always first. -/
  | entry
  | label (l : Label)
  | jump (l : Label)
  | compare (cond : Cond) (rep : Rep) (lhs rhs : Operand) (target : Label)
  | test (nonzero : Bool) (rep : Rep) (value : Operand) (target : Label)
  | callStart (words : Nat)
  /-- Calls, releases the argument words and stores what registers hold. -/
  | call (target : CallTarget) (words : Nat) (result : Option (Place × Rep))
  | cast (dst : Place) (rep : Rep) (src : Operand) (srcRep : Rep)
  | unary (op : PrimUnary) (rep : Rep) (dst : Place) (src : Operand)
  /-- Never a comparison. The right operand of a shift is a word. -/
  | binary (op : BinaryOp) (rep : Rep) (dst : Place) (lhs rhs : Operand)
  /-- A block is copied from the address `src`, or cleared if `src` is zero. -/
  | assign (rep : Rep) (dst : Place) (src : Operand)
  | ret (value : Option (Operand × Rep))
  | throwValue (value : Operand)
  /-- Pushes an exception record of three words. -/
  | tryBegin (record : SlotId) (handler : Label)
  | tryEnd (record : SlotId)
  | cleanupEntry (l : Label) (link : SlotId)
  | cleanupCall (start : Label) (link : SlotId) (resume : Label)
  | cleanupReturn (link : SlotId) (resumes : List Label)
  | catchEntry (l : Label) (dst : Option Place)
  deriving DecidableEq

namespace Prim

def targets : Prim → List Label
  | jump l | compare _ _ _ _ l | test _ _ _ l | tryBegin _ l => [l]
  | cleanupCall start _ resume => [start, resume]
  | cleanupReturn _ resumes => resumes
  | _ => []

def mapTargets (f : Label → Label) : Prim → Prim
  | jump l => jump (f l)
  | compare cond rep lhs rhs l => compare cond rep lhs rhs (f l)
  | test nonzero rep value l => test nonzero rep value (f l)
  | tryBegin record l => tryBegin record (f l)
  | cleanupCall start link resume => cleanupCall (f start) link (f resume)
  | cleanupReturn link resumes => cleanupReturn link (resumes.map f)
  | p => p

def successors : Prim → List Label
  | cleanupCall start _ _ => [start]
  | tryBegin .. => []
  | p => p.targets

def fallsThrough : Prim → Bool
  | jump _ | ret _ | throwValue _ | cleanupCall .. | cleanupReturn .. => false
  | _ => true

def definedLabel : Prim → Option Label
  | label l | catchEntry l _ | cleanupEntry l _ => some l
  | _ => none

def dst : Prim → Option Place
  | cast dst .. | unary _ _ dst _ | binary _ _ dst _ _ | assign _ dst _ => some dst
  | call _ _ result => result.map (·.1)
  | catchEntry _ dst => dst
  | _ => none

def withDst (d : Place) : Prim → Prim
  | cast _ rep src srcRep => cast d rep src srcRep
  | unary op rep _ src => unary op rep d src
  | binary op rep _ lhs rhs => binary op rep d lhs rhs
  | assign rep _ src => assign rep d src
  | call target words result => call target words (result.map fun (_, rep) ↦ (d, rep))
  | catchEntry l dst => catchEntry l (dst.map fun _ ↦ d)
  | p => p

def dstRep : Prim → Option Rep
  | cast _ rep _ _ => some rep
  | unary _ rep _ _ | binary _ rep _ _ _ | assign rep _ _ => some rep
  | call _ _ result => result.map (·.2)
  | catchEntry _ dst => dst.map fun _ ↦ .word true
  | _ => none

def operands : Prim → List Operand
  | compare _ _ lhs rhs _ | binary _ _ _ lhs rhs => [lhs, rhs]
  | test _ _ value _ | throwValue value => [value]
  | call (.indirect pointer) _ _ => [pointer]
  | cast _ _ src _ | unary _ _ _ src | assign _ _ src => [src]
  | ret (some (value, _)) => [value]
  | _ => []

/-- The slots that the node reads, those that lead to its result and those of exception records
included. -/
def readSlots (p : Prim) : List SlotId :=
  p.operands.flatMap (·.slots) ++ ((p.dst.map (·.addressSlots)).getD []) ++
    match p with
    | tryBegin record _ | tryEnd record => [record]
    | cleanupEntry _ link | cleanupCall _ link _ | cleanupReturn link _ => [link]
    | _ => []

/-- Whether the node does nothing but compute its result. -/
def isPure : Prim → Bool
  | cast .. | unary .. | binary .. | assign .. => true
  | _ => false

def isCall : Prim → Bool
  | call .. => true
  | _ => false

def invert : Prim → Prim
  | compare cond rep lhs rhs l => compare cond.negate rep lhs rhs l
  | test nonzero rep value l => test (!nonzero) rep value l
  | p => p

def isBranch : Prim → Bool
  | compare .. | test .. => true
  | _ => false

end Prim

structure PrimFunction where
  label : String
  exported : Bool
  loc : Location
  prims : List (Item Prim) := []
  slots : Array Slot := #[]

namespace PrimFunction

def isTemp (f : PrimFunction) (s : SlotId) : Bool := ((f.slots[s.index]?).map (·.temp)).getD false

end PrimFunction

end W16Compiler
