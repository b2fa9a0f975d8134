import W16Compiler.Machine.Basic
import W16Compiler.Prim.Optimize
import W16Compiler.Proofs.Behaviour
import W16Compiler.Proofs.Seek
import Mathlib.Logic.Function.Basic

/-!
# The meaning of flow lists

A node reads its operands, computes and writes its result in one step. Every slot is a block of words
of its own; all other memory is found by address. What a value is and how it is computed with is left
to a model: values may be plain words, or words and pointers that know their slot. A call is observed
with its target, its arguments and the memory that the callee can see, and the answer to all calls so
far decides what it changes and whether it returns or throws. Where a cleanup goes on and the chain of
exception records are kept apart from the words.
-/

namespace W16Compiler

open Function

/-- A word of memory. -/
inductive Cell where
  | slot (s : SlotId) (word : Int)
  | outer (address : Word)
  deriving DecidableEq

/-- What values are: constants, addresses, where a pointer leads, arithmetic on the words of
operands, and their order. Word `i` of a result is found by its number. -/
structure Model (V : Type) where
  constant : Word → V
  slotAddress : SlotId → Int → V
  param : Word
  symbol : String → Word
  /-- The cell so many words behind the one that a pointer leads to. -/
  locate : V → Int → Cell
  unary : PrimUnary → Rep → List V → Nat → V
  binary : BinaryOp → Rep → List V → List V → Nat → V
  cast : Rep → Rep → List V → Nat → V
  order : Rep → List V → List V → Ordering
  isZero : Rep → List V → Bool

variable {V : Type}

def Model.address (M : Model V) (base : AddressBase) (offset : Int) : V :=
  match base with
  | .slot s => M.slotAddress s offset
  | .param => M.constant (M.param + .ofInt 16 offset)
  | .global label => M.constant (M.symbol label + .ofInt 16 offset)

structure TryRecord where
  /-- The record that was innermost before; `none` is one of a caller. -/
  outer : Option SlotId
  handler : Label
  sp : Word

/-- The state of a function between two nodes. -/
structure PrimState (V : Type) where
  mem : Cell → V
  sp : Word
  mark : Option SlotId
  records : SlotId → Option TryRecord
  links : SlotId → Option Label

/-! ## Operands and results -/

def constantWord (bits : BitVec 64) (i : Nat) : Word := bits.extractLsb' (16 * i) 16

def Binary64.bitsAs (x : Binary64) (rep : Rep) : BitVec 64 :=
  .ofNat 64 (if rep = .float then x.singleBits else x.bits.toNat)

mutual

def Operand.word (M : Model V) (st : PrimState V) (rep : Rep) (i : Nat) : Operand → V
  | .imm value => M.constant (constantWord (.ofInt 64 value) i)
  | .float x => M.constant (constantWord (x.bitsAs rep) i)
  | .address base offset => if i = 0 then M.address base offset else M.constant 0
  | .load place => st.mem (place.cell M st i)

def Place.cell (M : Model V) (st : PrimState V) (i : Nat) : Place → Cell
  | .slot s offset => .slot s (offset + i)
  | .param offset => .outer (M.param + .ofInt 16 (offset + i))
  | .global label offset => .outer (M.symbol label + .ofInt 16 (offset + i))
  | .arg word => .outer (st.sp + .ofNat 16 (word + i))
  | .indirect pointer offset => M.locate (pointer.word M st (.word false) 0) (offset + i)

end

def Operand.words (M : Model V) (st : PrimState V) (rep : Rep) (op : Operand) : List V :=
  (List.range rep.words).map fun i ↦ op.word M st rep i

def Operand.pointer (M : Model V) (st : PrimState V) (op : Operand) : V := op.word M st (.word false) 0

def writeWords {κ : Type} [DecidableEq κ] (cell : Nat → κ) (value : Nat → V) : Nat → (κ → V) → κ → V
  | 0, mem => mem
  | n + 1, mem => Function.update (writeWords cell value n mem) (cell n) (value n)

section

variable {κ : Type} [DecidableEq κ] {cell cell' : Nat → κ} {value value' : Nat → V} {n : Nat} {mem mem' : κ → V} {c : κ}

lemma writeWords_of_ne (h : ∀ i < n, c ≠ cell i) : writeWords cell value n mem c = mem c := by
  induction n with
  | zero => rfl
  | succ n ih =>
    rw [writeWords, update_of_ne (h n n.lt_succ_self)]
    exact ih fun i hi ↦ h i (Nat.lt_succ_of_lt hi)

lemma writeWords_congr (hm : mem c = mem' c) (hc : ∀ i < n, cell i = cell' i)
    (hv : ∀ i < n, value i = value' i) : writeWords cell value n mem c = writeWords cell' value' n mem' c := by
  induction n with
  | zero => exact hm
  | succ n ih =>
    have hlt : n < n + 1 := n.lt_succ_self
    rw [writeWords, writeWords, hc n hlt, hv n hlt]
    by_cases h : c = cell' n
    · rw [h, update_self, update_self]
    · rw [update_of_ne h, update_of_ne h]
      exact ih (fun i hi ↦ hc i (Nat.lt_succ_of_lt hi)) fun i hi ↦ hv i (Nat.lt_succ_of_lt hi)

lemma writeWords_forall {Q : V → Prop} (hm : ∀ c, Q (mem c)) (hv : ∀ i < n, Q (value i)) (c : κ) :
    Q (writeWords cell value n mem c) := by
  induction n with
  | zero => exact hm c
  | succ n ih =>
    rw [writeWords]
    by_cases h : c = cell n
    · rw [h, update_self]
      exact hv n n.lt_succ_self
    · rw [update_of_ne h]
      exact ih fun i hi ↦ hv i (Nat.lt_succ_of_lt hi)

lemma writeWords_apply (hinj : ∀ i < n, ∀ j < n, cell i = cell j → i = j) {i : Nat} (hi : i < n) :
    writeWords cell value n mem (cell i) = value i := by
  induction n with
  | zero => omega
  | succ n ih =>
    rw [writeWords]
    by_cases h : i = n
    · rw [h, update_self]
    · have hne : cell i ≠ cell n := fun hc ↦ h (hinj i hi n n.lt_succ_self hc)
      rw [update_of_ne hne]
      exact ih (fun j hj k hk ↦ hinj j (by omega) k (by omega)) (by omega)

end

def PrimState.write (M : Model V) (st : PrimState V) (dst : Place) (n : Nat) (value : Nat → V) :
    PrimState V :=
  { st with mem := writeWords (fun i ↦ dst.cell M st i) value n st.mem }

def PrimState.store (M : Model V) (st : PrimState V) (result : Option (Place × Rep))
    (value : Nat → V) : PrimState V :=
  match result with
  | none => st
  | some (dst, rep) => st.write M dst rep.words value

def rightRep (op : BinaryOp) (rep : Rep) : Rep := if op = .shl || op = .shr then .word true else rep

def assignedWord (M : Model V) (st : PrimState V) (rep : Rep) (src : Operand) (i : Nat) : V :=
  if rep.isBlock then
    if src = .imm 0 then M.constant 0 else st.mem (M.locate (src.pointer M st) i)
  else src.word M st rep i

/-- The words that a node without other effects computes. -/
def Prim.value (M : Model V) (st : PrimState V) : Prim → Nat → V
  | .cast _ rep src srcRep => M.cast srcRep rep (src.words M st srcRep)
  | .unary op rep _ src => M.unary op rep (src.words M st rep)
  | .binary op rep _ lhs rhs =>
    M.binary op rep (lhs.words M st rep) (rhs.words M st (rightRep op rep))
  | .assign rep _ src => assignedWord M st rep src
  | _ => fun _ ↦ M.constant 0

def Cond.holds : Cond → Ordering → Bool
  | eq, o => o == .eq
  | ne, o => o != .eq
  | lt, o => o == .lt
  | ge, o => o != .lt
  | gt, o => o == .gt
  | le, o => o != .gt

/-! ## Calls -/

/-- A call as it is observed. -/
structure CallEvent (V : Type) where
  target : String ⊕ V
  args : List V
  memory : Cell → Option V

/-- What a call does to memory, and how it ends. -/
inductive CallAnswer (V : Type) where
  | returns (change : Cell → Option V) (values : Nat → V)
  | throws (change : Cell → Option V) (value : V)

/-- How a run ends, with the memory that can be seen. -/
inductive PrimOutcome (V : Type) where
  | returned (values : List V) (memory : Cell → Option V)
  | threw (value : V) (memory : Cell → Option V)
  /-- Control left the flow list in no defined way. -/
  | wild

/-- A model with the rest of the program: the slots that no callee sees, and the answer to the latest
of the calls so far. -/
structure World (V : Type) extends Model V where
  hidden : SlotId → Bool
  answer : List (CallEvent V) → CallAnswer V

namespace PrimState

def visible (W : World V) (st : PrimState V) : Cell → Option V
  | .slot s word => if W.hidden s then none else some (st.mem (.slot s word))
  | .outer a => some (st.mem (.outer a))

def changed (st : PrimState V) (change : Cell → Option V) : PrimState V :=
  { st with mem := fun c ↦ (change c).getD (st.mem c) }

def release (st : PrimState V) (words : Nat) : PrimState V :=
  { st with sp := st.sp + .ofNat 16 words }

def callEvent (W : World V) (st : PrimState V) (target : CallTarget) (words : Nat) : CallEvent V where
  target := match target with
    | .direct label => .inl label
    | .indirect pointer => .inr (pointer.pointer W.toModel st)
  args := (List.range words).map fun i ↦ st.mem ((Place.arg 0).cell W.toModel st i)
  memory := st.visible W

end PrimState

/-! ## Steps -/

/-- Where control goes after a node. -/
inductive Move (V : Type) where
  | next (st : PrimState V)
  | goto (l : Label) (st : PrimState V)
  | handle (l : Label) (value : V) (st : PrimState V)
  | finish (o : PrimOutcome V)

/-- Takes the innermost record off the chain and goes to its handler. -/
def PrimState.raise (W : World V) (st : PrimState V) (value : V) : Move V :=
  match st.mark with
  | none => .finish (.threw value (st.visible W))
  | some r =>
    match st.records r with
    | none => .finish .wild
    | some record => .handle record.handler value { st with mark := record.outer, sp := record.sp }

/-- What a node does once the call that it makes is answered. The result is stored when the argument
words are released. -/
def afterCall (W : World V) (st : PrimState V) (words : Nat) (result : Option (Place × Rep)) :
    CallAnswer V → Move V
  | .throws change value => (st.changed change).raise W value
  | .returns change values =>
    .next (((st.changed change).release words).store W.toModel result values)

/-- What is observed of a node and where control goes. A handler that is not entered by an exception
is a label and nothing else. -/
def Prim.act (W : World V) (past : List (CallEvent V)) (st : PrimState V) :
    Prim → Option (CallEvent V) × Move V
  | .entry | .label _ | .cleanupEntry .. | .catchEntry .. => (none, .next st)
  | .jump l => (none, .goto l st)
  | .compare cond rep lhs rhs target =>
    let o := W.order rep (lhs.words W.toModel st rep) (rhs.words W.toModel st rep)
    (none, if cond.holds o then .goto target st else .next st)
  | .test nonzero rep value target =>
    (none, if W.isZero rep (value.words W.toModel st rep) = nonzero then .next st else .goto target st)
  | .callStart words => (none, .next { st with sp := st.sp - .ofNat 16 words })
  | .call target words result =>
    let event := st.callEvent W target words
    (some event, afterCall W st words result (W.answer (event :: past)))
  | p@(.cast dst rep ..) | p@(.unary _ rep dst _) | p@(.binary _ rep dst ..) | p@(.assign rep dst _) =>
    (none, .next (st.write W.toModel dst rep.words (p.value W.toModel st)))
  | .ret value =>
    let values := (value.map fun (op, rep) ↦ op.words W.toModel st rep).getD []
    (none, .finish (.returned values (st.visible W)))
  | .throwValue value => (none, st.raise W (value.word W.toModel st (.word true) 0))
  | .tryBegin record handler =>
    let records := Function.update st.records record (some ⟨st.mark, handler, st.sp⟩)
    (none, .next { st with mark := some record, records })
  | .tryEnd record =>
    (none, match st.records record with
      | some r => .next { st with mark := r.outer }
      | none => .finish .wild)
  | .cleanupCall start link resume =>
    (none, .goto start { st with links := Function.update st.links link (some resume) })
  | .cleanupReturn link _ =>
    (none, match st.links link with
      | some l => .goto l st
      | none => .finish .wild)

/-- Stores the value that was thrown, if the node is a handler that asks for it. -/
def Prim.receive (M : Model V) (st : PrimState V) (value : V) : Prim → PrimState V
  | .catchEntry _ (some dst) => st.write M dst 1 fun _ ↦ value
  | _ => st

namespace Flow

/-- The nodes from the definition of a label on. -/
def seek (l : Label) (flow : Flow) : Option Flow := seekLabel (·.value.definedLabel) l flow

def follow (flow : Flow) (M : Model V) (rest : Flow) :
    Move V → Status (Flow × PrimState V) (PrimOutcome V)
  | .next st => .running (rest, st)
  | .goto l st =>
    match flow.seek l with
    | some found => .running (found, st)
    | none => .ended .wild
  | .handle l value st =>
    match flow.seek l with
    | some (p :: found) => .running (found, p.value.receive M st value)
    | _ => .ended .wild
  | .finish o => .ended o

/-- The steps of a flow list. A state holds the nodes that are still ahead. -/
def process (W : World V) (flow : Flow) :
    Process (Flow × PrimState V) (CallEvent V) (PrimOutcome V) := fun past state ↦
  match state.1 with
  | [] => ⟨none, .ended .wild⟩
  | p :: rest =>
    let (event, move) := p.value.act W past state.2
    ⟨event, flow.follow W.toModel rest move⟩

end Flow

/-- The state on entry to a function: no record has been pushed and no cleanup been called yet. -/
def PrimState.initial (mem : Cell → V) (sp : Word) : PrimState V :=
  { mem, sp, mark := none, records := fun _ ↦ none, links := fun _ ↦ none }

end W16Compiler
