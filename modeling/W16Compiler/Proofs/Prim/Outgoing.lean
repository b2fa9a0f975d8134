import W16Compiler.Prim.Optimize

/-!
# Outgoing arguments

Words for the arguments of a call are reserved at its start and given back by the call. Between the two
stand assignments to these words and nothing else, and nowhere else is an argument word named.
-/

namespace W16Compiler

/-! ## Words that are named -/

mutual

/-- Whether word `i` of an operand is read with no other words of the outgoing arguments than these. -/
def Operand.Touches (args : Int → Prop) (i : Nat) : Operand → Prop
  | .load place => place.Touches args i
  | _ => True

def Place.Touches (args : Int → Prop) (i : Nat) : Place → Prop
  | .arg w => args (wrap32 (wrap32 w + i))
  | .indirect pointer _ => pointer.Touches args 0
  | _ => True

end

/-- Whether a node reads and writes no other words of the outgoing arguments than these. -/
def Prim.Touches (args : Int → Prop) : Prim → Prop
  | .assign rep dst src => (∀ i, i < rep.words → dst.Touches args i) ∧ ∀ i, src.Touches args i
  | p => (∀ op ∈ p.operands, ∀ i, op.Touches args i) ∧ ∀ d, p.dst = some d → ∀ i, d.Touches args i

mutual

variable {args args' : Int → Prop}

theorem Operand.Touches.mono (hargs : ∀ k, args k → args' k) {op : Operand} (h : op.Touches args i) :
    op.Touches args' i := by
  match op, h with
  | .imm _, _ | .float _, _ | .address _ _, _ => trivial
  | .load _, h => exact Place.Touches.mono hargs h

theorem Place.Touches.mono (hargs : ∀ k, args k → args' k) {place : Place} (h : place.Touches args i) :
    place.Touches args' i := by
  match place, h with
  | .slot _ _, _ | .param _, _ | .global _ _, _ => trivial
  | .arg _, h => exact hargs _ h
  | .indirect _ _, h => exact Operand.Touches.mono hargs h

end

mutual

theorem Operand.touches_all (i : Nat) (op : Operand) : op.Touches (fun _ ↦ True) i := by
  match op with
  | .imm _ | .float _ | .address _ _ => trivial
  | .load place => exact Place.touches_all i place

theorem Place.touches_all (i : Nat) (place : Place) : place.Touches (fun _ ↦ True) i := by
  match place with
  | .slot _ _ | .param _ | .global _ _ | .arg _ => trivial
  | .indirect pointer _ => exact Operand.touches_all 0 pointer

end

theorem Prim.Touches.mono (hargs : ∀ k, args k → args' k) {p : Prim} (h : p.Touches args) : p.Touches args' := by
  cases p with
  | assign rep dst src => exact ⟨fun i hi ↦ (h.1 i hi).mono hargs, fun i ↦ (h.2 i).mono hargs⟩
  | _ => exact ⟨fun op hop i ↦ (h.1 op hop i).mono hargs, fun d hd i ↦ (h.2 d hd i).mono hargs⟩

theorem Prim.touches_all (p : Prim) : p.Touches fun _ ↦ True := by
  cases p with
  | assign rep dst src => exact ⟨fun i _ ↦ dst.touches_all i, fun i ↦ src.touches_all i⟩
  | _ => exact ⟨fun op _ i ↦ op.touches_all i, fun d _ i ↦ d.touches_all i⟩

def Operand.IsFree (op : Operand) : Prop := ∀ i, op.Touches (fun _ ↦ False) i

def Place.IsFree (place : Place) : Prop := ∀ i, place.Touches (fun _ ↦ False) i

theorem Operand.IsFree.touches {op : Operand} (h : op.IsFree) (args : Int → Prop) (i : Nat) : op.Touches args i :=
  (h i).mono fun _ hk ↦ hk.elim

/-! ## Calls -/

/-- A node with nothing reserved for arguments before and after it. -/
def Prim.IsPlain (p : Prim) : Prop :=
  p.Touches (fun _ ↦ False) ∧ match p with
    | .entry | .callStart _ | .call .. => False
    | _ => True

def Prim.isOrdinary : Prim → Bool
  | .jump _ | .compare .. | .test .. | .cast .. | .unary .. | .binary .. | .assign .. | .throwValue _ => true
  | _ => false

/-- A node that computes, branches or throws, and names no outgoing argument. -/
structure Prim.IsOrdinary (p : Prim) : Prop where
  kind : p.isOrdinary
  operands : ∀ op ∈ p.operands, op.IsFree
  dst : ∀ d, p.dst = some d → d.IsFree

theorem Prim.IsOrdinary.isPlain {p : Prim} (h : p.IsOrdinary) : p.IsPlain := by
  obtain ⟨hkind, hops, hdst⟩ := h
  cases p with
  | assign rep dst src => exact ⟨⟨fun i _ ↦ hdst dst rfl i, hops src (List.mem_singleton_self src)⟩, trivial⟩
  | entry | callStart | call => cases hkind
  | _ => exact ⟨⟨hops, hdst⟩, trivial⟩

/-- Nodes at a point where so many words are reserved for the arguments of a call, if any are: every
call that is started gets its arguments and is made. -/
inductive Flow.Calls : Option Nat → Flow → Prop where
  | nil : Calls none []
  | plain {p : Item Prim} {rest : Flow} (hp : p.value.IsPlain) (hrest : Calls none rest) :
    Calls none (p :: rest)
  | start {n : Nat} {loc : Option Location} {rest : Flow} (hrest : Calls (some n) rest) :
    Calls none (⟨.callStart n, loc⟩ :: rest)
  | argument {n w : Nat} {rep : Rep} {src : Operand} {loc : Option Location} {rest : Flow}
    (hw : w + rep.words ≤ n) (hsrc : src.IsFree) (hrest : Calls (some n) rest) :
    Calls (some n) (⟨.assign rep (.arg w) src, loc⟩ :: rest)
  | call {n : Nat} {target : CallTarget} {result : Option (Place × Rep)} {loc : Option Location} {rest : Flow}
    (hp : (Prim.call target n result).Touches fun _ ↦ False) (hrest : Calls none rest) :
    Calls (some n) (⟨.call target n result, loc⟩ :: rest)

end W16Compiler
