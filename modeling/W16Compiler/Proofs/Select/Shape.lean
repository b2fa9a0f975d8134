import W16Compiler.Proofs.Select.Calls
import W16Compiler.Proofs.Prim.Outgoing

/-!
# The shape of selected code

Selection fails on a comparison that is no branch, on a block where a value is compared, on a second
word of an address and on results that do not fit the registers. A node without any of these has code.

Almost all instructions that are selected are inner ones: they go on to the next instruction, leave the
stack pointer alone, reach the frame through the stack pointer only, and leave `r6` to the frame layout.
Of the outgoing arguments they reach the words that the node names. Where a node begins, branches, moves
the stack pointer or leaves, its code has a fixed form around such instructions.
-/

namespace W16Compiler

open List

def Operand.suits (rep : Rep) : Operand → Bool
  | .address .. => rep.words == 1
  | _ => true

def Rep.isReturned (rep : Rep) : Bool := rep.words == 1 || rep.words == 2

/-- What is promised of a node: values that are computed with are no blocks, operands have the words of
their representation, results of calls fit the registers, and comparisons are branches. -/
def Prim.isSelectable : Prim → Bool
  | .compare _ rep lhs rhs _ => !rep.isBlock && lhs.suits rep && rhs.suits rep
  | .test _ rep value _ => !rep.isBlock && value.suits rep
  | .call _ _ result => result.all fun r ↦ r.2.isReturned
  | .cast _ rep src srcRep => !rep.isBlock && !srcRep.isBlock && src.suits srcRep
  | .unary _ rep _ src => !rep.isBlock && src.suits rep
  | .binary op rep _ lhs rhs =>
    !op.isComparison && !rep.isBlock && lhs.suits rep && rhs.suits (rightRep op rep)
  | .assign rep _ src => rep.isBlock || src.suits rep
  | .ret value => value.all fun v ↦ v.2.isReturned && v.1.suits v.2
  | _ => true

lemma Operand.words_of_suits {rep : Rep} {op : Operand} (h : op.suits rep) {base : AddressBase}
    (heq : op = .address base offset) : rep.words = 1 := by
  rw [heq] at h
  exact eq_of_beq h

namespace Select

def Selects {α : Type} (may : Prop) (x : SelectM α) (P : α → Prop) : Prop :=
  ∀ slots, Delivers may (x slots) fun r ↦ Grows slots r.2 ∧ P r.1

variable {α β : Type} {may : Prop} {P P' : α → Prop} {Q : β → Prop} {as : List α} {f : α → SelectM β} {x : SelectM α}

lemma Selects.pure (h : P a) : Selects may (pure a) P := fun _ ↦ And.intro (.refl _) h

lemma Selects.mono (h : Selects may x P) (hP : ∀ a, P a → P' a) : Selects may x P' :=
  fun slots ↦ (h slots).mono fun r hr ↦ ⟨hr.1, hP r.1 hr.2⟩

lemma Selects.lift {x : Except InternalFault α} (h : Delivers may x P) : Selects may (liftM x) P := by
  intro _
  cases x with
  | ok a => exact And.intro (.refl _) h
  | error e => exact h

lemma Selects.bind (hx : Selects may x P) (hf : ∀ a, P a → Selects may (f a) Q) : Selects may (x >>= f) Q := by
  intro slots
  exact (hx slots).bind fun r hr ↦ (hf r.1 hr.2 r.2).mono fun r' h ↦ ⟨hr.1.trans h.1, h.2⟩

lemma Selects.mapM (h : ∀ a ∈ as, Selects may (f a) Q) : Selects may (as.mapM f) fun bs ↦ ∀ b ∈ bs, Q b := by
  induction as with
  | nil => exact .pure (List.forall_mem_nil Q)
  | cons a as ih =>
    rw [List.mapM_cons]
    exact (h a List.mem_cons_self).bind fun b hb ↦
      (ih fun a ha ↦ h a (List.mem_cons_of_mem _ ha)).bind fun bs hbs ↦ .pure (List.forall_mem_cons.mpr ⟨hb, hbs⟩)

end Select

open Prim (isSelectable call ret)

/-- Whether a displacement makes sense from a base register: words of the frame are found from the stack
pointer. -/
def Disp.isFrom (base : Reg) : Disp → Bool
  | .num _ => true
  | .slot .. | .param _ => base == .sp
  | .frame _ => false

/-- Whether an instruction goes on to the next one with the same stack pointer and without a word about
labels, and no address in it comes from `r6`. -/
def Instr.isInner : Instr → Bool
  | .load rd base d | .addImm rd base d => rd != .sp && base != .r6 && d.isFrom base
  | .store rs base d => rs != .r6 && base != .r6 && d.isFrom base
  | .alu _ rd _ _ | .unary _ rd _ | .loadImm rd _ | .loadSymbol rd _ _ => rd != .sp
  | .call _ | .callReg _ => true
  | _ => false

lemma Instr.definedLabel_of_isInner {i : Instr} (h : i.isInner) : i.definedLabel = none := by
  cases i <;> first | rfl | cases h

/-! ## Outgoing arguments -/

def argAt : Reg → Disp → Option Int
  | .sp, .num k => some k
  | _, _ => none

def Instr.argWord : Instr → Option Int
  | .load _ base d | .store _ base d | .addImm _ base d => argAt base d
  | _ => none

namespace Select

variable {args : Int → Prop} {i : Instr}

def InnerInstr (args : Int → Prop) (i : Instr) : Prop := i.isInner ∧ ∀ k, i.argWord = some k → args k

def ReachesArg (args : Int → Prop) (base : Reg) (d : Disp) : Prop := ∀ k, argAt base d = some k → args k

def Inner (args : Int → Prop) (code : Instrs) : Prop := ∀ i ∈ code, InnerInstr args i

@[simp] lemma inner_nil : Inner args [] := by simp [Inner]

@[simp] lemma inner_cons {code : Instrs} : Inner args (i :: code) ↔ InnerInstr args i ∧ Inner args code := by
  simp [Inner]

@[simp] lemma inner_append {code code' : Instrs} :
    Inner args (code ++ code') ↔ Inner args code ∧ Inner args code' := by
  simp [Inner, or_imp, forall_and]

lemma Inner.mono (hargs : ∀ k, args k → args' k) {code : Instrs} (h : Inner args code) : Inner args' code :=
  fun i hi ↦ ⟨(h i hi).1, fun k hk ↦ hargs k ((h i hi).2 k hk)⟩

lemma innerInstr_of_argWord (hi : i.isInner) (h : i.argWord = none) : InnerInstr args i :=
  ⟨hi, fun k hk ↦ by rw [h] at hk; cases hk⟩

variable {base : Reg} {place dst : Place} {rep : Rep} {slots slots' : Array Slot} {src : Operand} {d : Disp}

lemma argAt_of_ne (h : base ≠ .sp) : argAt base d = none := by
  cases base <;> first | rfl | exact (h rfl).elim

lemma ReachesArg.of_ne (h : base ≠ .sp) : ReachesArg args base d := by
  intro k hk
  rw [argAt_of_ne h] at hk
  cases hk

lemma wrap32_wrap32 (x : Int) : wrap32 (wrap32 x) = wrap32 x := Int.bmod_bmod

lemma Disp.isFrom_plus (base : Reg) (d : Disp) (k : Int) : (d.plus k).isFrom base = d.isFrom base := by
  cases d <;> rfl

lemma inner_flatten {pieces : List Instrs} (h : ∀ piece ∈ pieces, Inner args piece) : Inner args pieces.flatten := by
  intro i hi
  obtain ⟨piece, hpiece, hi⟩ := mem_flatten.mp hi
  exact h piece hpiece i hi

lemma inner_concat {code : Instrs} (h : Inner args code) (hi : InnerInstr args i) : Inner args (code ++ [i]) :=
  inner_append.mpr ⟨h, inner_cons.mpr ⟨hi, inner_nil⟩⟩

/-! ## Operands -/

lemma inner_addressOfBase (base : AddressBase) (offset : Int) {reg : Reg} (hreg : reg ≠ .sp) :
    InnerInstr args (addressOfBase base offset reg) := by
  cases base <;> exact innerInstr_of_argWord (by simp [addressOfBase, Instr.isInner, Disp.isFrom, hreg]) rfl

lemma inner_loadImm {reg : Reg} (hreg : reg ≠ .sp) (v : Int) : InnerInstr args (.loadImm reg v) :=
  innerInstr_of_argWord (by simp [Instr.isInner, hreg]) rfl

lemma inner_call (symbol : String) : InnerInstr args (.call symbol) := innerInstr_of_argWord rfl rfl

structure Accesses (args : Int → Prop) (i : Nat) (r : Instrs × Reg × Disp) : Prop where
  inner : Inner args r.1
  base : r.2.1 ≠ .r6
  disp : r.2.2.isFrom r.2.1
  word : ReachesArg args r.2.1 (r.2.2.plus i)
  first : i = 0 → ReachesArg args r.2.1 r.2.2

def HasWord (op : Operand) (i : Nat) : Prop := ∀ base offset, op = .address base offset → i = 0

variable {may : Prop}

mutual

theorem delivers_loadWord {op : Operand} {rep : Rep} {i : Nat} {reg : Reg} (hreg : reg ≠ .sp ∧ reg ≠ .r6)
    (hw : may ∨ HasWord op i) (ht : op.Touches args i) : Delivers may (loadWord op rep i reg) (Inner args) := by
  match op with
  | .imm value | .float x =>
    rw [loadWord]
    exact inner_concat inner_nil (inner_loadImm hreg.1 _)
  | .address base offset =>
    rw [loadWord]
    split
    · exact inner_concat inner_nil (inner_addressOfBase base offset hreg.1)
    · rename_i hi
      exact hw.resolve_right fun h ↦ hi (h base offset rfl)
  | .load place =>
    rw [loadWord]
    refine (delivers_placeAccess hreg ht).bind fun r h ↦ inner_concat h.inner ⟨?_, h.word⟩
    simp [Instr.isInner, hreg, h.base, Disp.isFrom_plus, h.disp]

theorem delivers_placeAccess {place : Place} {i : Nat} (hscratch : scratch ≠ .sp ∧ scratch ≠ .r6)
    (ht : place.Touches args i) : Delivers may (placeAccess place scratch) (Accesses args i) := by
  match place with
  | .slot s offset | .param offset =>
    rw [placeAccess]
    constructor <;> simp [Disp.isFrom, ReachesArg, argAt, Disp.plus]
  | .arg word =>
    rw [placeAccess]
    refine Accesses.mk inner_nil Reg.noConfusion rfl (fun k hk ↦ ?_) fun hi k hk ↦ ?_
    · rw [Disp.plus, argAt, Option.some.injEq] at hk
      exact hk ▸ ht
    · rw [argAt, Option.some.injEq] at hk
      rw [hi, Place.Touches, Int.natCast_zero, Int.add_zero, wrap32_wrap32] at ht
      exact hk ▸ ht
  | .global label offset =>
    rw [placeAccess]
    refine Accesses.mk (inner_concat inner_nil (innerInstr_of_argWord ?_ rfl)) hscratch.2 rfl
      (.of_ne hscratch.1) fun _ ↦ .of_ne hscratch.1
    simp [Instr.isInner, hscratch]
  | .indirect pointer offset =>
    rw [placeAccess]
    exact (delivers_loadWord hscratch (.inr fun _ _ _ ↦ rfl) ht).bind fun _ hload ↦
      Accesses.mk hload hscratch.2 rfl (.of_ne hscratch.1) fun _ ↦ .of_ne hscratch.1

end

variable {reg : Reg} {code : Instrs} {op : BinaryOp} {target : Label}

lemma delivers_firstWord {op : Operand} (ht : ∀ i, op.Touches args i) (hreg : reg ≠ .sp ∧ reg ≠ .r6 := by decide) :
    Delivers may (loadWord op rep 0 reg) (Inner args) :=
  delivers_loadWord hreg (.inr fun _ _ _ ↦ rfl) (ht 0)

lemma delivers_storeWord {i : Nat} (ht : place.Touches args i) (hrs : rs ≠ .r6 := by decide) :
    Delivers may (storeWord place rs i) (Inner args) := by
  refine (delivers_placeAccess (by decide) ht).bind fun r h ↦ inner_concat h.inner ⟨?_, h.word⟩
  simp [Instr.isInner, hrs, h.base, Disp.isFrom_plus, h.disp]

lemma delivers_addressOfPlace (ht : place.Touches args 0) (hreg : reg ≠ .sp ∧ reg ≠ .r6 := by decide) :
    Delivers may (addressOfPlace place reg) (Inner args) := by
  cases place with
  | indirect pointer offset =>
    refine (delivers_loadWord hreg (.inr fun _ _ _ ↦ rfl) ht).bind fun _ hload ↦ ?_
    change Inner args (if _ then _ else _)
    split
    · exact hload
    · refine inner_concat hload (innerInstr_of_argWord ?_ (argAt_of_ne hreg.1))
      simp [Instr.isInner, hreg, Disp.isFrom]
  | arg word =>
    refine inner_concat inner_nil ⟨by simp [Instr.isInner, hreg, Disp.isFrom], fun k hk ↦ ?_⟩
    rw [Place.Touches, Int.natCast_zero, Int.add_zero, wrap32_wrap32] at ht
    rw [Instr.argWord, argAt, Option.some.injEq] at hk
    exact hk ▸ ht
  | _ => exact inner_concat inner_nil (inner_addressOfBase _ _ hreg.1)

lemma inner_normalize (rep : Rep) (hreg : reg ≠ .sp := by decide) : Inner args (normalize rep reg) := by
  cases rep <;> simp [normalize, InnerInstr, Instr.isInner, Instr.argWord, hreg]

lemma selects_newSlot (n : Nat) : Selects may (newSlot n) fun _ ↦ True := by
  refine fun _ ↦ And.intro (fun k _ hk ↦ ?_) trivial
  obtain ⟨hlt, -⟩ := Array.getElem?_eq_some_iff.mp hk
  exact (Array.getElem?_push_lt hlt).trans (Array.getElem?_eq_getElem hlt ▸ hk)

lemma selects_operandAddress {op : Operand} (ht : ∀ i, op.Touches args i)
    (hreg : reg ≠ .sp ∧ reg ≠ .r6 := by decide) :
    Selects may (operandAddress op rep reg) (Inner args) := by
  have hstore (slot : SlotId) (i : Nat) : InnerInstr args (.store reg .sp (.slot slot i)) :=
    innerInstr_of_argWord (by simp [Instr.isInner, hreg, Disp.isFrom]) rfl
  have hspill (hop : ∀ i, HasWord op i) (slot : SlotId) : Selects may (do
      let stores ← (range rep.words).mapM fun i ↦ do
        return (← loadWord op rep i reg) ++ [Instr.store reg .sp (.slot slot i)]
      return stores.flatten ++ [addressOfBase (.slot slot) 0 reg] : SelectM Instrs) (Inner args) :=
    (Selects.mapM fun i _ ↦ (Selects.lift (delivers_loadWord hreg (.inr (hop i)) (ht i))).bind fun _ hload ↦
      .pure (inner_concat hload (hstore slot i))).bind fun _ hpieces ↦
        .pure (inner_concat (inner_flatten hpieces) (inner_addressOfBase _ _ hreg.1))
  cases op with
  | load place => exact .lift (delivers_addressOfPlace (ht 0) hreg)
  | imm | float => exact (selects_newSlot _).bind fun slot _ ↦ hspill (fun _ _ _ h ↦ by cases h) slot
  | address base offset =>
    refine (selects_newSlot 1).bind fun slot _ ↦ (Selects.lift (delivers_firstWord ht hreg)).bind fun _ hload ↦ .pure ?_
    exact inner_append.mpr ⟨hload, inner_cons.mpr
      ⟨hstore slot 0, inner_concat inner_nil (inner_addressOfBase _ _ hreg.1)⟩⟩

/-! ## Nodes that compute -/

lemma Operand.hasWord_of_suits {op : Operand} (h : may ∨ op.suits rep) {i : Nat} (hi : i < rep.words) :
    may ∨ HasWord op i := by
  refine h.imp_right fun hop _ _ heq ↦ ?_
  have := Operand.words_of_suits hop heq
  omega

lemma delivers_assign (hs : may ∨ rep.isBlock ∨ src.suits rep) (hdst : ∀ i, i < rep.words → dst.Touches args i)
    (hsrc : ∀ i, src.Touches args i) : Delivers may (selectAssign rep dst src) (Inner args) := by
  have hwords (hb : rep.isBlock = false) : Delivers may (do
      let words ← (range rep.words).mapM fun i ↦ do
        return (← loadWord src rep i .r0) ++ (← storeWord dst .r0 i)
      return words.flatten) (Inner args) := by
    refine (Delivers.mapM fun i hi ↦ ?_).bind fun _ ↦ inner_flatten
    have hlt := mem_range.mp hi
    have hw := Operand.hasWord_of_suits (hs.imp_right fun h ↦ h.resolve_left (by simp [hb])) hlt
    exact (delivers_loadWord (by decide) hw (hsrc i)).bind fun _ hload ↦
      (delivers_storeWord (hdst i hlt)).bind fun _ hstore ↦ inner_append.mpr ⟨hload, hstore⟩
  cases rep with
  | block n =>
    rw [selectAssign]
    simp only
    have hpointer : Delivers may (loadWord src (.word false) 0 .r1) (Inner args) := delivers_firstWord hsrc
    have hstores (fetch : Nat → Instrs) (hfetch : ∀ i, Inner args (fetch i)) : Delivers may
        ((range n).mapM fun (i : Nat) ↦ do return fetch i ++ (← storeWord dst .r0 i))
        fun pieces ↦ Inner args pieces.flatten := by
      refine (Delivers.mapM fun i hi ↦ ?_).mono fun _ ↦ inner_flatten
      exact (delivers_storeWord (hdst i (mem_range.mp hi))).bind fun _ hstore ↦
        inner_append.mpr ⟨hfetch i, hstore⟩
    split
    · split
      · exact (hstores _ fun _ ↦ inner_nil).bind fun _ h ↦ inner_cons.mpr ⟨inner_loadImm (by decide) _, h⟩
      · exact hpointer.bind fun _ hload ↦ (hstores _ fun _ ↦ inner_concat inner_nil
          (innerInstr_of_argWord rfl rfl)).bind fun _ h ↦ inner_append.mpr ⟨hload, h⟩
    · rename_i hn
      refine (delivers_addressOfPlace (hdst 0 (by rw [Rep.words]; omega))).bind fun _ haddress ↦ ?_
      have hcall (symbol : String) : Inner args [.loadImm .r1 (wrap32 n), .call symbol] ∧
          Inner args [.loadImm .r2 (wrap32 n), .call symbol] := by simp [inner_loadImm, inner_call]
      split
      · exact inner_append.mpr ⟨haddress, (hcall _).1⟩
      · exact hpointer.bind fun _ hload ↦ inner_append.mpr ⟨inner_append.mpr ⟨haddress, hload⟩, (hcall _).2⟩
  | _ => exact hwords rfl

lemma selects_cast (hs : may ∨ (Prim.cast dst rep src srcRep).isSelectable)
    (hdst : ∀ i, dst.Touches args i) (hsrc : ∀ i, src.Touches args i) :
    Selects may (selectCast dst rep src srcRep) (Inner args) := by
  have hnorm : Inner args (normalize rep .r0) := inner_normalize rep
  have hfirst : Delivers may (loadWord src srcRep 0 .r0) (Inner args) := delivers_firstWord hsrc
  have hlow : Delivers may (storeWord dst .r0 0) (Inner args) := delivers_storeWord (hdst 0)
  have hnarrow : Selects may (do return (← loadWord src srcRep 0 .r0) ++ normalize rep .r0 ++
      (← storeWord dst .r0 0) : SelectM Instrs) (Inner args) :=
    (Selects.lift hfirst).bind fun _ hload ↦ (Selects.lift hlow).bind fun _ hstore ↦
      .pure (by simp [hload, hnorm, hstore])
  unfold selectCast
  split
  · refine (Selects.lift (delivers_addressOfPlace (hdst 0))).bind fun _ haddress ↦
      (selects_operandAddress hsrc).bind fun _ hsource ↦ ?_
    simp only
    split
    · refine (Selects.lift (delivers_placeAccess (by decide) (hdst 0))).bind fun r h ↦
        (Selects.lift hlow).bind fun _ hstore ↦ .pure ?_
      have hload : InnerInstr args (.load .r0 r.2.1 r.2.2) := ⟨by simp [Instr.isInner, h.base, h.disp], h.first rfl⟩
      simp [haddress, hsource, inner_call, h.inner, hload, hnorm, hstore]
    · exact .pure (by simp [haddress, hsource, inner_call])
  · split
    · exact hnarrow
    · exact hnarrow
    · refine (Selects.lift hfirst).bind fun _ hload ↦ (Selects.lift hlow).bind fun _ hstore ↦
        (Selects.lift (delivers_storeWord (hdst 1))).bind fun _ hhigh ↦ .pure ?_
      cases srcRep.isSigned <;>
        simp [hload, hstore, hhigh, InnerInstr, Instr.isInner, Instr.argWord]
    · rename_i hf _ _ hne _ hne'
      rw [Bool.not_eq_true, Bool.or_eq_false_iff] at hf
      refine .lift (delivers_assign (hs.imp_right fun h ↦ .inr ?_) (fun i _ ↦ hdst i) hsrc)
      simp only [isSelectable, Bool.and_eq_true, Bool.not_eq_true'] at h
      obtain ⟨⟨hb, -⟩, hsuits⟩ := h
      -- The address of something is extended or stays one word; it is not copied here.
      cases src with
      | address base offset =>
        have hone := Operand.words_of_suits hsuits rfl
        rcases integer_cases hb hf.1 with ⟨-, h1⟩ | ⟨signed, rfl⟩
        · exact (hne hone h1).elim
        · exact (hne' hone rfl).elim
      | _ => rfl

lemma selects_unary {op : PrimUnary} (hdst : ∀ i, dst.Touches args i) (hsrc : ∀ i, src.Touches args i) :
    Selects may (selectUnary op rep dst src) (Inner args) := by
  unfold selectUnary
  split
  · have hnorm : Inner args (normalize rep .r0) := inner_normalize rep
    exact (Selects.lift (delivers_firstWord hsrc)).bind fun _ hload ↦
      (Selects.lift (delivers_storeWord (hdst 0))).bind fun _ hstore ↦
        .pure (by simp [hload, hstore, hnorm, InnerInstr, Instr.isInner, Instr.argWord])
  · exact (Selects.lift (delivers_addressOfPlace (hdst 0))).bind fun _ haddress ↦
      (selects_operandAddress hsrc).bind fun _ hsource ↦ .pure (by simp [haddress, hsource, inner_call])

lemma delivers_helperOp (h : may ∨ op.isComparison = false) : Delivers may (helperOp op) fun _ ↦ True := by
  cases op <;> first | exact trivial | exact h.resolve_right (by decide)

lemma delivers_wordHelper (h : may ∨ op.isComparison = false)
    (halu : aluOp? op signed = none) : Delivers may (wordHelper op signed) fun _ ↦ True := by
  cases op <;> first | exact trivial | (cases halu; done) | exact h.resolve_right (by decide)

lemma selects_binary (hs : may ∨ op.isComparison = false)
    (hdst : ∀ i, dst.Touches args i) (hlhs : ∀ i, lhs.Touches args i) (hrhs : ∀ i, rhs.Touches args i) :
    Selects may (selectBinary op rep dst lhs rhs) (Inner args) := by
  have hnorm : Inner args (normalize rep .r0) := inner_normalize rep
  have hstore : Delivers may (storeWord dst .r0 0) (Inner args) := delivers_storeWord (hdst 0)
  unfold selectBinary
  split
  · refine (Selects.lift (delivers_firstWord hlhs)).bind fun _ hleft ↦
      (Selects.lift (delivers_firstWord hrhs)).bind fun _ hright ↦ ?_
    split
    · exact (Selects.lift hstore).bind fun _ h ↦
        .pure (by simp [hleft, hright, hnorm, h, InnerInstr, Instr.isInner, Instr.argWord])
    · rename_i halu
      exact (Selects.lift (delivers_wordHelper hs halu)).bind fun _ _ ↦ (Selects.lift hstore).bind fun _ h ↦
        .pure (by simp [hleft, hright, hnorm, h, inner_call])
  · exact (Selects.lift (delivers_addressOfPlace (hdst 0))).bind fun _ haddress ↦
      (selects_operandAddress hlhs).bind fun _ hleft ↦
        (selects_operandAddress hrhs).bind fun _ hright ↦
          (Selects.lift (delivers_helperOp hs)).bind fun _ _ ↦ .pure (by simp [haddress, hleft, hright, inner_call])

/-! ## All nodes -/

inductive Shape (args : Int → Prop) : Prim → Instrs → Prop where
  | entry : Shape args .entry [.addImm .sp .sp (.frame (-1))]
  | label (l : Label) : Shape args (.label l) [.label l .empty]
  | cleanupEntry (l : Label) (link : SlotId) : Shape args (.cleanupEntry l link) [.label l .empty]
  | jump (l : Label) : Shape args (.jump l) [.jump l false]
  | compare {cond : Cond} {rep : Rep} {lhs rhs : Operand} {target : Label} {pre : Instrs} {c : BranchCond}
    {ra rb : Reg} (h : Inner args pre) :
    Shape args (.compare cond rep lhs rhs target) (pre ++ [.branch c ra rb target false])
  | test {nonzero : Bool} {rep : Rep} {value : Operand} {target : Label} {pre : Instrs} (h : Inner args pre) :
    Shape args (.test nonzero rep value target) (pre ++ [.branchZero nonzero .r0 target false])
  | callStart (n : Nat) :
    Shape args (.callStart n) (if n > 0 then [.addImm .sp .sp (.num (wrap32 (-n)))] else [])
  | call {target : CallTarget} {words : Nat} {result : Option (Place × Rep)} {pre store : Instrs}
    (hpre : Inner args pre) (hstore : Inner args store) :
    Shape args (.call target words result)
      (pre ++ ((if words > 0 then [.addImm .sp .sp (.num (wrap32 words))] else []) ++ store))
  | pure {p : Prim} {code : Instrs} (hp : p.isPure) (h : Inner args code) : Shape args p code
  | ret {value : Option (Operand × Rep)} {load : Instrs} {wide : Bool} (h : Inner args load) :
    Shape args (.ret value) (load ++ [.addImm .sp .sp (.frame 1), .ret wide])
  | throwValue {value : Operand} {pre : Instrs} (h : Inner args pre) :
    Shape args (.throwValue value)
      (pre ++ [.load .sp .r1 (.num 2), .load .r1 .r1 (.num 1), .jumpReg .r1 []])
  | tryBegin (record : SlotId) (handler : Label) :
    Shape args (.tryBegin record handler) (selectTryBegin record handler)
  | tryEnd (record : SlotId) : Shape args (.tryEnd record) (selectTryEnd record)
  | cleanupCall (start : Label) (link : SlotId) (resume : Label) :
    Shape args (.cleanupCall start link resume)
      [.loadLabel .r0 resume false, .store .r0 .sp (.slot link 0), .jump start false]
  | cleanupReturn (link : SlotId) (resumes : List Label) :
    Shape args (.cleanupReturn link resumes) [.load .r0 .sp (.slot link 0), .jumpReg .r0 resumes]
  | catchEntry {l : Label} {dst : Option Place} {store : Instrs} (h : Inner args store) :
    Shape args (.catchEntry l dst) (.label l (.ofList [.r0]) :: store)

lemma selects_compare {cond : Cond} {lhs rhs : Operand} (hs : may ∨ rep.isBlock = false)
    (hlhs : ∀ i, lhs.Touches args i) (hrhs : ∀ i, rhs.Touches args i) :
    Selects may (selectCompare cond rep lhs rhs target) fun code ↦
      ∃ pre signed, Inner args pre ∧ code = pre ++ [branchInstr cond signed target] := by
  unfold selectCompare
  simp only
  split
  · exact (Selects.lift (delivers_firstWord hlhs)).bind fun _ hleft ↦
      (Selects.lift (delivers_firstWord hrhs)).bind fun _ hright ↦
        .pure ⟨_, _, inner_append.mpr ⟨hleft, hright⟩, rfl⟩
  · split
    · rename_i hb
      exact fun _ ↦ hs.resolve_right (by simp [hb])
    · exact (selects_operandAddress hlhs).bind fun _ hleft ↦
        (selects_operandAddress hrhs).bind fun _ hright ↦
          .pure ⟨_, _, by simp [hleft, hright, inner_call, inner_loadImm], rfl⟩

lemma delivers_test {value : Operand} (hs : may ∨ value.suits rep) (hvalue : ∀ i, value.Touches args i) :
    Delivers may (selectTest nonzero rep value target) (Shape args (.test nonzero rep value target)) := by
  refine (delivers_firstWord hvalue).bind fun _ hfirst ↦
    (Delivers.mapM (Q := Inner args) fun k hk ↦ ?_).bind fun _ hothers ↦
      Shape.test (inner_append.mpr ⟨hfirst, inner_flatten hothers⟩)
  have hlt := mem_range.mp hk
  refine (delivers_loadWord (by decide) (Operand.hasWord_of_suits hs (by omega)) (hvalue (k + 1))).bind fun _ hload ↦ ?_
  change Inner args (_ ++ (if _ then _ else _) ++ _)
  split <;> simp [hload, InnerInstr, Instr.isInner, Instr.argWord]

lemma delivers_call {target : CallTarget} {words : Nat} {result : Option (Place × Rep)}
    (hs : may ∨ (call target words result).isSelectable)
    (htarget : ∀ op ∈ (call target words result).operands, ∀ i, op.Touches args i)
    (hresult : ∀ d, (call target words result).dst = some d → ∀ i, d.Touches args i) :
    Delivers may (selectCall target words result) (Shape args (.call target words result)) := by
  have hby (call : Instrs) (hcall : Inner args call) :
      Delivers may (callBy call words result) (Shape args (.call target words result)) := by
    have hcode (store : Instrs) (hstore : Inner args store) : Shape args (.call target words result)
        (call ++ (if words > 0 then [.addImm .sp .sp (.num (wrap32 words))] else []) ++ store) :=
      append_assoc call _ store ▸ .call hcall hstore
    unfold callBy
    cases result with
    | none => exact hcode [] inner_nil
    | some pair =>
      obtain ⟨dst, rep⟩ := pair
      have hlow : Delivers may (storeWord dst .r0 0) (Inner args) := delivers_storeWord (hresult _ rfl 0)
      simp only
      split
      · exact hlow.bind hcode
      · exact hlow.bind fun _ hstore ↦ (delivers_storeWord (hresult _ rfl 1)).bind fun _ hhigh ↦
          hcode _ (inner_append.mpr ⟨hstore, hhigh⟩)
      · rename_i h1 h2
        exact hs.resolve_right fun h ↦ by simp_all [isSelectable, Rep.isReturned]
  cases target with
  | direct symbol => exact hby _ (inner_concat inner_nil (inner_call symbol))
  | indirect pointer =>
    exact (delivers_firstWord (htarget _ mem_cons_self)).bind fun load hload ↦
      hby _ (inner_concat hload (innerInstr_of_argWord rfl rfl))

lemma delivers_return {value : Option (Operand × Rep)} (hs : may ∨ (ret value).isSelectable)
    (ht : ∀ op ∈ (ret value).operands, ∀ i, op.Touches args i) :
    Delivers may (selectReturn value) (Shape args (.ret value)) := by
  unfold selectReturn
  cases value with
  | none => exact Shape.ret inner_nil
  | some pair =>
    obtain ⟨op, rep⟩ := pair
    have hop := ht op mem_cons_self
    have hlow : Delivers may (loadWord op rep 0 .r0) (Inner args) := delivers_firstWord hop
    simp only
    split
    · exact hlow.bind fun _ hload ↦ Shape.ret hload
    · rename_i h2
      have hsuits : may ∨ op.suits rep := hs.imp_right fun h ↦ by simp_all [isSelectable]
      have hhigh : Delivers may (loadWord op rep 1 .r1) (Inner args) :=
        delivers_loadWord (by decide) (Operand.hasWord_of_suits hsuits (by omega)) (hop 1)
      exact hlow.bind fun _ hload ↦ hhigh.bind fun _ hload' ↦ Shape.ret (inner_append.mpr ⟨hload, hload'⟩)
    · rename_i h1 h2
      exact hs.resolve_right fun h ↦ by simp_all [isSelectable, Rep.isReturned]

lemma selects_prim {p : Prim} (hs : may ∨ p.isSelectable) (ht : p.Touches args) :
    Selects may (selectPrim p) (Shape args p) := by
  cases p with
  | entry => exact .pure .entry
  | label l => exact .pure (.label l)
  | cleanupEntry l link => exact .pure (.cleanupEntry l link)
  | jump l => exact .pure (.jump l)
  | compare cond rep lhs rhs target =>
    have hb : may ∨ rep.isBlock = false := hs.imp_right fun h ↦ by simp_all [isSelectable]
    refine (selects_compare hb (ht.1 lhs mem_cons_self) (ht.1 rhs (by simp [Prim.operands]))).mono fun _ h ↦ ?_
    obtain ⟨_, _, hpre, rfl⟩ := h
    exact .compare hpre
  | test nonzero rep value target =>
    refine .lift (delivers_test (hs.imp_right fun h ↦ ?_) (ht.1 value mem_cons_self))
    exact ((Bool.and_eq_true _ _).mp h).2
  | callStart n => exact .pure (.callStart n)
  | call target words result => exact .lift (delivers_call hs ht.1 ht.2)
  | cast dst rep src srcRep => exact (selects_cast hs (ht.2 dst rfl) (ht.1 src mem_cons_self)).mono fun _ ↦ .pure rfl
  | unary op rep dst src => exact (selects_unary (ht.2 dst rfl) (ht.1 src mem_cons_self)).mono fun _ ↦ .pure rfl
  | binary op rep dst lhs rhs =>
    have hop : may ∨ op.isComparison = false := hs.imp_right fun h ↦ by simp_all [isSelectable]
    exact (selects_binary hop (ht.2 dst rfl) (ht.1 lhs mem_cons_self)
      (ht.1 rhs (by simp [Prim.operands]))).mono fun _ ↦ .pure rfl
  | assign rep dst src =>
    exact .lift ((delivers_assign (hs.imp_right fun h ↦ by simpa [isSelectable] using h) ht.1 ht.2).mono
      fun _ ↦ .pure rfl)
  | ret value => exact .lift (delivers_return hs ht.1)
  | throwValue value =>
    refine .lift ((delivers_firstWord (ht.1 value mem_cons_self)).bind fun load hload ↦ ?_)
    have hpre : Inner args (load ++ [.loadSymbol .r1 tryMark 0, .load .r1 .r1 (.num 0),
        .load .r2 .r1 (.num 0), .loadSymbol .r3 tryMark 0, .store .r2 .r3 (.num 0)]) := by
      simp [hload, InnerInstr, Instr.isInner, Instr.argWord, argAt, Disp.isFrom]
    have hshape : Shape args (.throwValue value) _ := .throwValue hpre
    rwa [append_assoc] at hshape
  | tryBegin record handler => exact .pure (.tryBegin record handler)
  | tryEnd record => exact .pure (.tryEnd record)
  | cleanupCall start link resume => exact .pure (.cleanupCall start link resume)
  | cleanupReturn link resumes => exact .pure (.cleanupReturn link resumes)
  | catchEntry l dst =>
    cases dst with
    | none => exact .pure (.catchEntry inner_nil)
    | some d =>
      exact (Selects.lift (delivers_storeWord (ht.2 d rfl 0))).bind fun _ hstore ↦
        .pure (.catchEntry hstore)

variable {p : Prim}

lemma selectPrim_shape (h : selectPrim p slots = .ok (code, slots')) (ht : p.Touches args) : Shape args p code :=
  (((selects_prim (.inl trivial) ht) slots).of_eq h).2

lemma selectPrim_grows (h : selectPrim p slots = .ok (code, slots')) : Grows slots slots' :=
  (((selects_prim (.inl trivial) p.touches_all) slots).of_eq h).1

end Select

lemma PrimFunction.select_ok {f : PrimFunction} (h : ∀ p ∈ f.prims, p.value.isSelectable) :
    ∃ g, f.select = .ok g := by
  have hitems : Select.Selects False (f.prims.mapM Select.selectItem) _ :=
    .mapM (Q := fun _ ↦ True) fun p hp ↦
      (Select.selects_prim (.inr (h p hp)) p.value.touches_all).bind fun _ _ ↦ .pure trivial
  have hgives := hitems f.slots
  unfold PrimFunction.select
  cases hrun : (f.prims.mapM Select.selectItem) f.slots with
  | ok r => exact ⟨_, bind_eq_ok.mpr ⟨r, hrun, rfl⟩⟩
  | error e =>
    rw [hrun] at hgives
    exact hgives.elim

end W16Compiler
