import W16Compiler.Proofs.Lowering.Logic

/-!
# What is written for expressions

Under a lawful regime the nodes for an expression stay inside of the clauses that it stands in, however
it is used, if those for its operands do. The operands and places that it gives name no word of outgoing
arguments, so that such words are written only between the start of a call and the call.
-/

namespace W16Compiler

open List Lowering Operand Place Prim

/-! ## Operands that name no outgoing argument -/

namespace Operand

lemma isFree_imm (value : Int) : (imm value).IsFree := fun _ ↦ trivial

lemma isFree_float (x : Binary64) : (float x).IsFree := fun _ ↦ trivial

lemma isFree_address (base : AddressBase) (offset : Int) : (address base offset).IsFree := fun _ ↦ trivial

lemma IsFree.indirect {pointer : Operand} (h : pointer.IsFree) (offset : Int) : (indirect pointer offset).IsFree :=
  fun _ ↦ h 0

lemma isFree_of_touches {op : Operand} (h : op.Touches (fun _ ↦ False) 0) : op.IsFree := by
  intro i
  cases op with
  | load p =>
    cases p with
    | arg word => exact h.elim
    | indirect pointer offset => exact h
    | _ => trivial
  | _ => trivial

end Operand

namespace Place

lemma isFree_slot (s : SlotId) (offset : Int) : (slot s offset).IsFree := fun _ ↦ trivial

lemma isFree_param (offset : Int) : (param offset).IsFree := fun _ ↦ trivial

lemma isFree_global (label : String) (offset : Int) : (global label offset).IsFree := fun _ ↦ trivial

lemma isFree_of_indirect {pointer : Operand} (h : (indirect pointer offset).IsFree) : pointer.IsFree :=
  isFree_of_touches (h 0)

lemma IsFree.load {p : Place} (h : p.IsFree) : (load p).IsFree := h

lemma IsFree.shift {p : Place} (h : p.IsFree) (by_ : Int) : (p.shift by_).IsFree := by
  cases p with
  | arg word => exact (h 0).elim
  | _ => exact h

end Place

namespace Lowering

lemma isFree_placeAt {v : Operand} (h : v.IsFree) : (placeAt v).IsFree := by
  unfold placeAt
  split
  · exact isFree_slot _ _
  · exact isFree_param _
  · exact isFree_global _ _
  · exact h.indirect 0

lemma isFree_stepOperand (rep : Rep) (step : Int) : (stepOperand rep step).IsFree := by
  unfold stepOperand
  split
  · exact isFree_float _
  · exact isFree_imm _

lemma isFree_convertConstant {v c : Operand} (h : convertConstant v source target = some c) : c.IsFree := by
  unfold convertConstant at h
  split at h
  case h_1 | h_3 =>
    cases h
    exact isFree_imm _
  case h_2 | h_4 =>
    split at h <;> cases h
    exact isFree_float _
  case h_5 => cases h

lemma isFree_of_address {p : Place} (hp : p.IsFree) (h : p.address = some a) : a.IsFree := by
  unfold Place.address at h
  split at h
  case h_1 | h_2 | h_3 =>
    cases h
    exact isFree_address _ _
  case h_4 =>
    split at h <;> cases h
    exact isFree_of_indirect hp
  case h_5 => cases h

/-! ## Nodes that compute -/

section

variable {rep rep' : Rep} {dst : Place} {src lhs rhs : Operand} {l : Label}

lemma isOrdinary_assign (hdst : dst.IsFree) (hsrc : src.IsFree) : (assign rep dst src).IsOrdinary :=
  ⟨rfl, by simp [operands, hsrc], by simp [Prim.dst, hdst]⟩

lemma isOrdinary_unary {op : PrimUnary} (hdst : dst.IsFree) (hsrc : src.IsFree) : (unary op rep dst src).IsOrdinary :=
  ⟨rfl, by simp [operands, hsrc], by simp [Prim.dst, hdst]⟩

lemma isOrdinary_cast (hdst : dst.IsFree) (hsrc : src.IsFree) : (Prim.cast dst rep src rep').IsOrdinary :=
  ⟨rfl, by simp [operands, hsrc], by simp [Prim.dst, hdst]⟩

lemma isOrdinary_binary {op : BinaryOp} (hdst : dst.IsFree) (hlhs : lhs.IsFree) (hrhs : rhs.IsFree) :
    (binary op rep dst lhs rhs).IsOrdinary :=
  ⟨rfl, by simp [operands, hlhs, hrhs], by simp [Prim.dst, hdst]⟩

lemma isOrdinary_test (hsrc : src.IsFree) : (test nonzero rep src l).IsOrdinary :=
  ⟨rfl, by simp [operands, hsrc], by simp [Prim.dst]⟩

lemma isOrdinary_compare {cond : Cond} (hlhs : lhs.IsFree) (hrhs : rhs.IsFree) :
    (Prim.compare cond rep lhs rhs l).IsOrdinary :=
  ⟨rfl, by simp [operands, hlhs, hrhs], by simp [Prim.dst]⟩

end

namespace Regime.Lawful

variable {R : Regime} {D : Discipline} (L : R.Lawful D) {C : Context} {c d : Path} {g0 : R.Notes} {l : Label}
  {rep : Rep} {p : Place} {v : Operand} {ids ids1 ids2 ids3 : List TryId}

include L

variable {dst : Place} {op : BinaryOp} {lhs rhs : Operand} {cond : Cond}

lemma assigns {src : Operand} (hdst : dst.IsFree) (hsrc : src.IsFree) :
    R.Runs C c [] g0 (Lowering.emit (.assign rep dst src)) fun _ _ ↦ True :=
  L.writes (isOrdinary_assign hdst hsrc) rfl

lemma computes (hdst : dst.IsFree) (hlhs : lhs.IsFree) (hrhs : rhs.IsFree) :
    R.Runs C c [] g0 (Lowering.emit (.binary op rep dst lhs rhs)) fun _ _ ↦ True :=
  L.writes (isOrdinary_binary hdst hlhs hrhs) rfl

lemma branches (hnode : node.IsOrdinary) (htarget : node.targets = [l]) (hat : R.At g0 d l)
    (hdirect : D.direct c d) : R.Runs C c [] g0 (Lowering.emit node) fun _ _ ↦ True := by
  refine L.emits hnode fun l' hl' ↦ ?_
  rw [htarget, mem_singleton] at hl'
  exact ⟨d, hl' ▸ hat, hdirect⟩

lemma temps (rep : Rep) : R.Runs C c [] g0 (newTemp rep) fun _ p ↦ p.IsFree :=
  fun _ _ _ ↦ L.keeps ((silent_newSlot _ _).returning fun _ ↦ isFree_slot _ _)

lemma addresses (hp : p.IsFree) : R.Runs C c [] g0 (addressOf p) fun _ v ↦ v.IsFree := by
  unfold addressOf
  split
  · exact .pure fun _ _ ↦ isFree_of_address hp ‹_›
  · rename_i pointer offset _
    have hpointer := isFree_of_indirect hp
    refine (L.temps _).first fun g t _ ht ↦ ?_
    exact (L.computes ht hpointer (Operand.isFree_imm _)).returning ht
  · exact .fail _

lemma contents (hp : p.IsFree) : R.Runs C c [] g0 (contents rep p) fun _ v ↦ v.IsFree :=
  .ite (fun _ ↦ L.addresses hp) fun _ ↦ .pure fun _ _ ↦ hp

lemma copies (hv : v.IsFree) : R.Runs C c [] g0 (Lowering.copied rep v) fun _ p ↦ p.IsFree :=
  (L.temps _).first fun _ _ _ ht ↦ (L.assigns ht hv).returning ht

lemma stable (hp : p.IsFree) : R.Runs C c [] g0 (Lowering.stable p) fun _ p ↦ p.IsFree := by
  unfold Lowering.stable
  split
  · refine (L.copies (isFree_of_indirect hp)).first fun _ t _ ht ↦ ?_
    exact .pure fun _ _ ↦ ht.load.indirect _
  · exact .pure fun _ _ ↦ hp

/-! ## Expressions by what they have -/

lemma ofValue {type : TypeId} {value : LowerM Operand} (hvalue : R.Runs C c ids g0 value fun _ v ↦ v.IsFree) :
    (Lowered.ofValue type value).Sound R D C c ids g0 where
  value := hvalue
  place := by
    refine .repOf fun rep ↦ hvalue.last fun g v hg hv ↦ .ite (fun _ ↦ ?_) fun _ ↦ L.copies hv
    exact .pure fun _ _ ↦ isFree_placeAt hv
  effect := hvalue.discard
  branch g sense l d hg hat hdirect := by
    refine .repOf fun rep ↦ (hvalue.later hg).last fun g1 v hg1 hv ↦ ?_
    exact L.branches (isOrdinary_test hv) rfl (L.at_mono hg1 hat) hdirect

lemma ofPlace {type : TypeId} (hplace : R.Runs C c ids g0 place fun _ p ↦ p.IsFree) :
    (Lowered.ofPlace type place).Sound R D C c ids g0 := by
  have hvalue : R.Runs C c ids g0 (do Lowering.contents (← repOf type) (← place)) fun _ v ↦ v.IsFree :=
    .repOf fun rep ↦ hplace.last fun _ p _ hp ↦ L.contents hp
  exact { L.ofValue hvalue with place := hplace }

lemma ofConstant {type : TypeId} (hv : v.IsFree) : (Lowered.ofConstant type v truth).Sound R D C c [] g0 :=
  { L.ofValue (.pure fun _ _ ↦ hv) with
    effect := .pure fun _ _ ↦ trivial
    branch := fun _ _ _ _ _ hat hdirect ↦ .ite (fun _ ↦ L.jumps hat hdirect) fun _ ↦ .pure fun _ _ ↦ trivial }

lemma ofBranch {type : TypeId} {branch : Bool → Label → LowerM Unit}
    (hbranch : ∀ g sense l d, g0 ≤ g → R.At g d l → D.direct c d →
      R.Runs C c ids g (branch sense l) fun _ _ ↦ True) : (Lowered.ofBranch type branch).Sound R D C c ids g0 := by
  have hvalue : R.Runs C c ids g0 (Lowered.ofBranch type branch).value fun _ v ↦ v.IsFree := by
    refine (L.temps _).first fun g1 t hg1 ht ↦ ?_
    refine (L.labels c).first fun g2 done hg2 hdone ↦ ?_
    refine (L.assigns ht (Operand.isFree_imm _)).first fun g3 _ hg3 _ ↦ ?_
    have hat := L.at_mono hg3 hdone
    refine (hbranch g3 true done c (le_trans hg1 (le_trans hg2 hg3)) hat (D.direct_refl c)).last fun g4 _ hg4 _ ↦ ?_
    refine (L.assigns ht (Operand.isFree_imm _)).first fun g5 _ hg5 _ ↦ ?_
    exact (L.marks (L.at_mono (le_trans hg4 hg5) hat) (D.here_refl c)).returning ht
  exact { L.ofValue hvalue with branch := hbranch }

lemma assignTo {e : Lowered} (he : e.Sound R D C c ids g0) (hdst : dst.IsFree) :
    R.Runs C c ids g0 (e.assignTo dst) fun _ _ ↦ True :=
  .repOf fun rep ↦ he.value.last fun _ v _ hv ↦ L.assigns hdst hv

/-! ## Operators -/

lemma compareZero {zero : Operand} (hlhs : lhs.IsFree) (hzero : zero.IsFree) (hat : R.At g0 d l)
    (hdirect : D.direct c d) : R.Runs C c [] g0 (Lowering.compareZero cond rep lhs zero l) fun _ _ ↦ True := by
  have hjump : (Prim.jump l).IsOrdinary := ⟨rfl, by simp [operands], by simp [Prim.dst]⟩
  unfold Lowering.compareZero
  split
  case h_5 => exact .pure fun _ _ ↦ trivial
  case h_6 => exact L.branches hjump rfl hat hdirect
  case h_7 => exact L.branches (isOrdinary_compare hlhs hzero) rfl hat hdirect
  all_goals exact L.branches (isOrdinary_test hlhs) rfl hat hdirect

lemma compare (hlhs : lhs.IsFree) (hrhs : rhs.IsFree) (hat : R.At g0 d l) (hdirect : D.direct c d) :
    R.Runs C c [] g0 (compare cond rep lhs rhs l) fun _ _ ↦ True := by
  unfold Lowering.compare
  split
  · exact L.compareZero hlhs hrhs hat hdirect
  · exact L.compareZero hrhs hlhs hat hdirect
  · exact L.branches (isOrdinary_compare hlhs hrhs) rfl hat hdirect

variable {e l1 r1 e1 e2 e3 : Lowered} {type : TypeId} {step : Int}

lemma choose (hcond : e.Sound R D C c ids1 g0)
    (hyes : R.Runs C c ids2 g0 yes fun _ _ ↦ True) (hno : R.Runs C c ids3 g0 no fun _ _ ↦ True) :
    R.Runs C c (ids1 ++ (ids2 ++ ids3)) g0 (choose e yes no) fun _ _ ↦ True := by
  refine (L.labels c).first fun g1 other hg1 hother ↦ ?_
  refine (L.labels c).first fun g2 _ hg2 hdone ↦ ?_
  have h2 := le_trans hg1 hg2
  refine (hcond.branch g2 false other c h2 (L.at_mono hg2 hother) (D.direct_refl c)).both fun g3 _ hg3 _ ↦ ?_
  refine (hyes.later (le_trans h2 hg3)).both fun g4 _ hg4 _ ↦ ?_
  have hdone4 := L.at_mono (le_trans hg3 hg4) hdone
  refine (L.jumps hdone4 (D.direct_refl c)).first fun g5 _ hg5 _ ↦ ?_
  have h25 := le_trans hg3 (le_trans hg4 hg5)
  refine (L.marks (L.at_mono (le_trans hg2 h25) hother) (D.here_refl c)).first fun g6 _ hg6 _ ↦ ?_
  refine (hno.later (le_trans h2 (le_trans h25 hg6))).last fun g7 _ hg7 _ ↦ ?_
  exact L.marks (L.at_mono (le_trans hg5 (le_trans hg6 hg7)) hdone4) (D.here_refl c)

lemma conditional (hcond : e1.Sound R D C c ids1 g0) (hyes : e2.Sound R D C c ids2 g0)
    (hno : e3.Sound R D C c ids3 g0) : (conditional type e1 e2 e3).Sound R D C c (ids1 ++ (ids2 ++ ids3)) g0 := by
  have heffect := L.choose hcond hyes.effect hno.effect
  refine { L.ofValue (.read (.ite (fun _ ↦ ?_) fun _ ↦ .repOf fun rep ↦ ?_)) with effect := heffect }
  · exact heffect.returning (isFree_imm _)
  · refine (L.temps rep).first fun g1 t hg1 ht ↦ ?_
    refine ((L.choose hcond (L.assignTo hyes ht) (L.assignTo hno ht)).later hg1).last fun _ _ _ _ ↦ ?_
    exact L.contents ht

lemma converts (hv : v.IsFree) : R.Runs C c [] g0 (convert v source target) fun _ v ↦ v.IsFree := by
  unfold convert
  split
  · exact .pure fun _ _ ↦ isFree_convertConstant ‹_›
  · refine .ite (fun _ ↦ .pure fun _ _ ↦ hv) fun _ ↦ ?_
    refine (L.temps _).first fun _ t _ ht ↦ ?_
    exact (L.writes (isOrdinary_cast ht hv) rfl).returning ht

section

variable (he : e.Sound R D C c ids g0)

include he

lemma logicalNot : (logicalNot type e).Sound R D C c ids g0 :=
  L.ofBranch fun g sense l d hg hat hdirect ↦ he.branch g (!sense) l d hg hat hdirect

lemma negation {op : PrimUnary} : (negation type op e).Sound R D C c ids g0 := by
  refine L.ofValue (he.value.last fun g v hg hv ↦ .repOf fun rep ↦ (L.temps rep).first fun _ t _ ht ↦ ?_)
  exact (L.writes (isOrdinary_unary ht hv) rfl).returning ht

lemma stepped : R.Runs C c ids g0 (stepped before increment e step) fun _ v ↦ v.IsFree := by
  refine .repOf fun rep ↦ he.place.last fun _ p _ hp ↦ ?_
  refine (L.stable hp).first fun _ dst _ hdst ↦ ?_
  have hstep := isFree_stepOperand rep step
  refine .ite (fun _ ↦ ?_) fun _ ↦ ?_
  · exact (L.computes hdst hdst.load hstep).returning hdst
  · refine (L.copies hdst.load).first fun _ old _ hold ↦ ?_
    exact (L.computes hdst hold.load hstep).returning hold

lemma incDec : (Lowering.incDec type before increment e step).Sound R D C c ids g0 :=
  { L.ofValue (L.stepped he) with effect := (L.stepped he).discard }

lemma cast : (Lowering.cast type e).Sound R D C c ids g0 := by
  refine { L.ofValue (.read (.ite (fun _ ↦ ?_) fun _ ↦ ?_)) with effect := he.effect }
  · exact he.effect.returning (isFree_imm _)
  · exact .repOf fun _ ↦ .repOf fun _ ↦ he.value.last fun _ _ _ hv ↦ L.converts hv

end

section

variable (h1 : e1.Sound R D C c ids1 g0) (h2 : e2.Sound R D C c ids2 g0)

include h1 h2

lemma comparison : (comparison type cond e1 e2).Sound R D C c (ids1 ++ ids2) g0 := by
  refine L.ofBranch fun g _ l d hg hat hdirect ↦ .repOf fun rep ↦ ?_
  refine (h1.value.later hg).both fun g1 lhs hg1 hlhs ↦ ?_
  refine (h2.value.later (le_trans hg hg1)).last fun g2 rhs hg2 hrhs ↦ ?_
  exact L.compare hlhs hrhs (L.at_mono (le_trans hg1 hg2) hat) hdirect

lemma logical {conjunction : Bool} : (Lowering.logical type conjunction e1 e2).Sound R D C c (ids1 ++ ids2) g0 := by
  have hbranch : ∀ g sense l d, g0 ≤ g → R.At g d l → D.direct c d →
      R.Runs C c (ids1 ++ ids2) g ((Lowering.logical type conjunction e1 e2).branch sense l) fun _ _ ↦ True := by
    intro g sense l d hg hat hdirect
    refine .ite (fun _ ↦ ?_) fun _ ↦ ?_
    · refine (L.labels c).first fun g1 skip hg1 hskip ↦ ?_
      have hle := le_trans hg hg1
      refine (h1.branch g1 (!sense) skip c hle hskip (D.direct_refl c)).both fun g2 _ hg2 _ ↦ ?_
      have hat2 := L.at_mono (le_trans hg1 hg2) hat
      refine (h2.branch g2 sense l d (le_trans hle hg2) hat2 hdirect).last fun g3 _ hg3 _ ↦ ?_
      exact L.marks (L.at_mono (le_trans hg2 hg3) hskip) (D.here_refl c)
    · refine (h1.branch g sense l d hg hat hdirect).both fun g1 _ hg1 _ ↦ ?_
      exact h2.branch g1 sense l d (le_trans hg hg1) (L.at_mono hg1 hat) hdirect
  have heffect : R.Runs C c (ids1 ++ ids2) g0 (Lowering.logical type conjunction e1 e2).effect fun _ _ ↦ True := by
    refine (L.labels c).first fun g1 skip hg1 hskip ↦ ?_
    refine (h1.branch g1 (!conjunction) skip c hg1 hskip (D.direct_refl c)).both fun g2 _ hg2 _ ↦ ?_
    refine (h2.effect.later (le_trans hg1 hg2)).last fun g3 _ hg3 _ ↦ ?_
    exact L.marks (L.at_mono (le_trans hg2 hg3) hskip) (D.here_refl c)
  have hsound : (Lowered.ofBranch type (Lowering.logical type conjunction e1 e2).branch).Sound R D C c
      (ids1 ++ ids2) g0 := L.ofBranch hbranch
  exact ⟨hsound.value, hsound.place, heffect, hbranch⟩

lemma arithmetic : (Lowering.arithmetic type op e1 e2).Sound R D C c (ids1 ++ ids2) g0 := by
  refine L.ofValue (h1.value.both fun g1 lhs hg1 hlhs ↦ (h2.value.later hg1).last fun g2 rhs hg2 hrhs ↦ ?_)
  refine .repOf fun rep ↦ (L.temps rep).first fun _ t _ ht ↦ ?_
  exact (L.computes ht hlhs hrhs).returning ht

lemma comma : (Lowering.comma type e1 e2).Sound R D C c (ids1 ++ ids2) g0 :=
  { L.ofValue (h1.effect.both fun _ _ hg _ ↦ h2.value.later hg) with
    effect := h1.effect.both fun _ _ hg _ ↦ h2.effect.later hg
    branch := fun _ sense l d hg hat hdirect ↦ (h1.effect.later hg).both fun g1 _ hg1 _ ↦
      h2.branch g1 sense l d (le_trans hg hg1) (L.at_mono hg1 hat) hdirect }

lemma assignment : (Lowering.assignment type e1 e2).Sound R D C c (ids1 ++ ids2) g0 := by
  refine L.ofValue (.repOf fun rep ↦ h1.place.both fun g1 p hg1 hp ↦ ?_)
  refine (L.stable hp).first fun g2 dst hg2 hdst ↦ ?_
  refine (h2.value.later (le_trans hg1 hg2)).last fun g3 v hg3 hv ↦ ?_
  exact (L.assigns hdst hv).first fun _ _ _ _ ↦ L.contents hdst

lemma compound {opType : TypeId} : (Lowering.compound type op e1 e2 opType).Sound R D C c (ids1 ++ ids2) g0 := by
  refine L.ofValue (.repOf fun rep ↦ .repOf fun opRep ↦ h1.place.both fun g1 p hg1 hp ↦ ?_)
  refine (L.stable hp).first fun g2 dst hg2 hdst ↦ ?_
  refine (h2.value.later (le_trans hg1 hg2)).last fun g3 rhs hg3 hrhs ↦ ?_
  refine .iteProp (fun _ ↦ ?_) fun _ ↦ ?_
  · exact (L.computes hdst hdst.load hrhs).returning hdst
  · refine (L.converts hdst.load).first fun _ lhs _ hlhs ↦ ?_
    refine (L.temps opRep).first fun _ t _ ht ↦ ?_
    refine (L.computes ht hlhs hrhs).first fun _ _ _ _ ↦ ?_
    exact (L.writes (isOrdinary_cast hdst ht.load) rfl).returning hdst

end

lemma adjusts (hv : v.IsFree) : R.Runs C c [] g0 (Lowering.adjusted v offset nullCheck) fun _ v ↦ v.IsFree := by
  refine .iteProp (fun _ ↦ .pure fun _ _ ↦ hv) fun _ ↦ ?_
  split
  · exact .pure fun _ _ ↦ Operand.isFree_address _ _
  · refine (L.temps _).first fun _ t _ ht ↦ .ite (fun _ ↦ ?_) fun _ ↦ ?_
    · refine (L.labels c).first fun g _ _ hskip ↦ ?_
      refine (L.assigns ht hv).first fun g1 _ hg1 _ ↦ ?_
      have hskip1 := L.at_mono hg1 hskip
      refine (L.branches (isOrdinary_test ht.load) rfl hskip1 (D.direct_refl c)).first fun g2 _ hg2 _ ↦ ?_
      refine (L.computes ht ht.load (Operand.isFree_imm _)).first fun g3 _ hg3 _ ↦ ?_
      exact (L.marks (L.at_mono (le_trans hg2 hg3) hskip1) (D.here_refl c)).returning ht
    · exact (L.computes ht hv (Operand.isFree_imm _)).returning ht

/-! ## Calls -/

lemma storesArgs {word n : Nat}
    (hwords : word + total (values.map (·.2.words)) ≤ n) (hvalues : ∀ v ∈ values, v.1.IsFree) :
    R.Yields C g (R.reserved c n) todo (Lowering.storeArgs word values) (R.reserved c n) todo fun _ _ ↦ True := by
  induction values generalizing word g with
  | nil => exact .pure trivial
  | cons value values ih =>
    obtain ⟨v, rep⟩ := value
    have hsum : word + rep.words + total (values.map (·.2.words)) ≤ n := by
      rw [map_cons, total, foldr_cons, ← Nat.add_assoc] at hwords
      exact hwords
    have hv : v.IsFree := hvalues (v, rep) mem_cons_self
    refine (L.argument (by omega) hv).bind fun g1 _ _ _ ↦ ?_
    exact ih hsum fun w hw ↦ hvalues w (mem_cons_of_mem _ hw)

lemma callsWithPointer {label : String} (hv : v.IsFree) :
    R.Runs C c [] g0 (callWithPointer label v) fun _ _ ↦ True := by
  intro g _ _
  refine (L.callStart 1).bind fun g1 _ _ _ ↦ ?_
  refine (L.argument (Nat.le_refl 1) hv).bind fun g2 _ _ _ ↦ L.call ⟨?_, ?_⟩
  · simp [operands]
  · simp [Prim.dst]

section

variable {callee : LoweredCallee} {args : List Lowered} (hargs : Pieces (fun ids e ↦ e.Sound R D C c ids g0) ids1 args)
  (hcallee : R.Runs C c ids2 g0 callee fun _ t ↦
    (∀ pointer, t.1 = .indirect pointer → pointer.IsFree) ∧ ∀ this, t.2 = some this → this.IsFree)

include hargs hcallee

lemma called :
    R.Runs C c (ids1 ++ ids2) g0 (Lowering.called type callee args) fun _ v ↦ ∀ w, v = some w → w.IsFree := by
  have hvalues : R.Runs C c ids1 g0 (args.mapM fun a ↦ do
      let rep ← a.rep
      return (← a.value, rep)) fun _ vs ↦ ∀ v ∈ vs, v.1.IsFree := by
    refine (hargs.mono fun ids e he ↦ ?_).mapM
    exact .repOf fun rep ↦ he.value.last fun _ v _ hv ↦ .pure fun _ _ ↦ hv
  refine hvalues.both fun g1 values hg1 hfree ↦ (hcallee.later hg1).last fun g2 ⟨target, this⟩ _ ⟨htarget, hthis⟩ ↦ ?_
  refine .read (.repOf fun rep ↦ ?_)
  have hall : ∀ v ∈ (this.map fun v ↦ (v, pointerRep)).toList ++ values, v.1.IsFree := by
    intro v hv
    rcases mem_append.mp hv with hv | hv
    · rw [Option.mem_toList, Option.map_eq_some_iff] at hv
      obtain ⟨w, hw, rfl⟩ := hv
      exact hthis w hw
    · exact hfree v hv
  have hcall : ∀ n result, (∀ d rep, result = some (d, rep) → d.IsFree) →
      (Prim.call target n result).Touches fun _ ↦ False := by
    intro n _ hresult
    constructor
    · intro op hop i
      cases target with
      | direct label => exact (List.not_mem_nil hop).elim
      | indirect pointer =>
        rw [mem_singleton.mp hop]
        exact htarget pointer rfl i
    · intro d hd i
      obtain ⟨⟨d', rep⟩, hresult', rfl⟩ := Option.map_eq_some_iff.mp hd
      exact hresult d' rep hresult' i
  intro g left hg
  refine .ite (fun _ ↦ ?_) fun _ ↦ .ite (fun _ ↦ ?_) fun _ ↦ ?_
  · refine (L.callStart _).bind fun _ _ _ _ ↦ (L.storesArgs (by omega) hall).bind fun _ _ _ _ ↦ ?_
    refine (L.call (hcall _ none fun _ _ h ↦ by cases h)).bind fun _ _ _ _ ↦ .pure fun w hw ↦ by cases hw
  · refine (L.slot _ _).bind fun _ slot _ _ ↦ (L.callStart _).bind fun _ _ _ _ ↦ ?_
    refine (L.storesArgs ?_ ?_).bind fun _ _ _ _ ↦ ?_
    · rw [map_cons, total, foldr_cons, Nat.zero_add]
      exact le_of_eq (Nat.add_comm 1 _)
    · intro v hv
      rcases mem_cons.mp hv with rfl | hv
      · exact isFree_address _ _
      · exact hall v hv
    · refine (L.call (hcall _ none fun _ _ h ↦ by cases h)).bind fun g5 _ _ _ ↦ ?_
      refine (L.contents (isFree_slot slot 0) g5 left (le_refl g5)).bind fun _ v _ hv ↦ .pure ?_
      intro w hw
      cases hw
      exact hv
  · refine (L.callStart _).bind fun _ _ _ _ ↦ (L.storesArgs (by omega) hall).bind fun _ _ _ _ ↦ ?_
    refine Regime.Yields.bind ((L.slot _ _).bind fun _ slot _ _ ↦ .pure (isFree_slot slot 0)) fun _ t _ ht ↦ ?_
    refine (L.call (hcall _ _ fun d rep h ↦ ?_)).bind fun _ _ _ _ ↦ .pure fun w hw ↦ ?_
    · cases h
      exact ht
    · cases hw
      exact ht

lemma calling : (Lowering.call type callee args).Sound R D C c (ids1 ++ ids2) g0 := by
  refine L.ofValue ((L.called hargs hcallee).last fun _ v _ hv ↦ .pure fun _ _ ↦ ?_)
  cases v with
  | none => exact isFree_imm 0
  | some w => exact hv w rfl

end

lemma virtualCallee {slot : Nat} (he : e.Sound R D C c ids g0) : R.Runs C c ids g0 (virtualCallee e slot) fun _ t ↦
      (∀ pointer, t.1 = .indirect pointer → pointer.IsFree) ∧ ∀ this, t.2 = some this → this.IsFree := by
  refine he.value.last fun _ v _ hv ↦ (L.copies hv).first fun _ p _ hp ↦ .pure fun _ _ ↦ ⟨?_, ?_⟩
  · intro _ h
    cases h
    exact (hp.load.indirect 0).load.indirect slot
  · intro _ h
    cases h
    exact hp

end Regime.Lawful

end Lowering

end W16Compiler
