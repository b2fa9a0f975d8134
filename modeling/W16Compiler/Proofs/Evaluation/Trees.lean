import W16Compiler.Proofs.Evaluation.Calls

/-!
# Code for expressions

By induction on the tree, the code of a plain expression follows its evaluation.
-/

namespace W16Compiler

open Lowering Expr Meaning Int Rep

variable {V : Type} {I : Interpretation V}

/-! ## Types -/

lemma Expr.lowered_type (e : Expr) : e.lowered.type = e.type := by
  cases e with
  | unary i op e => cases op <;> rfl
  | binary i op l r =>
    rw [lowered]
    split <;> rfl
  | _ => rfl

lemma Rep.isBlock_of_isWord {rep : Rep} (h : rep.isWord = true) : rep.isBlock = false := by
  cases rep <;> first | rfl | exact Bool.noConfusion h

lemma Expr.Plain.isScalar {e : Expr} (h : e.Plain I) : I.IsScalar e.type := by
  match e, h with
  | .int i value, h | .float i x, h | .symbol i label, h | .var i decl, h | .deref i e, h | .call i callee args, h
  | .member i e offset, h | .cast i e, h | .conditional i cond yes no, h => exact h.1
  | .unary i .logNot e, h | .logical i conjunction l r, h => exact (congrArg isBlock h.1).trans rfl
  | .unary i .neg e, h | .unary i .bitNot e, h => exact h.1
  | .addressOf i e, h | .adjust i e offset nullCheck, h => exact isBlock_of_isWord h.1
  | .incDec i before increment e step, h => exact (congrArg isBlock h.2.1).trans h.1
  | .binary i op l r, h =>
    have hop := h.1
    split at hop
    · exact (congrArg isBlock hop.1).trans rfl
    · exact hop.1
  | .assign i l r, h => exact (congrArg isBlock h.1.symm).trans (Plain.isScalar h.2.2)
  | .compound i op l r opType, h => exact (congrArg isBlock h.1).trans h.2.1
  | .comma i first second, h => exact (congrArg isBlock h.1.symm).trans (Plain.isScalar h.2.2)

lemma isComparison_eq (op : BinaryOp) : op.isComparison = (Cond.ofOp? op).isSome := by
  cases op <;> rfl

/-! ## Forms of operands -/

def Expr.Form (I : Interpretation V) (e : Expr) : Operand → Prop
  | .load _ => True
  | .address _ offset => e.isAddress = true ∧ offset.natAbs ≤ e.reach I
  | v => e.number? I = some v

def Expr.PlaceForm (I : Interpretation V) (e : Expr) : Place → Prop
  | .indirect (.load _) offset => 0 ≤ offset
  | .indirect (.address ..) _ => False
  | .indirect v offset => 0 ≤ offset ∧ (offset = 0 → e.pointed? I = some v)
  | _ => True

section

variable {e : Expr} {v : Operand}

lemma Expr.form_iff_number (hload : ∀ p, v ≠ .load p) (haddress : ∀ base offset, v ≠ .address base offset) :
    e.Form I v ↔ e.number? I = some v := by
  cases v with
  | load p => exact absurd rfl (hload p)
  | address base offset => exact absurd rfl (haddress base offset)
  | imm value | float x => exact .rfl

end

def Expr.meaning (I : Interpretation V) (e : Expr) : Meaning V where
  rep := I.rep e.type
  value := e.eval I
  steady := e.Steady I
  sources := e.sources I
  form := e.Form I

def Expr.designation (I : Interpretation V) (e : Expr) : Designation V where
  locus := e.locus I
  steady := e.LocusSteady I
  anchors := e.anchors I
  reach := e.reach I
  form := e.PlaceForm I

section

variable (hI : I.Lawful) {C : Context} (hC : C.types = I.types) (hS : C.symbols = I.symbols)

include hS in
lemma Expr.located_var (i : ExprInfo) (hdecl : I.Stored decl) :
    ((var i decl).designation I).Located I C (var i decl).lowered.place := by
  refine located_variable hS hdecl fun p hp ↦ ?_
  cases p with
  | indirect v offset => exact absurd rfl (hp v offset)
  | slot s offset | param offset | global label offset | arg word => trivial

variable {e : Expr}

lemma Expr.located_deref (i : ExprInfo) (he : (e.meaning I).Computed I C e.lowered)
    (hword : (I.rep e.type).isWord = true) : ((deref i e).designation I).Located I C (deref i e).lowered.place := by
  refine W16Compiler.located_deref he.value hword (fun base offset h ↦ h.2) fun v hv ↦ ?_
  cases v with
  | load p => exact le_refl 0
  | address base offset => cases base <;> trivial
  | imm value | float x => exact ⟨le_refl 0, fun _ ↦ hv⟩

lemma Expr.located_member (i : ExprInfo) (he : (e.designation I).Located I C e.lowered.place)
    (hreach : e.reach I + offset < 2 ^ 15) :
    ((member i e offset).designation I).Located I C (member i e offset).lowered.place := by
  refine W16Compiler.located_member he hreach fun p hp hextent ↦ ?_
  cases p with
  | slot s k | param k | global label k | arg word => trivial
  | indirect v k =>
    have hextent : k.natAbs ≤ e.reach I := hextent
    have hwrap : wrap32 (k + offset) = k + offset := wrap32_of_natAbs_lt (by omega)
    simp only [Place.shift, hwrap]
    cases v with
    | load q =>
      have hk : 0 ≤ k := hp
      exact add_nonneg hk (natCast_nonneg _)
    | address base o => exact hp
    | imm value | float x =>
      obtain ⟨hk, hpointed⟩ := hp
      refine ⟨add_nonneg hk (natCast_nonneg _), fun _ ↦ ?_⟩
      have hoffset : offset = 0 := by omega
      rw [pointed?, if_pos hoffset]
      exact hpointed (by omega)

include hI hC in
lemma Expr.computed_of_located (hp : (e.designation I).Located I C place)
    (hscalar : I.IsScalar e.type) (hvalue : (do I.load (← e.locus I)) = e.eval I)
    (hsteady : ∀ S, e.Steady I S → e.LocusSteady I S)
    (hsources : ∀ S c, e.anchors I S c ∨ (∃ L S', e.locus I S = .ok L S' ∧
      L.Covers I.toModel (I.rep e.type).words c) → e.sources I S c) :
    (e.meaning I).Computed I C (Lowered.ofPlace e.type place) := by
  have h : Computed ⟨I.rep e.type, _, _, e.sources I, e.Form I⟩ I C (Lowered.ofPlace e.type place) :=
    hp.computed hI hC hscalar hsources fun _ ↦ trivial
  exact h.mono rfl hvalue hsteady (fun _ _ hc ↦ hc) fun _ hv ↦ hv

include hI hC hS

set_option linter.unusedSectionVars false in
mutual

theorem Expr.computed (e : Expr) (h : e.Plain I) : (e.meaning I).Computed I C e.lowered := by
  match e, h with
  | .int i value, h => exact .ofConstant (v := .imm value) nofun nofun h.2 rfl
  | .float i x, h => exact .ofConstant (v := .float x) nofun nofun h.2 rfl
  | .symbol i label, h =>
    have hconstant : ((symbol i label).meaning I).Computed I C
        (Lowered.ofConstant i.type (.address (.global label) 0) true) :=
      .ofConstant (v := .address (.global label) 0) nofun nofun h.2 ⟨rfl, Nat.zero_le _⟩
    exact ⟨hconstant.value, hconstant.effect, hconstant.branch⟩
  | .var i decl, h =>
    have hvalue : ((var i decl).meaning I).Computed I C (Lowered.ofPlace i.type (variablePlace decl)) := by
      refine computed_of_located hI hC (located_var hS i h.2) h.1 rfl (fun _ _ ↦ trivial) fun S c hc ↦ ?_
      obtain ⟨L, S', hL, hcovers⟩ := hc.resolve_left id
      cases hL
      exact hcovers
    refine ⟨hvalue.value, fun s ↦ .pure fun _ hr S st hagrees _ ↦ ?_, hvalue.branch⟩
    exact ⟨st, rfl, hagrees, KeepsTemps.refl _ _ _, hr⟩
  | .unary i .logNot e, h => exact .logicalNot hC hI (e.computed h.2) h.1 fun _ ↦ trivial
  | .unary i .neg e, h | .unary i .bitNot e, h => exact .negation hC (e.computed h.2.2) h.2.1 fun _ ↦ trivial
  | .deref i e, h =>
    refine Expr.computed_of_located hI hC (Expr.located_deref i (e.computed h.2.2) h.2.1) h.1 ?_
      (fun _ hsteady ↦ hsteady) fun S c hc ↦ hc.imp_right fun ⟨L, S', hL, hcovers⟩ ↦ ?_
    · simp [locus, eval]
    · obtain ⟨x, hx, rfl⟩ := eval_map_eq_ok hL
      exact ⟨x, S', hx, hcovers⟩
  | .member i e offset, h =>
    refine Expr.computed_of_located hI hC (Expr.located_member i (e.located h.2.1) h.2.2) h.1 ?_
      (fun _ hsteady ↦ hsteady) fun S c hc ↦ hc.imp_right fun ⟨L, S', hL, hcovers⟩ ↦ ?_
    · simp [locus, eval]
    · obtain ⟨L', hL', rfl⟩ := eval_map_eq_ok hL
      exact ⟨L', S', hL', hcovers⟩
  | .addressOf i e, h =>
    refine Designation.Located.addressed hI hC (e.located h.2.1) h.1 h.2.2
      (fun base offset hreach ↦ ⟨rfl, hreach⟩) (fun v hv ↦ ?_) fun _ ↦ trivial
    cases v with
    | load p => exact ⟨trivial, nofun⟩
    | address base offset => exact hv.elim
    | imm value | float x => exact ⟨hv.2 rfl, nofun⟩
  | .incDec i before increment e step, h =>
    exact .incDec hI hC (e.located h.2.2) (congrArg I.rep e.lowered_type.symm) h.1 h.2.1
      (fun S c L S' hbefore hL hcovers ↦ ⟨hbefore, L, S', hL, hcovers⟩) fun _ ↦ trivial
  | .binary i op l r, h =>
    obtain ⟨hop, hl, hr⟩ := h
    rw [lowered]
    cases hcond : Cond.ofOp? op with
    | some cond =>
      rw [if_pos (isComparison_eq op ▸ hcond ▸ rfl)] at hop
      have hvalue : Computed ⟨I.rep i.type, _, _, (binary i op l r).sources I,
          (binary i op l r).Form I⟩ I C (comparison i.type cond l.lowered r.lowered) :=
        .comparison hC hI (l.computed hl) (r.computed hr) (congrArg I.rep l.lowered_type.symm) hop.2
          hl.isScalar hop.1 fun _ ↦ trivial
      refine hvalue.mono rfl ?_ (fun _ hS ↦ hS) (fun _ _ hc ↦ hc) fun _ hv ↦ hv
      simp [meaning, eval, hcond]
    | none =>
      rw [if_neg (isComparison_eq op ▸ hcond ▸ Bool.noConfusion)] at hop
      have hvalue : Computed ⟨I.rep i.type, _, _, (binary i op l r).sources I,
          (binary i op l r).Form I⟩ I C (arithmetic i.type op l.lowered r.lowered) :=
        .arithmetic hC (l.computed hl) (r.computed hr) hop.2.1 hop.2.2 fun _ ↦ trivial
      refine hvalue.mono rfl ?_ (fun _ hS ↦ hS) (fun _ _ hc ↦ hc) fun _ hv ↦ hv
      simp [meaning, eval, hcond]
  | .logical i conjunction l r, h =>
    have hvalue : Computed ⟨I.rep i.type, _, _, (logical i conjunction l r).sources I,
        (logical i conjunction l r).Form I⟩ I C (logical i.type conjunction l.lowered r.lowered) :=
      .logical hC hI (l.computed h.2.1) (r.computed h.2.2) h.1 fun _ ↦ trivial
    refine hvalue.mono rfl ?_ (fun S hS ↦ ⟨hS.1, fun b S1 hb htruth ↦ ?_⟩) (fun _ _ hc ↦ hc) fun _ hv ↦ hv
    · simp only [meaning, eval, Eval.logical, truth, bind_assoc, pure_bind]
      refine congrArg (l.eval I >>= ·) (funext fun x ↦ ?_)
      split <;> simp
    · obtain ⟨x, hx, rfl⟩ := eval_map_eq_ok hb
      exact hS.2 x S1 hx htruth
  | .assign i l r, h =>
    refine .assignment hI hC (l.located h.2.1) (r.computed h.2.2) ?_ h.1
      (fun S c L S' hL hcovers ↦ ⟨L, S', hL, hcovers⟩) fun _ ↦ trivial
    exact (congrArg isBlock h.1.symm).trans h.2.2.isScalar
  | .compound i op l r opType, h =>
    exact .compound hI hC (l.located h.2.2.2.2.1) (r.computed h.2.2.2.2.2)
      (congrArg I.rep l.lowered_type.symm) h.2.2.1 h.1 h.2.2.2.1 (fun S c L S' hL hcovers ↦ ⟨L, S', hL, hcovers⟩)
      fun _ ↦ trivial
  | .call i callee args, h =>
    exact .call hI hC (Expr.givenAll args h.2.2.2) (callee.found h.2.2.1) h.2.1 (fun _ ↦ trivial)
      fun hvoid ↦ if_pos hvoid
  | .cast i e, h =>
    refine .cast hI hC (e.computed h.2.1) (congrArg I.rep e.lowered_type.symm) h.1 (fun hvoid ↦ if_pos hvoid)
      (fun _ ↦ trivial) (fun hvoid v c hv hc ↦ ?_) (fun hvoid v hv hnone _ ↦ ?_) fun S c v hsame hc ↦ ⟨⟨v, hsame⟩, hc⟩
    · obtain ⟨hload, haddress, hload', haddress'⟩ := convertConstant_eq_some hc
      have hnumber : e.number? I = some v := (Expr.form_iff_number hload haddress).mp hv
      refine ⟨(Expr.form_iff_number hload' haddress').mpr ?_, h.2.2 hvoid v c hnumber hc⟩
      have hvoid : I.types.isVoid i.type = false := hvoid
      rw [number?, hvoid, if_neg Bool.noConfusion, hnumber]
      exact hc
    · rcases convertConstant_eq_none h.1 hnone with ⟨base, offset, rfl⟩ | ⟨p, rfl⟩
      · exact hv
      · trivial
  | .adjust i e offset nullCheck, h =>
    refine .adjusted hI hC (e.computed h.2.2.1) h.2.1 h.1 h.2.2.2 (fun base k hk ↦ hk)
      (fun S c hzero hc ↦ ⟨hzero, hc⟩) (fun hzero v hv ↦ ?_) (fun _ base k hk ↦ ⟨hk.1, ?_⟩) fun _ ↦ trivial
    · cases v with
      | load p => trivial
      | address base k => exact ⟨hv.1, le_trans hv.2 (Nat.le_add_right _ _)⟩
      | imm value | float x => exact (if_pos hzero).trans hv
    · exact le_trans (natAbs_add_le k offset) (Nat.add_le_add_right hk.2 _)
  | .conditional i cond yes no, h =>
    have hvalue : Computed ⟨I.rep i.type, _, _, (conditional i cond yes no).sources I,
        (conditional i cond yes no).Form I⟩ I C
        (conditional i.type cond.lowered yes.lowered no.lowered) :=
      .conditional hC (cond.computed h.2.1) (yes.computed h.2.2.1) (no.computed h.2.2.2.1) h.1
        (congrArg I.rep yes.lowered_type.symm) (congrArg I.rep no.lowered_type.symm) h.2.2.2.2 (fun _ ↦ trivial)
        fun hvoid ↦ if_pos hvoid
    refine hvalue.mono rfl ?_ (fun S hS ↦ ⟨hS.1, fun b S1 hb ↦ ?_⟩) (fun _ _ hc ↦ hc) fun _ hv ↦ hv
    · simp only [meaning, eval, truth, bind_assoc, pure_bind]
      refine congrArg (cond.eval I >>= ·) (funext fun x ↦ ?_)
      split <;> rfl
    · obtain ⟨x, hx, rfl⟩ := eval_map_eq_ok hb
      exact hS.2 x S1 hx
  | .comma i first second, h =>
    refine ((first.computed h.2.1).comma (second.computed h.2.2)).mono h.1 rfl
      (fun _ hsteady ↦ hsteady) (fun _ _ hc ↦ hc) fun v hv ↦ ?_
    cases v <;> exact hv

theorem Expr.located (e : Expr) (h : e.Object I) : (e.designation I).Located I C e.lowered.place := by
  match e, h with
  | .var i decl, h => exact located_var hS i h
  | .deref i e, h => exact Expr.located_deref i (e.computed h.2) h.1
  | .member i e offset, h => exact Expr.located_member i (e.located h.1) h.2

theorem Expr.givenAll (args : List Expr) (h : AllPlain I args) :
    ArgumentList.Given ⟨evalAll I args, AllSteady I args, allSources I args⟩ I C (loweredAll args) := by
  match args, h with
  | [], _ => exact ArgumentList.given_nil
  | e :: rest, h =>
    exact .cons hC (e.computed h.1) (congrArg I.rep e.lowered_type.symm) h.1.isScalar (Expr.givenAll rest h.2)

theorem Callee.found (callee : Callee)
    (h : callee.Plain I) : Calling.Found ⟨callee.eval I, callee.Steady I, callee.sources I⟩ I C callee.lowered := by
  match callee, h with
  | .direct label, _ => exact Calling.found_direct label
  | .indirect e, h => exact Calling.found_indirect (e.computed h.2) h.1
  | .virtualSlot e slot, h => exact Calling.found_virtual hI (e.computed h.2) h.1 slot

end

end

end W16Compiler
