import W16Compiler.Proofs.Constant.Integers

/-!
# Folding of integer constant expressions

The folder computes with numbers of sixty-four bits that it wraps to the types of operands and nodes. For
trees of integers it finds the value that the bits have, and it finds none exactly if something is divided
by zero on the way.
-/

namespace W16Compiler

open IntType Bool List

variable {τ σ : IntType} {t : TypeTable} {ty operandType : TypeId} {count : IntTree .int} {e : Expr}

/-! ## Nodes -/

namespace Constant

def ofBits (τ : IntType) (x : τ.Bits) : Constant := int (τ.number x)

lemma truth_ofBits (x : τ.Bits) : (ofBits τ x).truth = IntType.truth x := by
  rw [ofBits, truth, IntType.truth, Bool.eq_iff_iff, bne_iff_ne, bne_iff_ne, ne_eq, number_eq_zero]
  rfl

lemma ofBool_eq (b : Bool) : ofBool b = ofBits .int (IntType.ofBool b) := by cases b <;> decide

lemma unary_neg (h : τ.Is t ty) (x : τ.Bits) : (ofBits τ x).unary t .neg ty = some (ofBits τ (-x)) := by
  rw [ofBits, unary, wrapTo_eq h, number_neg]
  rfl

lemma unary_bitNot (h : τ.Is t ty) (x : τ.Bits) : (ofBits τ x).unary t .bitNot ty = some (ofBits τ (~~~x)) := by
  rw [ofBits, unary, wrapTo_eq h, number_not]
  rfl

lemma unary_logNot (x : τ.Bits) :
    (ofBits τ x).unary t .logNot ty = some (ofBits .int (IntType.ofBool !IntType.truth x)) := by
  rw [unary, truth_ofBits, ofBool_eq]

lemma convert_ofBits (h : σ.Is t ty) (x : τ.Bits) :
    (ofBits τ x).convert t operandType ty = some (ofBits σ (τ.convert σ x)) := by
  have hvoid : t.isVoid ty = false := by rw [TypeTable.isVoid, h]
  have hfloat : t.isFloat ty = false := by rw [TypeTable.isFloat, h]
  simp only [ofBits, convert, hvoid, hfloat, wrapTo_eq h, ofInt_convert, false_eq_true, ↓reduceIte]

lemma binaryInts_of_is (h : τ.Is t operandType) (op : BinaryOp) (a b : Int) : binaryInts t op operandType ty a b =
      let a := τ.number (.ofInt _ a)
      let b := τ.number (.ofInt _ b)
      if op.isComparison then some (ofBool (compareInts op a b))
      else (arithmetic op a b).map fun v ↦ int (wrapTo t ty v) := by
  simp only [binaryInts, h.intInfo, h.isUnsigned, Option.map_some, Option.getD_some, Bool.not_not, wrapBits_eq]

lemma map_wrapTo (h : τ.Is t ty) (v : Option Int) :
    (v.map fun v ↦ int (wrapTo t ty v)) = (v.map (BitVec.ofInt τ.width.bits)).map (ofBits τ) := by
  simp only [wrapTo_eq h, Option.map_map]
  rfl

variable {op : BinaryOp}

lemma binary_arithmetic (hop : op.operatorClass = .arithmetic) (h : τ.Is t ty) (hoperand : τ.Is t operandType)
    (x y : τ.Bits) : (ofBits τ x).binary t op operandType ty (ofBits τ y) =
      if (op = .div || op = .mod) && y == 0 then none else some (ofBits τ (τ.compute op x y)) := by
  have hcomparison : op.isComparison = false := by cases op <;> first | rfl | cases hop
  rw [ofBits, ofBits, binary, binaryInts_of_is hoperand]
  simp only [hcomparison, false_eq_true, ↓reduceIte, ofInt_number, map_wrapTo h, arithmetic_number hop]
  split <;> rfl

lemma binary_shift (hop : op.operatorClass = .shift) (h : τ.Is t ty) (hoperand : τ.Is t operandType) (x : τ.Bits)
    {count : IntType.int.Bits} (hlo : 0 ≤ count.toInt) (hhi : count.toInt < τ.width.bits) :
    (ofBits τ x).binary t op operandType ty (ofBits .int count) = some (ofBits τ (τ.shift op x count.toNat)) := by
  have hcomparison : op.isComparison = false := by cases op <;> first | rfl | cases hop
  obtain ⟨k, hk⟩ := Int.eq_ofNat_of_zero_le hlo
  have hnat : count.toNat = k := by
    have hcount := BitVec.toInt_eq_toNat_cond count
    have hlt := count.isLt
    split at hcount <;> omega
  have hlt : k < τ.width.bits := by omega
  -- The count is small enough for the type of the left operand to leave it alone.
  have hnorm : τ.number (.ofInt _ (k : Int)) = k := by
    refine number_ofInt_of_lt ?_
    have hpow : τ.width.bits ≤ 2 ^ τ.width.bits / 2 := by cases τ.width <;> decide
    omega
  have hcount : IntType.int.number count = k := hk
  rw [ofBits, ofBits, binary, binaryInts_of_is hoperand, hcount]
  simp only [hcomparison, false_eq_true, ↓reduceIte, ofInt_number, hnorm, map_wrapTo h, shift_number hop x hlt,
    Option.map_some, hnat]

lemma binary_comparison (hop : op.operatorClass = .comparison) (hoperand : τ.Is t operandType) (x y : τ.Bits) :
    (ofBits τ x).binary t op operandType ty (ofBits τ y) = some (ofBits .int (IntType.ofBool (τ.holds op x y))) := by
  have hcomparison : op.isComparison = true := by cases op <;> first | rfl | cases hop
  rw [ofBits, ofBits, binary, binaryInts_of_is hoperand]
  simp only [hcomparison, ↓reduceIte, ofInt_number, compareInts_number hop, ofBool_eq]

end Constant

/-! ## Trees -/

namespace IntTree

variable {a l r : IntTree τ} {b c : IntTree σ}

attribute [local simp] dividesByZero shiftsInWidth computed isZeroDivision

variable {op : BinaryOp} {conjunction : Bool} {hop : op.operatorClass = .shift}

lemma dividesByZero_arithmetic {hop : op.operatorClass = .arithmetic} : (arithmetic op hop l r).dividesByZero =
      (((op = .div || op = .mod) && r.value == 0) || (l.dividesByZero || r.dividesByZero)) := by
  simp

lemma dividesByZero_comparison {hop : op.operatorClass = .comparison} :
    (comparison op hop l r).dividesByZero = (false || (l.dividesByZero || r.dividesByZero)) := by
  simp

lemma dividesByZero_shift :
    (shift op hop a count).dividesByZero = (false || (a.dividesByZero || count.dividesByZero)) := by
  simp

lemma dividesByZero_logical : (logical conjunction a b).dividesByZero =
      (a.dividesByZero || (truth a.value == conjunction && b.dividesByZero)) := by
  simp only [dividesByZero, computed, isZeroDivision, any_cons, any_append, Bool.false_or]
  cases conjunction <;> cases truth a.value <;> simp

lemma dividesByZero_conditional : (conditional c l r).dividesByZero =
      (c.dividesByZero || if truth c.value then l.dividesByZero else r.dividesByZero) := by
  simp only [dividesByZero, computed, isZeroDivision, any_cons, any_append, Bool.false_or]
  cases truth c.value <;> rfl

lemma value_logical :
    (logical conjunction a b).value = ofBool (if truth a.value == conjunction then truth b.value else truth a.value) := by
  cases conjunction <;> cases h : truth a.value <;> simp [value, h]

lemma shiftsInWidth_logical : (logical conjunction a b).shiftsInWidth =
      (a.shiftsInWidth && (truth a.value != conjunction || b.shiftsInWidth)) := by
  simp only [shiftsInWidth, computed, isWideShift, all_cons, all_append, Bool.not_false, Bool.true_and]
  cases conjunction <;> cases truth a.value <;> simp

lemma shiftsInWidth_conditional : (conditional c l r).shiftsInWidth =
      (c.shiftsInWidth && if truth c.value then l.shiftsInWidth else r.shiftsInWidth) := by
  simp only [shiftsInWidth, computed, isWideShift, all_cons, all_append, Bool.not_false, Bool.true_and]
  cases truth c.value <;> rfl

lemma shiftsInWidth_shift : (shift op hop a count).shiftsInWidth =
      (!(shift op hop a count).isWideShift && (a.shiftsInWidth && count.shiftsInWidth)) := by
  simp

def constant {τ : IntType} (a : IntTree τ) : Option Constant :=
  if a.dividesByZero then none else some (.ofBits τ a.value)

lemma constant_bind (f : Constant → Option Constant) :
    a.constant.bind f = if a.dividesByZero then none else f (.ofBits τ a.value) := by
  unfold constant
  split <;> rfl

lemma constant_of_one (hzero : b.dividesByZero = a.dividesByZero)
    (hf : f (.ofBits τ a.value) = some (.ofBits σ b.value)) : a.constant.bind f = b.constant := by
  rw [constant_bind, hf, constant, hzero]

lemma constant_of_two {f : Constant → Constant → Option Constant} {b : IntTree σ} {c : IntTree ρ}
    (hzero : c.dividesByZero = (fails || (a.dividesByZero || b.dividesByZero)))
    (hf : f (.ofBits τ a.value) (.ofBits σ b.value) = if fails then none else some (.ofBits ρ c.value)) :
    (a.constant.bind fun x ↦ b.constant.bind fun y ↦ f x y) = c.constant := by
  rw [constant_bind, constant_bind, hf, constant, hzero]
  cases fails <;> cases a.dividesByZero <;> cases b.dividesByZero <;> rfl

end IntTree

lemma Expr.IsTree.type_is {a : IntTree τ} (h : e.IsTree t a) : τ.Is t e.type := by
  cases h <;> assumption

open IntTree in
lemma fold_tree {a : IntTree τ} (h : e.IsTree t a) (hshifts : a.shiftsInWidth) : fold t s e = a.constant := by
  induction h with
  | literal hty =>
    rw [fold, wrapTo_eq hty]
    rfl
  | neg hty he ih =>
    rw [fold, ih hshifts]
    exact constant_of_one rfl (Constant.unary_neg hty _)
  | bitNot hty he ih =>
    rw [fold, ih hshifts]
    exact constant_of_one rfl (Constant.unary_bitNot hty _)
  | logNot hty he ih =>
    rw [fold, ih hshifts]
    exact constant_of_one rfl (Constant.unary_logNot _)
  | cast hty he ih =>
    rw [fold, ih hshifts]
    exact constant_of_one rfl (Constant.convert_ofBits hty _)
  | arithmetic hop hty hl hr ihl ihr =>
    have hparts := and_eq_true_iff.mp (all_append.symm.trans hshifts)
    rw [fold, ihl hparts.1, ihr hparts.2]
    exact constant_of_two dividesByZero_arithmetic (Constant.binary_arithmetic hop hty hl.type_is _ _)
  | comparison hop hty hl hr ihl ihr =>
    have hparts := and_eq_true_iff.mp (all_append.symm.trans hshifts)
    rw [fold, ihl hparts.1, ihr hparts.2]
    exact constant_of_two dividesByZero_comparison (Constant.binary_comparison hop hl.type_is _ _)
  | @shift _ _ op _ _ a count hop hty hl _ ihl ihr =>
    rw [shiftsInWidth_shift, and_eq_true_iff, and_eq_true_iff] at hshifts
    obtain ⟨hwidth, hshiftsl, hshiftsr⟩ := hshifts
    rw [fold, ihl hshiftsl, ihr hshiftsr]
    cases hzero : count.dividesByZero with
    | true =>
      have hnone : count.constant = none := if_pos hzero
      have hroot : (IntTree.shift op hop a count).constant = none := if_pos (by simp [dividesByZero_shift, hzero])
      rw [hnone, hroot]
      cases a.constant <;> rfl
    | false =>
      simp only [isWideShift, hzero, Bool.not_false, Bool.true_and, Bool.not_not, Bool.and_eq_true,
        decide_eq_true_eq] at hwidth
      exact constant_of_two dividesByZero_shift (Constant.binary_shift hop hty hl.type_is _ hwidth.1 hwidth.2)
  | @logical _ _ _ conjunction _ _ a b _ _ _ ihl ihr =>
    rw [shiftsInWidth_logical, Bool.and_eq_true_iff] at hshifts
    rw [fold, ihl hshifts.1]
    change a.constant.bind _ = _
    rw [constant_bind, constant, dividesByZero_logical, Constant.truth_ofBits]
    cases a.dividesByZero with
    | true => rfl
    | false =>
      rw [value_logical]
      cases hpass : truth a.value == conjunction with
      | true =>
        have hshiftsr : b.shiftsInWidth := by simpa [bne, hpass] using hshifts.2
        rw [ihr hshiftsr]
        simp only [bne, hpass, constant]
        cases b.dividesByZero with
        | true => rfl
        | false => exact congrArg some ((Constant.ofBool_eq _).trans (by rw [Constant.truth_ofBits]; rfl))
      | false =>
        simp only [bne, hpass]
        exact congrArg some (Constant.ofBool_eq _)
  | @conditional _ _ _ _ _ _ c a b _ _ _ _ ihc ihyes ihno =>
    rw [shiftsInWidth_conditional, and_eq_true_iff] at hshifts
    rw [fold, ihc hshifts.1]
    change c.constant.bind _ = _
    rw [constant_bind, constant, dividesByZero_conditional, Constant.truth_ofBits]
    cases c.dividesByZero with
    | true => rfl
    | false =>
      cases hcond : truth c.value with
      | true =>
        have hshiftsyes : a.shiftsInWidth := by simpa [hcond] using hshifts.2
        simp [hcond, ihyes hshiftsyes, constant, value]
      | false =>
        have hshiftsno : b.shiftsInWidth := by simpa [hcond] using hshifts.2
        simp [hcond, ihno hshiftsno, constant, value]

/-- Folding of integers is exact: a tree folds to the value of its bits, which is a number of its type, unless
something is divided by zero on the way to the value. -/
theorem fold_exact {s : Symbols} {e : Expr} {a : IntTree τ} (h : e.IsTree t a) (hshifts : a.shiftsInWidth) :
    (fold t s e = none ↔ a.dividesByZero) ∧
      (¬a.dividesByZero → fold t s e = some (.int (τ.number a.value)) ∧
        (if τ.signed then -2 ^ (τ.width.bits - 1) else 0) ≤ τ.number a.value ∧
        τ.number a.value < if τ.signed then 2 ^ (τ.width.bits - 1) else 2 ^ τ.width.bits) := by
  rw [fold_tree h hshifts, IntTree.constant]
  refine ⟨⟨fun hnone ↦ ?_, fun hzero ↦ if_pos hzero⟩, fun hzero ↦ ⟨if_neg hzero, number_range _⟩⟩
  by_contra hzero
  rw [if_neg hzero] at hnone
  cases hnone

namespace IntTree.Example

def wrapping (conjunction : Bool) : IntTree .int :=
  .logical conjunction
    (.comparison .eq rfl
      (.shift .shr rfl (.arithmetic .div rfl (@literal .int (-32768)) (.cast (@literal ⟨.byte, true⟩ 255)))
        (@literal .int 3))
      (@literal .int (-4096)))
    (.arithmetic .mod rfl (@literal .int 1) (@literal .int 0))

def wrappingExpr (conjunction : Bool) : Expr :=
  let i : ExprInfo := ⟨.int, .builtin⟩
  .logical i conjunction
    (.binary i .eq (.binary i .shr (.binary i .div (.int i (-32768)) (.cast i (.int ⟨.char, .builtin⟩ 255))) (.int i 3))
      (.int i (-4096)))
    (.binary i .mod (.int i 1) (.int i 0))

lemma isTree_wrapping (conjunction : Bool) : (wrappingExpr conjunction).IsTree .initial (wrapping conjunction) :=
  have hint : IntType.int.Is .initial .int := rfl
  have hchar : IntType.Is ⟨.byte, true⟩ .initial .char := rfl
  .logical hint (.comparison rfl hint
      (.shift rfl hint (.arithmetic rfl hint (.literal hint) (.cast hint (.literal hchar))) (.literal hint))
      (.literal hint))
    (.arithmetic rfl hint (.literal hint) (.literal hint))

end IntTree.Example

open IntTree.Example in
/-- The disjunction is decided before it comes to the remainder, the conjunction is not. -/
theorem fold_exact_wrapping :
    fold .initial {} (wrappingExpr false) = some (.int 1) ∧ fold .initial {} (wrappingExpr true) = none :=
  ⟨((fold_exact (isTree_wrapping false) (by decide)).2 (by decide)).1,
    (fold_exact (isTree_wrapping true) (by decide)).1.mpr (by decide)⟩

end W16Compiler
