import W16Compiler.Proofs.Constant.Folding
import W16Compiler.Proofs.Select.Arithmetic

/-!
# Folded and executed words

An operator on words that has an instruction is folded to what the instruction computes, except for shifts by
a count that is not a number of bits of the word: the folder shifts everything out, the instruction shifts by
the low four bits of the count.
-/

namespace W16Compiler

open IntType BitVec Constant

namespace IntType

def word (signed : Bool) : IntType := ⟨.word, signed⟩

lemma number_word (signed : Bool) (x : Word) : (word signed).number x = if signed then x.toInt else (x.toNat : Int) :=
  rfl

lemma ofInt_number_word (signed : Bool) (x : Word) : BitVec.ofInt 16 ((word signed).number x) = x :=
  @ofInt_number (word signed) x

def shiftWord (op : BinaryOp) (signed : Bool) (x : Word) (count : Nat) : Word := (word signed).shift op x count

variable {op : BinaryOp} {alu : AluOp} {signed : Bool} {k : Nat}

/-! ## Instructions -/

lemma operatorClass_of_alu (halu : Select.aluOp? op signed = some alu) :
    op.operatorClass = .shift ∨ op.operatorClass = .arithmetic ∧ (op = .div || op = .mod) = false := by
  cases op with
  | shl | shr => exact .inl rfl
  | add | sub | and | or | xor => exact .inr ⟨rfl, rfl⟩
  | _ => cases halu

lemma apply_of_arithmetic (hop : op.operatorClass = .arithmetic) (halu : Select.aluOp? op signed = some alu)
    (x y : Word) : (word signed).compute op x y = alu.apply x y := by
  cases op with
  | add | sub | and | or | xor =>
    cases halu
    rfl
  | mul | div | mod => cases halu
  | _ => cases hop

lemma toNat_and_fifteen (y : Word) : (y &&& 0xf).toNat = (y.toInt % 16).toNat := by
  have hand : (y &&& 0xf).toNat = y.toNat % 16 := by
    rw [toNat_and]
    exact Nat.and_two_pow_sub_one_eq_mod _ 4
  have hlt := y.isLt
  rw [hand, toInt_eq_toNat_cond]
  split <;> omega

lemma apply_of_shift (hop : op.operatorClass = .shift) (halu : Select.aluOp? op signed = some alu) (x y : Word) :
    alu.apply x y = shiftWord op signed x (y.toInt % 16).toNat := by
  cases op with
  | shl =>
    cases halu
    simp only [AluOp.apply, toNat_and_fifteen]
    rfl
  | shr => cases signed <;> cases halu <;> simp only [AluOp.apply, toNat_and_fifteen] <;> rfl
  | _ => cases hop

/-! ## Shifts by too much -/

lemma fdiv_number (x : Word) (hk : 16 ≤ k) :
    ((word signed).number x).fdiv (twoTo k) = if (word signed).number x < 0 then -1 else 0 := by
  have hrange := @number_range (word signed) x
  have hpow : (2 ^ 16 : Int) ≤ twoTo k := by exact_mod_cast Nat.pow_le_pow_right (by decide) hk
  have hbounds : -(2 ^ 16) ≤ (word signed).number x ∧ (word signed).number x < 2 ^ 16 := by
    cases signed <;> simp [word, IntWidth.bits] at hrange ⊢ <;> omega
  rw [Int.fdiv_eq_ediv_of_nonneg _ (Int.natCast_nonneg _)]
  split
  · exact Int.ediv_eq_neg_one_of_neg_of_le ‹_› (by omega)
  · exact Int.ediv_eq_zero_of_lt (by omega) (by omega)

lemma shiftWord_shr (x : Word) (k : Nat) :
    .ofInt 16 (((word signed).number x).fdiv (twoTo k)) = shiftWord .shr signed x k :=
  @number_shr (word signed) x k

lemma shiftWord_shl (x : Word) (k : Nat) : .ofInt 16 ((word signed).number x * twoTo k) = shiftWord .shl signed x k :=
  @number_shl (word signed) x k

lemma shiftWord_of_le (x : Word) (hk : 16 ≤ k) : shiftWord op signed x k = shiftWord op signed x 16 := by
  cases op with
  | shl => exact (shiftLeft_eq_zero hk).trans (shiftLeft_eq_zero le_rfl).symm
  | shr => rw [← shiftWord_shr, ← shiftWord_shr, fdiv_number x hk, fdiv_number x le_rfl]
  | _ => rfl

def foldedCount (count : Int) : Nat := if 0 ≤ count ∧ count < 16 then count.toNat else 16

lemma number_cases (signed : Bool) (y : Word) :
    (0 ≤ y.toInt ∧ y.toInt < 16 ∧ (word signed).number y = y.toInt ∧ foldedCount y.toInt = y.toInt.toNat) ∨
      (foldedCount y.toInt = 16 ∧ ((word signed).number y < 0 ∨ 16 ≤ (word signed).number y)) := by
  have hlt := y.isLt
  have hint := toInt_eq_toNat_cond y
  rw [number_word]
  unfold foldedCount
  by_cases hcount : 0 ≤ y.toInt ∧ y.toInt < 16
  · refine .inl ⟨hcount.1, hcount.2, ?_, if_pos hcount⟩
    split at hint <;> split <;> omega
  · refine .inr ⟨if_neg hcount, ?_⟩
    split at hint <;> split <;> omega

lemma arithmetic_shift (hop : op.operatorClass = .shift) (x y : Word) :
    (arithmetic op ((word signed).number x) ((word signed).number y)).map (BitVec.ofInt 16) =
      some (shiftWord op signed x (foldedCount y.toInt)) := by
  rcases number_cases signed y with ⟨hlo, hhi, hnumber, hcount⟩ | ⟨hcount, hnumber⟩
  · have hlt : y.toInt.toNat < (word signed).width.bits := by
      change _ < 16
      omega
    rw [hnumber, hcount, ← Int.toNat_of_nonneg hlo]
    exact @shift_number (word signed) op _ hop x hlt
  · rw [hcount]
    -- Either the count is one of sixty-four bits, or the folder gives what is left without counting.
    have hle (hsmall : 0 ≤ (word signed).number y && (word signed).number y < 64) :
        16 ≤ ((word signed).number y).toNat := by
      simp only [Bool.and_eq_true, decide_eq_true_eq] at hsmall
      omega
    cases op with
    | shl =>
      rw [arithmetic, shiftLeft, Option.map_some]
      split
      · rw [← shiftWord_of_le x (hle ‹_›), ← shiftWord_shl]
        exact congrArg some (ofInt_wrap64 .word _)
      · exact congrArg some (shiftLeft_eq_zero le_rfl).symm
    | shr =>
      rw [arithmetic, shiftRight, Option.map_some]
      split
      · rw [← shiftWord_of_le x (hle ‹_›), ← shiftWord_shr]
      · rw [← shiftWord_shr, fdiv_number x le_rfl]
    | _ => cases hop

end IntType

/-! ## Operators with an instruction -/

variable {t : TypeTable} {s : Symbols} {i : ExprInfo} {l r : Expr} {op : BinaryOp} {alu : AluOp} {signed : Bool}
  {a b : Int}

lemma fold_words (hi : (word signed).Is t i.type) (hl : (word signed).Is t l.type) (ha : fold t s l = some (.int a))
    (hb : fold t s r = some (.int b)) (halu : Select.aluOp? op signed = some alu) :
    ∃ v, fold t s (.binary i op l r) = some (.int v) ∧ BitVec.ofInt 16 v =
      if op.operatorClass = .shift then shiftWord op signed (.ofInt 16 a) (foldedCount (BitVec.ofInt 16 b).toInt)
      else alu.apply (.ofInt 16 a) (.ofInt 16 b) := by
  have hcomparison : op.isComparison = false := by cases op <;> first | rfl | cases halu
  have hfold (z : Word) (hz : (arithmetic op ((word signed).number (.ofInt 16 a))
      ((word signed).number (.ofInt 16 b))).map (BitVec.ofInt 16) = some z) :
      fold t s (.binary i op l r) = some (.int ((word signed).number z)) := by
    rw [fold, ha, hb]
    change binaryInts t op l.type i.type a b = _
    rw [binaryInts_of_is hl, hcomparison]
    exact (map_wrapTo hi _).trans (congrArg (Option.map (ofBits (word signed))) hz)
  rcases operatorClass_of_alu halu with hop | ⟨hop, hdivision⟩
  · rw [if_pos hop]
    exact ⟨_, hfold _ (arithmetic_shift hop _ _), ofInt_number_word signed _⟩
  · have hcompute := @arithmetic_number (word signed) op hop (.ofInt 16 a) (.ofInt 16 b)
    rw [hdivision, Bool.false_and, if_neg Bool.false_ne_true] at hcompute
    rw [if_neg (by rw [hop]; decide)]
    exact ⟨_, hfold _ (hcompute.trans (congrArg some (apply_of_arithmetic hop halu _ _))), ofInt_number_word signed _⟩

lemma emod_of_ofInt {v w : Int} (h : BitVec.ofInt 16 v = .ofInt 16 w) : v % 2 ^ 16 = w % 2 ^ 16 := by
  have hnat := congrArg BitVec.toNat h
  rw [toNat_ofInt, toNat_ofInt] at hnat
  omega

/-- Constants and words in memory give the same result, unless a count is not a number of bits: then the folder
shifts all bits out, and the instruction shifts by the count modulo sixteen. -/
theorem fold_agrees_alu (hi : (word signed).Is t i.type) (hl : (word signed).Is t l.type)
    (ha : fold t s l = some (.int a)) (hb : fold t s r = some (.int b)) (halu : Select.aluOp? op signed = some alu) :
    ∃ v, fold t s (.binary i op l r) = some (.int v) ∧
      (∀ A : Arithmetic, A.binaryWord op (.ofType t i.type) [.ofInt 16 a] [.ofInt 16 b] 0 = .ofInt 16 (alu.eval a b)) ∧
      let count := (BitVec.ofInt 16 b).toInt
      if op.operatorClass = .shift ∧ ¬(0 ≤ count ∧ count < 16) then
        .ofInt 16 v = shiftWord op signed (.ofInt 16 a) 16 ∧
          .ofInt 16 (alu.eval a b) = shiftWord op signed (.ofInt 16 a) (count % 16).toNat
      else v % 2 ^ 16 = alu.eval a b % 2 ^ 16 := by
  obtain ⟨v, hfold, hv⟩ := fold_words hi hl ha hb halu
  have heval : BitVec.ofInt 16 (alu.eval a b) = alu.apply (.ofInt 16 a) (.ofInt 16 b) := BitVec.ofInt_toInt
  have hrep : Rep.ofType t i.type = .word signed := by rw [Rep.ofType, hi]; rfl
  refine ⟨v, hfold, fun A ↦ ?_, ?_⟩
  · rw [heval, hrep]
    exact A.binaryWord_of_alu rfl halu _ _
  · intro count
    split
    · rename_i hshift
      rw [hv, if_pos hshift.1, heval, apply_of_shift hshift.1 halu, foldedCount, if_neg hshift.2]
      exact ⟨rfl, rfl⟩
    · rename_i hagrees
      apply emod_of_ofInt
      rw [hv, heval]
      split
      · rename_i hshift
        have hcount := of_not_not fun hcount ↦ hagrees ⟨hshift, hcount⟩
        rw [apply_of_shift hshift halu, foldedCount, if_pos hcount, Int.emod_eq_of_lt hcount.1 hcount.2]
      · rfl

/-- `40000u >> 15` is one both ways; `1 << 16` is folded to zero and executed as `1 << 0`. -/
theorem fold_agrees_alu_shifts :
    let i (type : TypeId) : ExprInfo := ⟨type, .builtin⟩
    (∃ v, fold .initial {} (.binary (i .uint) .shr (.int (i .uint) 40000) (.int (i .int) 15)) = some (.int v) ∧
      v % 2 ^ 16 = AluOp.shr.eval 40000 15 % 2 ^ 16) ∧
    ∃ v, fold .initial {} (.binary (i .int) .shl (.int (i .int) 1) (.int (i .int) 16)) = some (.int v) ∧
      BitVec.ofInt 16 v = 0 ∧ BitVec.ofInt 16 (AluOp.shl.eval 1 16) = 1 := by
  intro i
  have hfolds (type : TypeId) (n : Int) (hn : wrapTo .initial type n = n) :
      fold .initial {} (.int (i type) n) = some (.int n) := congrArg (some ∘ Constant.int) hn
  constructor
  · obtain ⟨v, hfold, -, hagrees⟩ := @fold_agrees_alu .initial {} (i .uint) (.int (i .uint) 40000) (.int (i .int) 15)
      .shr .shr false 40000 15 rfl rfl (hfolds _ _ (by decide)) (hfolds _ _ (by decide)) rfl
    rw [if_neg (by decide)] at hagrees
    exact ⟨v, hfold, hagrees⟩
  · obtain ⟨v, hfold, -, hdiffers⟩ := @fold_agrees_alu .initial {} (i .int) (.int (i .int) 1) (.int (i .int) 16)
      .shl .shl true 1 16 rfl rfl (hfolds _ _ (by decide)) (hfolds _ _ (by decide)) rfl
    rw [if_pos (by decide)] at hdiffers
    exact ⟨v, hfold, hdiffers.1.trans (by decide), hdiffers.2.trans (by decide)⟩

end W16Compiler
