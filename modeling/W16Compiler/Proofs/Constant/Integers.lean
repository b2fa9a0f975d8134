import W16Compiler.Constant.Fold
import Mathlib.Tactic.Positivity
import Mathlib.Tactic.Zify

/-!
# Integer constant expressions

Trees of integers with the types that operators give to their nodes: operands of arithmetic have the type
of the node, a shift has the type of its left operand and an `int` count, comparisons and logical operators
give an `int`. Their value is computed on bits: each node in the two's complement arithmetic of its own
width, with the signed or the unsigned form of division, order and right shift.
-/

namespace W16Compiler

open BitVec Int Constant Option

structure IntType where
  width : IntWidth
  signed : Bool
  deriving DecidableEq

namespace IntType

def int : IntType := ⟨.word, true⟩

abbrev Bits (τ : IntType) : Type := BitVec τ.width.bits

/-- The number that a value stands for. -/
def number (τ : IntType) (x : τ.Bits) : Int := if τ.signed then x.toInt else x.toNat

def truth {τ : IntType} (x : τ.Bits) : Bool := x != 0

def ofBool (b : Bool) : int.Bits := if b then 1 else 0

def convert (τ σ : IntType) (x : τ.Bits) : σ.Bits :=
  if τ.signed then x.signExtend σ.width.bits else x.zeroExtend σ.width.bits

/-- The arithmetic operators. Division goes toward zero, and the remainder has the sign of the dividend. -/
def compute (τ : IntType) (op : BinaryOp) (x y : τ.Bits) : τ.Bits :=
  match op with
  | .add => x + y
  | .sub => x - y
  | .mul => x * y
  | .div => if τ.signed then x.sdiv y else x / y
  | .mod => if τ.signed then x.srem y else x % y
  | .and => x &&& y
  | .or => x ||| y
  | .xor => x ^^^ y
  | _ => 0

def shift (τ : IntType) (op : BinaryOp) (x : τ.Bits) (count : Nat) : τ.Bits :=
  match op with
  | .shl => x <<< count
  | .shr => if τ.signed then x.sshiftRight count else x >>> count
  | _ => 0

def less (τ : IntType) (x y : τ.Bits) : Bool := if τ.signed then x.slt y else x.ult y

def holds (τ : IntType) (op : BinaryOp) (x y : τ.Bits) : Bool :=
  match op with
  | .eq => x == y
  | .ne => x != y
  | .lt => τ.less x y
  | .le => !τ.less y x
  | .gt => τ.less y x
  | .ge => !τ.less x y
  | _ => false

def Is (τ : IntType) (t : TypeTable) (ty : TypeId) : Prop := t.kind ty = .int τ.width τ.signed

end IntType

inductive OperatorClass where
  | arithmetic
  | shift
  | comparison
  deriving DecidableEq

def BinaryOp.operatorClass : BinaryOp → OperatorClass
  | .shl | .shr => .shift
  | .eq | .ne | .lt | .le | .gt | .ge => .comparison
  | _ => .arithmetic

/-- A tree of integer operations of some type. -/
inductive IntTree : IntType → Type where
  | literal {τ : IntType} (value : Int) : IntTree τ
  | neg {τ : IntType} (e : IntTree τ) : IntTree τ
  | bitNot {τ : IntType} (e : IntTree τ) : IntTree τ
  | logNot {τ : IntType} (e : IntTree τ) : IntTree .int
  | cast {τ σ : IntType} (e : IntTree τ) : IntTree σ
  | arithmetic {τ : IntType} (op : BinaryOp) (hop : op.operatorClass = .arithmetic) (l r : IntTree τ) : IntTree τ
  | shift {τ : IntType} (op : BinaryOp) (hop : op.operatorClass = .shift) (l : IntTree τ) (count : IntTree .int) :
      IntTree τ
  | comparison {τ : IntType} (op : BinaryOp) (hop : op.operatorClass = .comparison) (l r : IntTree τ) : IntTree .int
  | logical {τ σ : IntType} (conjunction : Bool) (l : IntTree τ) (r : IntTree σ) : IntTree .int
  | conditional {τ σ : IntType} (cond : IntTree σ) (yes no : IntTree τ) : IntTree τ

namespace IntTree

open IntType

/-- The value, in the arithmetic of the type of each node. -/
def value : {τ : IntType} → IntTree τ → τ.Bits
  | _, literal v => .ofInt _ v
  | _, neg e => -e.value
  | _, bitNot e => ~~~e.value
  | _, logNot e => ofBool (!truth e.value)
  | _, @cast τ σ e => τ.convert σ e.value
  | τ, arithmetic op _ l r => τ.compute op l.value r.value
  | τ, shift op _ l count => τ.shift op l.value count.value.toNat
  | _, @comparison τ op _ l r => ofBool (τ.holds op l.value r.value)
  | _, logical true l r => ofBool (truth l.value && truth r.value)
  | _, logical false l r => ofBool (truth l.value || truth r.value)
  | _, conditional cond yes no => if truth cond.value then yes.value else no.value

/-- The nodes whose value is computed: not what a logical operator or a conditional passes over. -/
def computed : {τ : IntType} → IntTree τ → List (Σ σ, IntTree σ)
  | _, e@(literal _) => [⟨_, e⟩]
  | _, e@(neg a) | _, e@(bitNot a) | _, e@(logNot a) | _, e@(cast a) => ⟨_, e⟩ :: a.computed
  | _, e@(arithmetic _ _ l r) | _, e@(comparison _ _ l r) | _, e@(shift _ _ l r) =>
    ⟨_, e⟩ :: (l.computed ++ r.computed)
  | _, e@(logical conjunction l r) =>
    ⟨_, e⟩ :: (l.computed ++ if truth l.value = conjunction then r.computed else [])
  | _, e@(conditional cond yes no) =>
    ⟨_, e⟩ :: (cond.computed ++ if truth cond.value then yes.computed else no.computed)

def isZeroDivision : {τ : IntType} → IntTree τ → Bool
  | _, arithmetic op _ _ r => (op = .div || op = .mod) && r.value == 0
  | _, _ => false

/-- Whether something is divided by zero on the way to the value. -/
def dividesByZero {τ : IntType} (e : IntTree τ) : Bool := e.computed.any (·.2.isZeroDivision)

def isWideShift : {τ : IntType} → IntTree τ → Bool
  | τ, shift _ _ _ count => !count.dividesByZero && !(0 ≤ count.value.toInt && count.value.toInt < τ.width.bits)
  | _, _ => false

/-- Whether all shifts on the way to the value are by less than the width. -/
def shiftsInWidth {τ : IntType} (e : IntTree τ) : Bool := e.computed.all (!·.2.isWideShift)

end IntTree

/-- The expression writes the tree, with types as the tree has them. -/
inductive Expr.IsTree (t : TypeTable) : {τ : IntType} → Expr → IntTree τ → Prop where
  | literal {τ : IntType} {i : ExprInfo} {value : Int} (hty : τ.Is t i.type) :
      IsTree t (.int i value) (@IntTree.literal τ value)
  | neg {τ : IntType} {i : ExprInfo} {e : Expr} {a : IntTree τ} (hty : τ.Is t i.type) (he : IsTree t e a) :
      IsTree t (.unary i .neg e) a.neg
  | bitNot {τ : IntType} {i : ExprInfo} {e : Expr} {a : IntTree τ} (hty : τ.Is t i.type) (he : IsTree t e a) :
      IsTree t (.unary i .bitNot e) a.bitNot
  | logNot {τ : IntType} {i : ExprInfo} {e : Expr} {a : IntTree τ} (hty : IntType.int.Is t i.type)
      (he : IsTree t e a) : IsTree t (.unary i .logNot e) a.logNot
  | cast {τ σ : IntType} {i : ExprInfo} {e : Expr} {a : IntTree τ} (hty : σ.Is t i.type) (he : IsTree t e a) :
      IsTree t (.cast i e) (@IntTree.cast τ σ a)
  | arithmetic {τ : IntType} {i : ExprInfo} {op : BinaryOp} {l r : Expr} {a b : IntTree τ}
      (hop : op.operatorClass = .arithmetic) (hty : τ.Is t i.type) (hl : IsTree t l a) (hr : IsTree t r b) :
      IsTree t (.binary i op l r) (.arithmetic op hop a b)
  | shift {τ : IntType} {i : ExprInfo} {op : BinaryOp} {l r : Expr} {a : IntTree τ} {count : IntTree .int}
      (hop : op.operatorClass = .shift) (hty : τ.Is t i.type) (hl : IsTree t l a) (hr : IsTree t r count) :
      IsTree t (.binary i op l r) (.shift op hop a count)
  | comparison {τ : IntType} {i : ExprInfo} {op : BinaryOp} {l r : Expr} {a b : IntTree τ}
      (hop : op.operatorClass = .comparison) (hty : IntType.int.Is t i.type) (hl : IsTree t l a)
      (hr : IsTree t r b) : IsTree t (.binary i op l r) (.comparison op hop a b)
  | logical {τ σ : IntType} {i : ExprInfo} {conjunction : Bool} {l r : Expr} {a : IntTree τ} {b : IntTree σ}
      (hty : IntType.int.Is t i.type) (hl : IsTree t l a) (hr : IsTree t r b) :
      IsTree t (.logical i conjunction l r) (.logical conjunction a b)
  | conditional {τ σ : IntType} {i : ExprInfo} {cond yes no : Expr} {c : IntTree σ} {a b : IntTree τ}
      (hty : τ.Is t i.type) (hc : IsTree t cond c) (hyes : IsTree t yes a) (hno : IsTree t no b) :
      IsTree t (.conditional i cond yes no) (.conditional c a b)

/-! ## Numbers and bits -/

namespace IntType

variable {τ σ : IntType} {t : TypeTable} {ty : TypeId} (w : IntWidth)

lemma width_cases : w.bits = 8 ∨ w.bits = 16 ∨ w.bits = 32 := by
  cases w <;> simp [IntWidth.bits]

lemma Is.intInfo (h : τ.Is t ty) : t.intInfo ty = some (τ.width.bits, τ.signed) := by
  rw [TypeTable.intInfo, h]

lemma Is.isUnsigned (h : τ.Is t ty) : t.isUnsigned ty = !τ.signed := by rw [TypeTable.isUnsigned, h]

variable (x : τ.Bits) {op : BinaryOp} {k : Nat}

@[simp] lemma ofInt_number : BitVec.ofInt _ (τ.number x) = x := by
  unfold number
  split
  · exact ofInt_toInt
  · rw [ofInt_natCast, BitVec.ofNat_toNat, setWidth_eq]

lemma number_inj {x y : τ.Bits} : τ.number x = τ.number y ↔ x = y := by
  refine ⟨fun h ↦ ?_, congrArg _⟩
  rw [← ofInt_number x, h, ofInt_number]

@[simp] lemma number_zero : τ.number 0#τ.width.bits = 0 := by
  unfold number
  split <;> simp

lemma number_eq_zero {x : τ.Bits} : τ.number x = 0 ↔ x = 0#τ.width.bits := by rw [← number_inj, number_zero]

lemma wrapBits_eq (τ : IntType) (v : Int) : wrapBits v τ.width.bits τ.signed = τ.number (.ofInt _ v) := by
  have hbits : τ.width.bits % 64 = τ.width.bits := by
    rcases width_cases τ.width with h | h | h <;> rw [h]
  unfold wrapBits number
  rw [hbits]
  split
  · rw [toInt_ofInt]
    rfl
  · have hpos : (0 : Int) < (2 ^ τ.width.bits : Nat) := natCast_pos.mpr (Nat.two_pow_pos _)
    rw [toNat_ofInt, toNat_of_nonneg (emod_nonneg _ (ne_of_gt hpos))]
    rfl

lemma wrapTo_eq (h : τ.Is t ty) (v : Int) : wrapTo t ty v = τ.number (.ofInt _ v) := by
  rw [wrapTo, h.intInfo]
  exact wrapBits_eq τ v

lemma number_ofInt_of_lt (h : 2 * k < 2 ^ τ.width.bits) : τ.number (.ofInt _ k) = k := by
  unfold number
  split
  · rw [toInt_ofInt]
    exact bmod_eq_of_le (by omega) (by omega)
  · rw [ofInt_natCast, toNat_ofNat, Nat.mod_eq_of_lt (by omega)]

lemma ofInt_wrap64 (v : Int) : BitVec.ofInt w.bits (wrap64 v) = .ofInt w.bits v := by
  apply eq_of_toInt_eq
  rw [toInt_ofInt, toInt_ofInt, wrap64]
  refine bmod_bmod_of_dvd (Nat.pow_dvd_pow 2 ?_)
  rcases width_cases w with h | h | h <;> omega

lemma toNat_ofInt_of_lt {n : Nat} (h : n < 2 ^ 64) : BitVec.ofInt w.bits n = (BitVec.ofNat 64 n).setWidth w.bits := by
  apply eq_of_toNat_eq
  rw [toNat_setWidth, toNat_ofNat, Nat.mod_eq_of_lt h, ofInt_natCast, toNat_ofNat]

lemma setWidth_ofInt64 (v : Int) : (UInt64.ofInt v).toBitVec.setWidth w.bits = .ofInt w.bits v := by
  have hpos : 0 ≤ v % 2 ^ 64 := emod_nonneg _ (by decide)
  have hnat : (UInt64.ofInt v).toNat = (v % 2 ^ 64).toNat := by
    rw [UInt64.ofInt, UInt64.toNat_ofNat', Nat.mod_eq_of_lt (by omega)]
  have hdvd : (2 ^ w.bits : Int) ∣ 2 ^ 64 := by rcases width_cases w with h | h | h <;> rw [h] <;> decide
  apply eq_of_toNat_eq
  rw [toNat_setWidth, UInt64.toNat_toBitVec, hnat, toNat_ofInt]
  zify
  rw [toNat_of_nonneg hpos, toNat_of_nonneg (emod_nonneg _ (by positivity)), emod_emod_of_dvd _ hdvd]

lemma ofInt_bitwise64 (op : UInt64 → UInt64 → UInt64) (low : BitVec w.bits → BitVec w.bits → BitVec w.bits)
    (h : ∀ a b, (op a b).toBitVec.setWidth w.bits = low (a.toBitVec.setWidth w.bits) (b.toBitVec.setWidth w.bits))
    (a b : Int) : BitVec.ofInt w.bits (bitwise64 op a b) = low (.ofInt _ a) (.ofInt _ b) := by
  rw [bitwise64, ofInt_wrap64, toNat_ofInt_of_lt w (op (.ofInt a) (.ofInt b)).toNat_lt, ← UInt64.toNat_toBitVec,
    BitVec.ofNat_toNat, setWidth_eq, h, setWidth_ofInt64, setWidth_ofInt64]

lemma number_range : (if τ.signed then -2 ^ (τ.width.bits - 1) else 0) ≤ τ.number x ∧
      τ.number x < if τ.signed then 2 ^ (τ.width.bits - 1) else 2 ^ τ.width.bits := by
  unfold number
  split
  · have hlo := le_toInt x
    have hhi := toInt_lt (x := x)
    exact ⟨hlo, hhi⟩
  · have hlt := x.isLt
    exact ⟨by omega, by exact_mod_cast hlt⟩

/-! ## Operators -/

lemma number_neg : BitVec.ofInt τ.width.bits (wrap64 (-τ.number x)) = -x := by
  rw [ofInt_wrap64, ofInt_neg, ofInt_number]

lemma ofInt_sub_width (w : Nat) (a b : Int) : BitVec.ofInt w (a - b) = BitVec.ofInt w a - BitVec.ofInt w b := by
  rw [Int.sub_eq_add_neg, ofInt_add, ofInt_neg, BitVec.sub_eq_add_neg]

lemma number_not : BitVec.ofInt τ.width.bits (-τ.number x - 1) = ~~~x := by
  rw [ofInt_sub_width, ofInt_neg, ofInt_number, not_eq_neg_add]
  rfl

lemma ofInt_convert : BitVec.ofInt σ.width.bits (τ.number x) = τ.convert σ x := by
  unfold number convert
  split
  · rfl
  · rw [ofInt_natCast, BitVec.ofNat_toNat]

lemma number_div (x y : τ.Bits) :
    BitVec.ofInt τ.width.bits ((τ.number x).tdiv (τ.number y)) = τ.compute .div x y := by
  simp only [number, compute]
  cases τ.signed with
  | true =>
    apply eq_of_toInt_eq
    rw [if_pos rfl, if_pos rfl, if_pos rfl, toInt_ofInt, toInt_sdiv]
  | false =>
    rw [if_neg Bool.false_ne_true, if_neg Bool.false_ne_true, if_neg Bool.false_ne_true, ← Int.ofNat_tdiv,
      ofInt_natCast, ← toNat_udiv, BitVec.ofNat_toNat, setWidth_eq]

lemma number_mod (x y : τ.Bits) :
    BitVec.ofInt τ.width.bits ((τ.number x).tmod (τ.number y)) = τ.compute .mod x y := by
  simp only [number, compute]
  cases τ.signed with
  | true => rw [if_pos rfl, if_pos rfl, if_pos rfl, ← toInt_srem, ofInt_toInt]
  | false =>
    rw [if_neg Bool.false_ne_true, if_neg Bool.false_ne_true, if_neg Bool.false_ne_true, ← Int.ofNat_tmod,
      ofInt_natCast, ← toNat_umod, BitVec.ofNat_toNat, setWidth_eq]

lemma arithmetic_number (hop : op.operatorClass = .arithmetic) (x y : τ.Bits) :
    (arithmetic op (τ.number x) (τ.number y)).map (BitVec.ofInt τ.width.bits) =
      if (op = .div || op = .mod) && y == 0 then none else some (τ.compute op x y) := by
  cases op with
  | add | sub | mul =>
    simp only [arithmetic, map_some, ofInt_wrap64, ofInt_add, ofInt_sub_width, ofInt_mul, ofInt_number]
    rfl
  | div =>
    by_cases hy : y = 0#τ.width.bits
    · simp [arithmetic, hy]
    · simp [arithmetic, hy, number_eq_zero, number_div]
  | mod =>
    by_cases hy : y = 0#τ.width.bits
    · simp [arithmetic, hy]
    · simp [arithmetic, hy, number_eq_zero, number_mod]
  | and =>
    have hlow := ofInt_bitwise64 τ.width (· &&& ·) (· &&& ·) fun _ _ ↦ setWidth_and
    simp only [arithmetic, map_some, hlow, ofInt_number]
    rfl
  | or =>
    have hlow := ofInt_bitwise64 τ.width (· ||| ·) (· ||| ·) fun _ _ ↦ setWidth_or
    simp only [arithmetic, map_some, hlow, ofInt_number]
    rfl
  | xor =>
    have hlow := ofInt_bitwise64 τ.width (· ^^^ ·) (· ^^^ ·) fun _ _ ↦ setWidth_xor
    simp only [arithmetic, map_some, hlow, ofInt_number]
    rfl
  | _ => cases hop

lemma number_shl (k : Nat) : BitVec.ofInt τ.width.bits (τ.number x * twoTo k) = x <<< k := by
  have hpow : BitVec.ofInt τ.width.bits (twoTo k : Int) = twoPow _ k := by
    apply eq_of_toNat_eq
    rw [ofInt_natCast, toNat_ofNat, toNat_twoPow]
    rfl
  rw [ofInt_mul, hpow, ofInt_number, shiftLeft_eq_mul_twoPow]

lemma number_shr (k : Nat) : BitVec.ofInt τ.width.bits ((τ.number x).fdiv (twoTo k)) = τ.shift .shr x k := by
  rw [fdiv_eq_ediv_of_nonneg _ (natCast_nonneg _)]
  simp only [number, shift]
  cases τ.signed with
  | true =>
    rw [if_pos rfl, if_pos rfl, sshiftRight, shiftRight_eq_div_pow]
    rfl
  | false =>
    rw [if_neg Bool.false_ne_true, if_neg Bool.false_ne_true, ← natCast_ediv, ofInt_natCast]
    apply eq_of_toNat_eq
    rw [toNat_ofNat, toNat_ushiftRight, Nat.shiftRight_eq_div_pow]
    exact Nat.mod_eq_of_lt (lt_of_le_of_lt (Nat.div_le_self _ _) x.isLt)

lemma shift_number (hop : op.operatorClass = .shift) (x : τ.Bits) (hk : k < τ.width.bits) :
    (arithmetic op (τ.number x) k).map (BitVec.ofInt τ.width.bits) = some (τ.shift op x k) := by
  have hle : τ.width.bits ≤ 32 := by rcases width_cases τ.width with h | h | h <;> omega
  have hcount : (decide (0 ≤ (k : Int)) && decide ((k : Int) < 64)) = true := by
    rw [Bool.and_eq_true, decide_eq_true_eq, decide_eq_true_eq]
    omega
  cases op with
  | shl =>
    simp only [arithmetic, shiftLeft, if_pos hcount, map_some, ofInt_wrap64, Int.toNat_natCast, number_shl]
    rfl
  | shr => simp only [arithmetic, shiftRight, if_pos hcount, map_some, Int.toNat_natCast, number_shr]
  | _ => cases hop

lemma less_eq (x y : τ.Bits) : τ.less x y = decide (τ.number x < τ.number y) := by
  unfold less number
  split
  · rfl
  · simp only [ofNat_lt]
    rfl

lemma compareInts_number (hop : op.operatorClass = .comparison) (x y : τ.Bits) :
    compareInts op (τ.number x) (τ.number y) = τ.holds op x y := by
  cases op with
  | eq => simp [compareInts, holds, number_inj, beq_eq_decide]
  | ne => simp [compareInts, holds, number_inj, bne, beq_eq_decide]
  | lt => exact (less_eq x y).symm
  | le => simp [compareInts, holds, less_eq, ← decide_not]
  | gt => exact (less_eq y x).symm
  | ge => simp [compareInts, holds, less_eq, ← decide_not]
  | _ => cases hop

end IntType

end W16Compiler
