import W16Compiler.Machine.Select
import W16Compiler.Proofs.Machine.Knowledge
import W16Compiler.Proofs.Prim.Meaning
import Mathlib.Tactic.NormNum

/-!
# Arithmetic on words

The words of an integer hold a number, and arithmetic on integers of one word is that of the numbers,
brought back into the range of the representation. Everything else is left to helpers: what they compute
is given as functions of the words. The instructions that are selected for words agree with this.
-/

namespace W16Compiler

open BitVec Int UnaryInstr Rep Select

/-! ## Numbers -/

namespace Rep

/-- The bits of a value, the first word lowest. -/
def bits : List Word → Nat
  | [] => 0
  | w :: ws => w.toNat + 2 ^ 16 * bits ws

/-- The number that the words of an integer hold. -/
def number (rep : Rep) (ws : List Word) : Int :=
  if rep.isSigned then Int.bmod (bits ws) (2 ^ (16 * rep.words)) else bits ws

def wordOf (rep : Rep) (n : Int) (i : Nat) : Word :=
  let kept := match rep with
    | .byte true => Int.bmod n 256
    | .byte false => n % 256
    | _ => n
  constantWord (.ofInt 64 kept) i

def isZero (rep : Rep) (ws : List Word) : Bool :=
  bits ws % 2 ^ (16 * rep.words - if rep.isFloat then 1 else 0) == 0

def extended (rep : Rep) (w : Word) : Word :=
  match rep with
  | .byte true => UnaryInstr.sxb.apply w
  | .byte false => UnaryInstr.zxb.apply w
  | _ => w

def inRegister : Rep → Rep
  | .byte signed => .word signed
  | rep => rep

end Rep

def PrimUnary.onNumber : PrimUnary → Int → Int
  | .neg, a => -a
  | .not, a => -a - 1

/-- The result of an operator that has an instruction. Counts of shifts have four bits. -/
def BinaryOp.onNumbers (op : BinaryOp) (a b : Int) : Option Int :=
  match op with
  | .add => some (a + b)
  | .sub => some (a - b)
  | .and => some (BitVec.ofInt 16 a &&& BitVec.ofInt 16 b).toInt
  | .or => some (BitVec.ofInt 16 a ||| BitVec.ofInt 16 b).toInt
  | .xor => some (BitVec.ofInt 16 a ^^^ BitVec.ofInt 16 b).toInt
  | .shl => some (a * 2 ^ (b % 16).toNat)
  | .shr => some (a / 2 ^ (b % 16).toNat)
  | _ => none

/-- What helpers compute from the words of their operands. -/
structure Arithmetic where
  unary : PrimUnary → Rep → List Word → Nat → Word
  binary : BinaryOp → Rep → List Word → List Word → Nat → Word
  cast : Rep → Rep → List Word → Nat → Word
  order : Rep → List Word → List Word → Ordering

namespace Arithmetic

variable (A : Arithmetic)

def unaryWord (op : PrimUnary) (rep : Rep) (ws : List Word) (i : Nat) : Word :=
  if rep.isWord then rep.wordOf (op.onNumber (rep.number ws)) i else A.unary op rep ws i

def binaryWord (op : BinaryOp) (rep : Rep) (vs ws : List Word) (i : Nat) : Word :=
  if rep.isWord then
    match op.onNumbers (rep.number vs) (rep.number ws) with
    | some n => rep.wordOf n i
    | none => rep.extended (A.binary op (.word rep.isSigned) vs ws i)
  else A.binary op rep vs ws i

def castWord (srcRep rep : Rep) (ws : List Word) (i : Nat) : Word :=
  if rep.isFloat || srcRep.isFloat then rep.extended (A.cast srcRep.inRegister rep.inRegister ws i)
  else rep.wordOf (srcRep.number ws) i

def compareWords (rep : Rep) (vs ws : List Word) : Ordering :=
  if rep.isWord then compare (rep.number vs) (rep.number ws) else A.order rep vs ws

end Arithmetic

/-! ## Words of numbers -/

lemma constantWord_ofInt (n : Int) {i : Nat} (hi : i < 4) :
    constantWord (.ofInt 64 n) i = .ofInt 16 (n / 2 ^ (16 * i)) := by
  apply eq_of_toNat_eq
  rw [constantWord, extractLsb'_toNat, toNat_ofInt, toNat_ofInt, Nat.shiftRight_eq_div_pow]
  have hcases : i = 0 ∨ i = 1 ∨ i = 2 ∨ i = 3 := by omega
  rcases hcases with rfl | rfl | rfl | rfl <;> omega

lemma bmod_bmod_byte (x : Int) : bmod (bmod x 256) (2 ^ 16) = bmod x 256 := by
  have hlo : -128 ≤ bmod x 256 := le_bmod (m := 256) (by decide)
  have hhi : bmod x 256 < 128 := bmod_lt (m := 256) (by decide)
  exact bmod_eq_of_le (by omega) (by omega)

lemma sxb_ofInt (n : Int) : UnaryInstr.sxb.apply (.ofInt 16 n) = .ofInt 16 (Int.bmod n 256) := by
  apply eq_of_toInt_eq
  have hlow : (truncate 8 (BitVec.ofInt 16 n)).toInt = Int.bmod n 256 := by
    rw [truncate_eq_setWidth, toInt_setWidth, ← bmod_bmod_of_dvd (m := 2 ^ 16) (by decide),
      ← toInt_eq_toNat_bmod, toInt_ofInt]
    exact bmod_bmod_of_dvd (by decide)
  simp only [apply]
  rw [toInt_signExtend_of_le (by omega), toInt_ofInt, hlow, bmod_bmod_byte]

lemma zxb_ofInt (n : Int) : UnaryInstr.zxb.apply (.ofInt 16 n) = .ofInt 16 (n % 256) := by
  apply eq_of_toNat_eq
  have hand : (BitVec.ofInt 16 n &&& 0xff).toNat = (BitVec.ofInt 16 n).toNat % 256 := by
    rw [toNat_and]
    exact Nat.and_two_pow_sub_one_eq_mod _ 8
  simp only [apply]
  rw [hand, toNat_ofInt, toNat_ofInt]
  omega

namespace Rep

variable {rep : Rep}

lemma words_le (hb : rep.isBlock = false) : rep.words ≤ 4 := by
  cases rep with
  | block n => cases hb
  | _ => simp [words]

lemma words_pos (hb : rep.isBlock = false) : 0 < rep.words := by
  cases rep with
  | block n => cases hb
  | _ => simp [words]

lemma words_of_isWord (h : rep.isWord) : rep.words = 1 := by
  cases rep <;> first | rfl | cases h

lemma wordOf_zero (rep : Rep) (n : Int) : rep.wordOf n 0 = rep.extended (.ofInt 16 n) := by
  have hword : ∀ m : Int, constantWord (.ofInt 64 m) 0 = .ofInt 16 m := by
    intro m
    rw [constantWord_ofInt m (by omega), Nat.mul_zero, pow_zero, ediv_one]
  unfold wordOf extended
  simp only [hword]
  split
  · exact (sxb_ofInt n).symm
  · exact (zxb_ofInt n).symm
  · rfl

lemma number_singleton (h : rep.isWord) (w : Word) :
    rep.number [w] = if rep.isSigned then w.toInt else (w.toNat : Int) := by
  rw [number, words_of_isWord h, bits, bits, Nat.mul_zero, add_zero, toInt_eq_toNat_bmod]

lemma ofInt_number (h : 0 < rep.words) (w : Word) (ws : List Word) : BitVec.ofInt 16 (rep.number (w :: ws)) = w := by
  have hbits : BitVec.ofInt 16 (bits (w :: ws) : Int) = w := by
    apply eq_of_toNat_eq
    have hlt := w.isLt
    rw [toNat_ofInt, bits]
    omega
  rw [number]
  split
  · have hdvd : 2 ^ 16 ∣ 2 ^ (16 * rep.words) := Nat.pow_dvd_pow 2 (by omega)
    refine Eq.trans (eq_of_toInt_eq ?_) hbits
    rw [toInt_ofInt, toInt_ofInt, Int.bmod_bmod_of_dvd hdvd]
  · exact hbits

lemma ofInt_number_singleton (h : rep.isWord) (w : Word) : BitVec.ofInt 16 (rep.number [w]) = w := by
  have hwords : 0 < rep.words := by rw [words_of_isWord h]; exact one_pos
  exact ofInt_number hwords w []

lemma wordOf_long (signed : Bool) (n : Int) {i : Nat} (hi : i < 4) :
    (long signed).wordOf n i = .ofInt 16 (n / 2 ^ (16 * i)) :=
  constantWord_ofInt n hi

lemma ofInt_number_high (signed : Bool) (v w : Word) :
    BitVec.ofInt 16 ((long signed).number [v, w] / 2 ^ 16) = w := by
  have hv := v.isLt
  have hw := w.isLt
  have hbits : bits [v, w] = v.toNat + 65536 * w.toNat := by
    rw [bits, bits, bits]
    omega
  apply eq_of_toNat_eq
  rw [toNat_ofInt, number, hbits]
  rw [show (long signed).words = 2 from rfl, bmod_def]
  split
  · split <;> omega
  · omega

end Rep

/-! ## Instructions on words -/

lemma ofInt_mul_pow (w : Word) (n : Int) (h : BitVec.ofInt 16 n = w) (k : Nat) :
    BitVec.ofInt 16 (n * 2 ^ k) = w <<< k := by
  have hpow : BitVec.ofInt 16 (2 ^ k) = twoPow 16 k := by
    apply eq_of_toNat_eq
    rw [toNat_ofInt, toNat_twoPow]
    norm_cast
  rw [ofInt_mul, h, shiftLeft_eq_mul_twoPow, hpow]

lemma ofInt_toInt_div_pow (w : Word) (k : Nat) : BitVec.ofInt 16 (w.toInt / 2 ^ k) = w.sshiftRight k := by
  rw [sshiftRight, Int.shiftRight_eq_div_pow]
  norm_cast

lemma ofInt_toNat_div_pow (w : Word) (k : Nat) : BitVec.ofInt 16 (w.toNat / 2 ^ k : Int) = w >>> k := by
  apply eq_of_toNat_eq
  have hlt : w.toNat / 2 ^ k < 2 ^ 16 := lt_of_le_of_lt (Nat.div_le_self _ _) w.isLt
  rw [toNat_ofInt, toNat_ushiftRight, Nat.shiftRight_eq_div_pow]
  norm_cast
  exact Nat.mod_eq_of_lt hlt

lemma shiftCount {rep : Rep} (h : rep.isWord) (w : Word) : (rep.number [w] % 16).toNat = (w &&& 0xf).toNat := by
  have hand : (w &&& 0xf).toNat = w.toNat % 16 := by
    rw [toNat_and]
    exact Nat.and_two_pow_sub_one_eq_mod _ 4
  have hlt := w.isLt
  rw [number_singleton h, hand, toInt_eq_toNat_cond]
  split
  · split <;> omega
  · omega

namespace Arithmetic

variable (A : Arithmetic) {rep srcRep : Rep} {op : BinaryOp}

lemma unaryWord_of_isWord (op : PrimUnary) (h : rep.isWord) (w : Word) : A.unaryWord op rep [w] 0 =
      rep.extended ((match op with | .neg => neg | .not => not).apply w) := by
  rw [unaryWord, if_pos h, wordOf_zero]
  congr 1
  have hw := ofInt_number_singleton h w
  cases op with
  | neg => simp [PrimUnary.onNumber, apply, ofInt_neg, hw]
  | not =>
    simp only [PrimUnary.onNumber, apply, ofInt_sub, ofInt_neg, hw]
    rw [not_eq_neg_add]
    rfl

lemma binaryWord_of_alu {alu : AluOp} (h : rep.isWord) (hop : aluOp? op rep.isSigned = some alu) (a b : Word) :
    A.binaryWord op rep [a] [b] 0 = rep.extended (alu.apply a b) := by
  have ha := ofInt_number_singleton h a
  have hb := ofInt_number_singleton h b
  have hcount := shiftCount h b
  have hword : ∀ n, op.onNumbers (rep.number [a]) (rep.number [b]) = some n →
      BitVec.ofInt 16 n = alu.apply a b → A.binaryWord op rep [a] [b] 0 = rep.extended (alu.apply a b) := by
    intro n hn hr
    rw [binaryWord, if_pos h]
    simp [hn, wordOf_zero, hr]
  cases op with
  | add =>
    cases hop
    exact hword _ rfl (by rw [ofInt_add, ha, hb]; rfl)
  | sub =>
    cases hop
    exact hword _ rfl (by rw [ofInt_sub, ha, hb]; rfl)
  | and | or | xor =>
    cases hop
    exact hword _ rfl (by rw [ofInt_toInt, ha, hb]; rfl)
  | shl =>
    cases hop
    refine hword _ rfl ?_
    rw [ofInt_mul_pow a _ ha, hcount]
    rfl
  | shr =>
    refine hword _ rfl ?_
    rw [number_singleton h a, hcount]
    cases hs : rep.isSigned with
    | true =>
      rw [hs] at hop
      cases hop
      rw [if_pos rfl, ofInt_toInt_div_pow]
      rfl
    | false =>
      rw [hs] at hop
      cases hop
      rw [if_neg Bool.false_ne_true, ofInt_toNat_div_pow]
      rfl
  | _ => cases hop

lemma binaryWord_of_helper (h : rep.isWord) (hop : aluOp? op rep.isSigned = none) (a b : Word) :
    A.binaryWord op rep [a] [b] 0 = rep.extended (A.binary op (.word rep.isSigned) [a] [b] 0) := by
  rw [binaryWord, if_pos h]
  cases op <;> first | rfl | cases hop

lemma castWord_zero (hf : (rep.isFloat || srcRep.isFloat) = false)
    (hwords : 0 < srcRep.words) (w : Word) (ws : List Word) : A.castWord srcRep rep (w :: ws) 0 = rep.extended w := by
  rw [castWord, hf, if_neg Bool.false_ne_true, wordOf_zero, ofInt_number hwords]

lemma castWord_high (hsrc : srcRep.isWord) (signed : Bool) (w : Word) :
    A.castWord srcRep (.long signed) [w] 1 = if srcRep.isSigned then w.sshiftRight 15 else 0 := by
  have hf : ((long signed).isFloat || srcRep.isFloat) = false := by
    cases srcRep <;> first | rfl | cases hsrc
  rw [castWord, hf, if_neg Bool.false_ne_true, wordOf_long _ _ (by omega), number_singleton hsrc]
  have hlt := w.isLt
  split
  · rw [← ofInt_toInt_div_pow, toInt_eq_toNat_cond]
    congr 1
    split <;> omega
  · have hzero : (w.toNat : Int) / 2 ^ (16 * 1) = 0 := by omega
    rw [hzero]
    rfl

lemma castWord_long (signed signed' : Bool) (v w : Word) {i : Nat} (hi : i < 2) :
    A.castWord (.long signed) (.long signed') [v, w] i = [v, w].getD i 0 := by
  have hcases : i = 0 ∨ i = 1 := by omega
  rw [castWord, if_neg (by simp [isFloat])]
  rcases hcases with rfl | rfl
  · rw [wordOf_zero, ofInt_number (by simp [words])]
    rfl
  · rw [wordOf_long _ _ (by omega), mul_one, ofInt_number_high]
    rfl

end Arithmetic

/-! ## Comparisons -/

lemma Cond.holds_compare (cond : Cond) (x y : Int) : cond.holds (compare x y) = match cond with
      | .eq => decide (x = y)
      | .ne => decide (x ≠ y)
      | .lt => decide (x < y)
      | .ge => decide (y ≤ x)
      | .gt => decide (y < x)
      | .le => decide (x ≤ y) := by
  have hcases : (compare x y = .lt ∧ x < y) ∨ (compare x y = .eq ∧ x = y) ∨ (compare x y = .gt ∧ y < x) := by
    rcases Int.lt_trichotomy x y with h | h | h
    · exact .inl ⟨compare_lt_iff_lt.mpr h, h⟩
    · exact .inr (.inl ⟨compare_eq_iff_eq.mpr h, h⟩)
    · exact .inr (.inr ⟨compare_gt_iff_gt.mpr h, h⟩)
  rcases hcases with ⟨hc, h⟩ | ⟨hc, h⟩ | ⟨hc, h⟩ <;> rw [hc] <;> cases cond <;> symm <;>
    first | exact decide_eq_true (by omega) | exact decide_eq_false (by omega)

def BranchCond.taken (c : BranchCond × Bool) (a b : Word) : Bool :=
  if c.2 then c.1.holds b a else c.1.holds a b

lemma taken_branchCond {rep : Rep} (A : Arithmetic) (h : rep.isWord) (cond : Cond) (a b : Word) :
    BranchCond.taken (branchCond cond rep.isSigned) a b = cond.holds (A.compareWords rep [a] [b]) := by
  rw [Arithmetic.compareWords, if_pos h, number_singleton h, number_singleton h, Cond.holds_compare]
  cases hs : rep.isSigned with
  | true =>
    cases cond <;>
      simp [branchCond, BranchCond.taken, BranchCond.holds, BitVec.slt, BitVec.sle, toInt_inj,
        beq_eq_decide, bne]
  | false =>
    cases cond <;>
      simp [branchCond, BranchCond.taken, BranchCond.holds, BitVec.ult, BitVec.ule, toNat_inj,
        beq_eq_decide, bne]

def orderWord : Ordering → Word
  | .lt => -1
  | .eq => 0
  | .gt => 1

lemma taken_orderWord (cond : Cond) (o : Ordering) :
    BranchCond.taken (branchCond cond true) (orderWord o) 0 = cond.holds o := by
  cases cond <;> cases o <;> decide

/-! ## Zero -/

namespace Rep

def tested (rep : Rep) (i : Nat) (w : Word) : Word :=
  if rep.isFloat && i + 1 == rep.words then w &&& 0x7fff else w

lemma and_eq_zero_iff (w : Word) : w &&& 0x7fff = 0 ↔ w.toNat % 2 ^ 15 = 0 := by
  rw [← toNat_inj, toNat_and]
  change w.toNat &&& (2 ^ 15 - 1) = 0 ↔ _
  rw [Nat.and_two_pow_sub_one_eq_mod]

lemma isZero_eq (rep : Rep) (hb : rep.isBlock = false) (w : Nat → Word) : rep.isZero ((List.range rep.words).map w) =
      ((List.range (rep.words - 1)).foldl (fun acc k ↦ acc ||| rep.tested (k + 1) (w (k + 1))) (w 0) == 0) := by
  have h0 := (w 0).isLt
  have h1 := (w 1).isLt
  have h2 := (w 2).isLt
  have h3 := (w 3).isLt
  have hzero : ∀ v : Word, v = 0 ↔ v.toNat = 0 := fun v ↦ toNat_inj.symm
  have hor : ∀ u v : Word, u ||| v = 0 ↔ u = 0 ∧ v = 0 := fun u v ↦ or_eq_zero_iff
  rw [Bool.eq_iff_iff, beq_iff_eq, isZero, beq_iff_eq]
  cases rep with
  | byte signed | word signed =>
    change bits [w 0] % 2 ^ 16 = 0 ↔ w 0 = 0
    rw [hzero, bits, bits]
    omega
  | long signed =>
    change bits [w 0, w 1] % 2 ^ 32 = 0 ↔ w 0 ||| w 1 = 0
    rw [hor, hzero, hzero, bits, bits, bits]
    omega
  | float =>
    change bits [w 0, w 1] % 2 ^ 31 = 0 ↔ w 0 ||| w 1 &&& 0x7fff = 0
    rw [hor, hzero, and_eq_zero_iff, bits, bits, bits]
    omega
  | double =>
    change bits [w 0, w 1, w 2, w 3] % 2 ^ 63 = 0 ↔ w 0 ||| w 1 ||| w 2 ||| w 3 &&& 0x7fff = 0
    rw [hor, hor, hor, hzero, hzero, hzero, and_eq_zero_iff, bits, bits, bits, bits, bits]
    omega
  | block n => cases hb

end Rep

end W16Compiler
