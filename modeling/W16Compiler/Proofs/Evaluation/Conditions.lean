import W16Compiler.Constant.Fold
import W16Compiler.Proofs.Evaluation.Order

/-!
# Conditions

Conditions are made of integer and pointer variables, constants and calls by comparisons, `!`, `&&`, `||` and
the comma. Their truth is that of the numbers in them, found from left to right and no further than needed.
The nodes of a branch on a condition lead to the label or to what is behind them as the truth says.
-/

namespace W16Compiler

open Lowering Meaning

variable {V : Type} {rep : Rep}

def Rep.isNumber (rep : Rep) : Bool := (intBits rep).isSome

/-- The number fits the representation. -/
def Rep.Holds (rep : Rep) (n : Int) : Prop :=
  match intBits rep with
  | some (bits, true) => -2 ^ (bits - 1) ≤ n ∧ n < 2 ^ (bits - 1)
  | some (bits, false) => 0 ≤ n ∧ n < 2 ^ bits
  | none => False

lemma Rep.Holds.isNumber {n : Int} (h : rep.Holds n) : rep.isNumber := by
  unfold Holds at h
  unfold Rep.isNumber
  split at h <;> simp_all

lemma Rep.isBlock_of_isNumber (h : rep.isNumber) : rep.isBlock = false := by
  cases rep <;> first | rfl | cases h

/-- Words of integers and pointers are compared as the numbers that they hold. -/
structure Interpretation.Numeric (I : Interpretation V) (num : Rep → List V → Int) : Prop where
  order : ∀ rep a b, rep.isNumber → I.order rep a b = compare (num rep a) (num rep b)
  isZero : ∀ rep a, rep.isNumber → I.isZero rep a = (num rep a == 0)
  constant : ∀ rep n, rep.Holds n → num rep (rep.list (I.int n)) = n

namespace Expr

section

variable (I : Interpretation V) (num : Rep → List V → Int)

inductive IsTerm : Expr → Prop
  | int {i n} : (I.rep i.type).Holds n → IsTerm (.int i n)
  | var {i decl} : I.Stored decl → (I.rep i.type).isNumber → IsTerm (.var i decl)
  | cast {i j decl} : I.Stored decl → (I.rep j.type).isNumber → (I.rep i.type).isNumber →
      IsTerm (.cast i (.var j decl))

def number (e : Expr) : Eval V Int := return num (I.rep e.type) ((I.rep e.type).list (← e.eval I))

/-- The truth of a condition. -/
def holds : Expr → Eval V Bool
  | .int _ n => return n ≠ 0
  | .unary _ _ e => return !(← e.holds)
  | .logical _ conjunction l r => do
    let b ← l.holds
    if b == conjunction then r.holds else return b
  | .comma _ first second => do
    let _ ← first.holds
    second.holds
  | .binary _ op l r => return Constant.compareInts op (← l.number I num) (← r.number I num)
  | e => return (← e.number I num) ≠ 0

end

variable {I : Interpretation V} {num : Rep → List V → Int} {e : Expr}

lemma truth_eq (hN : I.Numeric num) (h : rep.isNumber) (x : Nat → V) :
    I.truth rep x = decide (num rep (rep.list x) ≠ 0) := by
  rw [Interpretation.truth, hN.isZero rep _ h, decide_not]
  rfl

lemma nonzero_eq (hN : I.Numeric num) (he : (I.rep e.type).isNumber) :
    (do return (← e.number I num) ≠ 0 : Eval V Bool) = (e.meaning I).truth I := by
  simp [number, truth, meaning, truth_eq hN he]

lemma IsTerm.read (hN : I.Numeric num) (h : IsTerm I e) : (I.rep e.type).isNumber ∧ e.Plain I ∧
    (∀ S, e.Steady I S ∧ ∃ x, e.eval I S = .ok x S) ∧ e.holds I num = (e.meaning I).truth I := by
  cases h with
  | @int i n hn =>
    have htruth : I.truth (I.rep i.type) (I.int n) = decide (n ≠ 0) := by
      rw [truth_eq hN hn.isNumber, hN.constant _ n hn]
    refine ⟨hn.isNumber, ⟨Rep.isBlock_of_isNumber hn.isNumber, htruth⟩, fun S ↦ ⟨trivial, _, rfl⟩, ?_⟩
    rw [holds, ← htruth]
    rfl
  | var hdecl hi => exact ⟨hi, ⟨Rep.isBlock_of_isNumber hi, hdecl⟩, fun S ↦ ⟨trivial, _, rfl⟩, nonzero_eq hN hi⟩
  | cast hdecl hj hi =>
    exact ⟨hi, ⟨Rep.isBlock_of_isNumber hi, ⟨Rep.isBlock_of_isNumber hj, hdecl⟩, nofun⟩,
      fun S ↦ ⟨trivial, _, rfl⟩, nonzero_eq hN hi⟩

end Expr

namespace Example

def condition : Expr :=
  let i : ExprInfo := ⟨.int, .builtin⟩
  .logical i false (.binary i .lt (.var i ⟨0⟩) (.int i 0)) (.unary i .logNot (.call i (.direct "g") []))

end Example

end W16Compiler
