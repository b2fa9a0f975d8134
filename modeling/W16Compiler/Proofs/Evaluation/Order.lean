import W16Compiler.Proofs.Evaluation.Trees
import W16Compiler.Proofs.Prim.Optimize

/-!
# The order of evaluation

The nodes that an expression is lowered to evaluate it from left to right. Wherever they stand in a flow list
whose labels are defined once, a run through them ends with the value, the calls and the memory of the
evaluation, or with its exception, from every store in which the expression is steady.
-/

namespace W16Compiler

open Lowering List

variable {V α : Type} {n : Nat}

/-- A run from the first node of a piece of a flow list ends as an evaluation does: behind the piece with the
same calls and the same memory but for temporaries, or with the exception that is thrown. -/
def Flow.Ends (I : Interpretation V) (whole code rest : Flow) (S : Store V) (st : PrimState V)
    (Q : α → PrimState V → Prop) : EStateM.Result V (Store V) α → Prop
  | .ok a S' => ∃ st', (Flow.process I.toWorld whole).Reaches ⟨.running (code ++ rest, st), S.past⟩
      ⟨.running (rest, st'), S'.past⟩ ∧ Agrees I S'.state st' ∧ Q a st'
  | .error v S' => ∃ st', (Flow.process I.toWorld whole).Reaches ⟨.running (code ++ rest, st), S.past⟩
      ⟨whole.follow I.toModel rest (st'.raise I.toWorld v), S'.past⟩ ∧ Agrees I S'.state st'

/-- A piece of code performs an evaluation wherever it stands, if the slots are those of the interpretation. -/
def Flow.Performs (I : Interpretation V) (s : State) (code : Flow) (steady : Store V → Prop) (x : Eval V α)
    (Q : α → PrimState V → Prop) : Prop :=
  I.Fits s → ∀ front rest : Flow, (front ++ (code ++ rest)).labels.Nodup → ∀ S st, Agrees I S.state st → steady S →
    Flow.Ends I (front ++ (code ++ rest)) code rest S st Q (x S)

lemma Mirrors.performs
    (h : Mirrors I n s s' code steady x onward Q) (hs : s.reachable = true) (hR : ∀ S a st, Q S a st → R a st) :
    Flow.Performs I s' code steady x R := by
  intro hfits _ _ hnodup S st hagrees hsteady
  have hmeets := h hfits hs S st hagrees hsteady
  have hreaches := Flow.reaches_exec (W := I.toWorld) rfl hnodup S.past st
  cases hx : x S with
  | ok a S' =>
    rw [hx] at hmeets
    obtain ⟨st', hout, hagrees', -, hQ⟩ := hmeets
    rw [hout] at hreaches
    exact ⟨st', hreaches, hagrees', hR S a st' hQ⟩
  | error v S' =>
    rw [hx] at hmeets
    obtain ⟨st', hout, hagrees'⟩ := hmeets
    rw [hout] at hreaches
    exact ⟨st', hreaches, hagrees'⟩

/-- Lowering an expression for its value or for its effects gives code that performs the evaluation. -/
theorem Expr.lowered_performs {I : Interpretation V} (hI : I.Lawful) {C : Context} (hC : C.types = I.types)
    (hS : C.symbols = I.symbols) (e : Expr) (h : e.Plain I) (s : State) (hs : s.reachable = true) :
    (∃ v s' code, e.lowered.value C s = .ok (v, s') ∧ s'.prims.toList = s.prims.toList ++ code ∧
      Flow.Performs I s' code (e.Steady I) (e.eval I) fun x st ↦
        v.words I.toModel st (I.rep e.type) = (I.rep e.type).list x) ∧
    ∃ s' code, e.lowered.effect C s = .ok ((), s') ∧ s'.prims.toList = s.prims.toList ++ code ∧
      Flow.Performs I s' code (e.Steady I) (e.eval I) fun _ _ ↦ True := by
  have hcomputed := e.computed hI hC hS h
  constructor
  · obtain ⟨v, s', hrun, code, happ, -, hfollows⟩ := hcomputed.value s
    exact ⟨v, s', code, hrun, happ.prims, hfollows.performs hs fun _ _ _ hQ ↦ hQ.2.2.words⟩
  · obtain ⟨⟨⟩, s', hrun, code, happ, hfollows⟩ := hcomputed.effect s
    exact ⟨s', code, hrun, happ.prims, hfollows.performs hs fun _ _ _ _ ↦ trivial⟩

/-! ## An example -/

lemma Binary64.eq_zero_of_isZero (h : x.isZero = true) : x = zero false ∨ x = zero true := by
  obtain ⟨bits⟩ := x
  have hfield : ((bits >>> 52) &&& 0x7ff).toNat = bits.toNat / 2 ^ 52 % 2 ^ 11 := by
    rw [UInt64.toNat_and, UInt64.toNat_shiftRight]
    exact (Nat.and_two_pow_sub_one_eq_mod _ 11).trans (by rw [Nat.shiftRight_eq_div_pow]; rfl)
  have hfraction : (bits &&& 0xfffffffffffff).toNat = bits.toNat % 2 ^ 52 := by
    rw [UInt64.toNat_and]
    exact Nat.and_two_pow_sub_one_eq_mod _ 52
  have htwo : twoTo 52 = 2 ^ 52 := by decide
  simp only [isZero, value, hfield, hfraction, htwo] at h
  have hbits : bits.toNat = 0 ∨ bits.toNat = 2 ^ 63 := by
    have hlt := bits.toNat_lt
    split at h <;> grind
  rcases hbits with hbits | hbits
  · exact .inl (congrArg mk (UInt64.toNat_inj.mp hbits))
  · exact .inr (congrArg mk (UInt64.toNat_inj.mp hbits))

namespace Example

/-- The number that words hold. The bits of a floating number are ordered as the number is, but for the sign. -/
def number (rep : Rep) (vs : List Value) : Int :=
  let ws := vs.map fun v ↦ low [v]
  if rep.isFloat then
    let half := 2 ^ (16 * rep.words - 1)
    if Rep.bits ws < half then Rep.bits ws else half - Rep.bits ws
  else rep.number ws

/-- Two variables, in the first two slots; the other slots are temporaries. -/
def interpretation : Interpretation Value where
  toWorld := { world fun s ↦ 2 ≤ s.index with
    locate
      | .word w, offset => .outer (w + .ofInt 16 offset)
      | .pointer s base, offset => if 2 ≤ s.index then .outer 0 else .slot s (base + offset)
    cast _ _ vs i := vs.getD i (.word 0)
    order rep vs ws := compare (number rep vs) (number rep ws)
    isZero rep vs := number rep vs == 0 }
  types := .initial
  symbols := { decls := #[⟨"x", .variable .int .none .stack, .global, .builtin⟩,
    ⟨"y", .variable .int .none .stack, .global, .builtin⟩] }
  slotOf decl := ⟨decl.index⟩

lemma number_zero {rep : Rep} (hb : rep.isBlock = false) (hz : Operand.isZero z = true) :
    number rep (rep.list (interpretation.literal rep z)) = 0 := by
  cases z with
  | imm value =>
    obtain rfl : value = 0 := eq_of_beq hz
    cases rep with
    | block n => cases hb
    | byte signed | word signed | long signed => cases signed <;> decide +kernel
    | float | double => decide +kernel
  | float x =>
    rcases Binary64.eq_zero_of_isZero hz with rfl | rfl <;> cases rep with
    | block n => cases hb
    | byte signed | word signed | long signed => cases signed <;> decide +kernel
    | float | double => decide +kernel
  | load p => cases hz
  | address base offset => cases hz

open Interpretation in
lemma interpretation_lawful : interpretation.Lawful where
  truth_bool b := by cases b <;> decide +kernel
  order_swap rep a b := Std.OrientedOrd.eq_swap (a := number rep b)
  order_zero rep a z hb hz := by
    simp only [interpretation, beq_iff_eq, Std.compare_eq_iff_eq]
    rw [← number_zero hb hz]
    rfl
  order_unsigned rep a z hb hsigned hz := by
    have hle : 0 ≤ number rep a := by
      cases rep with
      | block n => cases hb
      | byte signed | word signed | long signed =>
        cases hsigned
        exact Int.natCast_nonneg _
      | float | double => cases hsigned
    change compare (number rep a) (number rep (rep.list (interpretation.literal rep z))) ≠ .lt
    rw [number_zero hb hz, Ne, compare_lt_iff_lt]
    exact Int.not_lt.mpr hle
  cast_same v source target value hsame hne hb i hi := by
    have hwords := lt_of_lt_of_le hi (words_le_of_sameBits hsame hb)
    simp [interpretation, Rep.list, getD_eq_getElem?_getD, hwords]
  locate_address base offset k hbase := by
    cases base with
    | slot s =>
      have hs : ¬ 2 ≤ s.index := by simpa [interpretation, world] using hbase s rfl
      simp [interpretation, world, Model.address, Locus.cell, hs]
    | param | global label => simp [interpretation, world, Model.address, Locus.cell, BitVec.ofInt_add]
  advance_address base offset k hk := by
    have hword : constantWord (.ofInt 64 k) 0 = .ofInt 16 k := by
      rw [constantWord_ofInt k (by decide)]
      simp
    have htoInt : (BitVec.ofInt 16 k).toInt = k := by
      rw [BitVec.toInt_ofInt]
      exact Int.bmod_eq_of_le (by omega) (by omega)
    cases base with
    | slot s => simp [advance, int, interpretation, world, Model.address, sum, hword, htoInt]
    | param | global label =>
      simp [advance, int, interpretation, world, Model.address, sum, low, hword, BitVec.ofInt_add]
  locate_visible v k s word h := by
    cases v with
    | word w => cases h
    | pointer t base =>
      simp only [interpretation, world] at h ⊢
      split at h
      · cases h
      · cases h
        simpa using ‹¬ 2 ≤ s.index›
  answer_visible _ _ _ _ := rfl

def sumCall : Expr :=
  let i : ExprInfo := ⟨.int, .builtin⟩
  .binary i .add (.incDec i false true (.var i ⟨1⟩) 1) (.call i (.direct "g") [.var i ⟨0⟩])

lemma sumCall_plain : sumCall.Plain interpretation := by
  refine ⟨⟨rfl, rfl, rfl⟩, ⟨rfl, rfl, trivial⟩, rfl, .inr rfl, trivial, ⟨rfl, trivial⟩, trivial⟩

lemma sumCall_steady (S : Store Value) : sumCall.Steady interpretation S := by
  refine ⟨trivial, fun x S1 _ ↦ ⟨⟨⟨trivial, fun y S2 _ ↦ ⟨trivial, ?_⟩⟩, ?_⟩, ?_⟩⟩
  · rintro _ _ h
    cases h
    exact fun _ _ ↦ rfl
  · rintro _ _ h
    refine ⟨trivial, ?_⟩
    rintro _ _ _ h
    cases h
    refine ⟨fun _ _ ↦ rfl, ?_⟩
    rintro c ((hc | ⟨y, _, _, hc⟩) | hc) k _ rfl
    · obtain ⟨i, _, hc⟩ := hc
      cases hc
    · cases hc
    · cases hc
  · rintro y _ _ c ⟨h, _⟩
    cases h

def context : Context where
  types := interpretation.types
  symbols := interpretation.symbols

def lowering : State where
  nextLabel := 0
  loc := .builtin
  slots := #[⟨1, false⟩, ⟨1, false⟩]
  locals := [(⟨0⟩, ⟨0⟩), (⟨1⟩, ⟨1⟩)]

def sumCode : Flow :=
  let node (p : Prim) : Item Prim := ⟨p, some .builtin⟩
  [node (.assign (.word true) (.slot ⟨2⟩ 0) (.load (.slot ⟨1⟩ 0))),
    node (.binary .add (.word true) (.slot ⟨1⟩ 0) (.load (.slot ⟨2⟩ 0)) (.imm 1)),
    node (.callStart 1),
    node (.assign (.word true) (.arg 0) (.load (.slot ⟨0⟩ 0))),
    node (.call (.direct "g") 1 (some (.slot ⟨3⟩ 0, .word true))),
    node (.binary .add (.word true) (.slot ⟨4⟩ 0) (.load (.slot ⟨2⟩ 0)) (.load (.slot ⟨3⟩ 0)))]

def lowered : State := { lowering with
  prims := sumCode.toArray
  slots := #[⟨1, false⟩, ⟨1, false⟩, ⟨1, true⟩, ⟨1, true⟩, ⟨1, true⟩] }

lemma sumCall_lowered : sumCall.lowered.value context lowering = .ok (.load (.slot ⟨4⟩ 0), lowered) := rfl

lemma fits_of_slots (hlocals : s.locals = lowering.locals)
    (hslots : s.slots.toList = ⟨1, false⟩ :: ⟨1, false⟩ :: replicate n ⟨1, true⟩) : interpretation.Fits s where
  temps k slot hk := by
    rw [← Array.getElem?_toList, hslots] at hk
    match k with
    | 0 | 1 => cases hk; rfl
    | k + 2 =>
      obtain rfl : slot = ⟨1, true⟩ := eq_of_mem_replicate (mem_of_getElem? hk)
      exact decide_eq_true (Nat.le_add_left 2 k)
  locals decl slot hl := by
    simp only [hlocals, lowering, lookup_cons, lookup_nil] at hl
    grind [interpretation, world]

/-- `x` is three and `y` five. -/
def memory : PrimState Value where
  mem c := if c = .slot ⟨0⟩ 0 then .word 3 else .word 5
  sp := 0
  mark := none
  records _ := none
  links _ := none

end Example

open Example

/-- `y` is incremented before `g` is called with three, which gives seven, and its old value is added. -/
theorem Expr.lowered_performs_sum :
    sumCall.lowered.value context lowering = .ok (.load (.slot ⟨4⟩ 0), Example.lowered) ∧
    ∃ st' event, (Flow.process interpretation.toWorld sumCode).Reaches
        ⟨.running (sumCode, memory), []⟩ ⟨.running ([], st'), [event]⟩ ∧
      (event.target = .inl "g" ∧ event.args = [.word 3] ∧ event.memory (.slot ⟨1⟩ 0) = some (.word 6)) ∧
      st'.mem (.slot ⟨1⟩ 0) = .word 6 ∧ st'.mem (.slot ⟨4⟩ 0) = .word 12 := by
  obtain ⟨⟨v, s', code, hrun, hprims, hperforms⟩, -⟩ := Expr.lowered_performs interpretation_lawful
    (C := context) rfl rfl sumCall sumCall_plain lowering rfl
  rw [sumCall_lowered] at hrun
  cases hrun
  obtain rfl : sumCode = code := hprims
  have hends := hperforms (fits_of_slots (n := 3) rfl rfl) [] [] (by decide) ⟨[], memory⟩
    memory (.refl _ _) (sumCall_steady _)
  obtain ⟨x, S, event, heval, hpast, hevent, hy, hx⟩ : ∃ x S event,
      sumCall.eval interpretation ⟨[], memory⟩ = .ok x S ∧ S.past = [event] ∧
      (event.target = .inl "g" ∧ event.args = [.word 3] ∧ event.memory (.slot ⟨1⟩ 0) = some (.word 6)) ∧
      S.state.mem (.slot ⟨1⟩ 0) = .word 6 ∧ x 0 = .word 12 := ⟨_, _, _, rfl, rfl, ⟨rfl, rfl, rfl⟩, rfl, rfl⟩
  rw [heval] at hends
  obtain ⟨st', hreaches, hagrees, hwords⟩ := hends
  rw [hpast] at hreaches
  have hvisible : ¬ interpretation.Temporary (.slot ⟨1⟩ 0) := Bool.false_ne_true
  refine ⟨sumCall_lowered, st', event, hreaches, hevent, ?_, ?_⟩
  · exact (hagrees.mem _ hvisible).trans hy
  · exact (List.cons.inj hwords).1.trans hx

/-- A variable that is incremented to its right is read too late: from three, `x + x++` is six, and the code that
it is lowered to gives seven. -/
theorem Expr.exists_lowered_reads_later : ∃ e : Expr, e.Plain interpretation ∧ ∃ v s' x S st',
    e.lowered.value context lowering = .ok (v, s') ∧ interpretation.Fits s' ∧
    e.eval interpretation ⟨[], memory⟩ = .ok x S ∧ x 0 = .word 6 ∧
    (Flow.process interpretation.toWorld s'.prims.toList).Reaches
      ⟨.running (s'.prims.toList, memory), []⟩ ⟨.running ([], st'), []⟩ ∧
    v.words interpretation.toModel st' (.word true) = [.word 7] := by
  let i : ExprInfo := ⟨.int, .builtin⟩
  refine ⟨.binary i .add (.var i ⟨0⟩) (.incDec i false true (.var i ⟨0⟩) 1),
    ⟨⟨rfl, rfl, rfl⟩, ⟨rfl, trivial⟩, rfl, rfl, trivial⟩, ?_⟩
  exact ⟨.load (.slot ⟨3⟩ 0), _, _, _, _, rfl, fits_of_slots (n := 2) rfl rfl, rfl, rfl, ⟨3, rfl⟩, rfl⟩

end W16Compiler
