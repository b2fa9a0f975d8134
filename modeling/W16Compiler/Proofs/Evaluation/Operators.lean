import W16Compiler.Proofs.Evaluation.Agreement

/-!
# Code for operators

The code of an operator follows its evaluation if that of the operands does.
-/

namespace W16Compiler

open Lowering Operand Flow KeepsTemps Interpretation

variable {V : Type} {past : List (CallEvent V)} {loc : Option Location}

/-- What is to be known of an expression: its evaluation, where it is steady, the cells that its value waits to be
read from, and the form of the operand. -/
structure Meaning (V : Type) where
  rep : Rep
  value : Eval V (Nat → V)
  steady : Store V → Prop
  sources : Store V → Cell → Prop
  form : Operand → Prop

def Meaning.Gives (d : Meaning V) (I : Interpretation V) (C : Context) (x : LowerM Operand) : Prop :=
  ∀ s, Makes C s.nextLabel s x fun v s' code ↦ d.form v ∧
    Mirrors I s.slots.size s s' code d.steady d.value onward fun S value st ↦ s'.reachable = true ∧
      (∀ t offset, v = .address (.slot t) offset → I.hidden t = false) ∧
      Stands I s'.slots.size (d.sources S) v d.rep value st

abbrev taken (sense : Bool) (target : Label) (b : Bool) (st : PrimState V) : Move V :=
  if b = sense then .goto target st else .next st

/-- Code that goes to a label if a truth value is the given one, and on otherwise. -/
def BranchesOn (I : Interpretation V) (C : Context) (steady : Store V → Prop) (x : Eval V Bool)
    (branch : Bool → Label → LowerM Unit) : Prop :=
  ∀ s sense target, target.index < s.nextLabel → Makes C s.nextLabel s (branch sense target) fun _ s' code ↦
    Mirrors I s.slots.size s s' code steady x (taken sense target) fun _ b _ ↦ b ≠ sense → s'.reachable = true

def Meaning.truth (d : Meaning V) (I : Interpretation V) : Eval V Bool := do return I.truth d.rep (← d.value)

/-- Each way of using a lowered expression follows the evaluation. -/
structure Meaning.Computed (d : Meaning V) (I : Interpretation V) (C : Context) (e : Lowered) : Prop where
  value : d.Gives I C e.value
  effect : ∀ s, Makes C s.nextLabel s e.effect fun _ s' code ↦
    Mirrors I s.slots.size s s' code d.steady d.value onward fun _ _ _ ↦ s'.reachable = true
  branch : BranchesOn I C d.steady (d.truth I) e.branch

section

variable {α β : Type} {I : Interpretation V} {n : Nat} {st : PrimState V} {S : Store V} {code rest : Flow}
  {x : Eval V α} {dest dest' : α → PrimState V → Move V} {Q R : α → PrimState V → Prop} {m : Nat}
  {out : List (CallEvent V) × Move V}

lemma Meets.reads {f : α → Eval V β} {g : α → Store V → β} {dest' : β → PrimState V → Move V}
    {R : β → PrimState V → Prop} (hx : Meets I n st out (x S) dest Q) (hm : m ≤ n)
    (hf : ∀ a S', f a S' = .ok (g a S') S') (hdest : ∀ a S' st', dest a st' = dest' (g a S') st')
    (hR : ∀ a S' st', x S = .ok a S' → Agrees I S'.state st' → KeepsTemps I n st st' → Q a st' → R (g a S') st') :
    Meets I m st out ((x >>= f) S) dest' R := by
  cases hxS : x S with
  | error v S' =>
    rw [hxS] at hx
    rw [eval_bind_error hxS]
    exact hx
  | ok a S' =>
    rw [hxS] at hx
    obtain ⟨st', hout, hagrees, hkeeps, hQ⟩ := hx
    rw [eval_bind_ok hxS, hf]
    exact ⟨st', hdest a S' st' ▸ hout, hagrees, hkeeps.mono hm, hR a S' st' hxS hagrees hkeeps hQ⟩

lemma Meets.map {g : α → β} {dest' : β → PrimState V → Move V} {R : β → PrimState V → Prop}
    (hx : Meets I n st out (x S) dest Q) (hm : m ≤ n) (hdest : ∀ a st', dest a st' = dest' (g a) st')
    (hR : ∀ a S' st', x S = .ok a S' → Agrees I S'.state st' → KeepsTemps I n st st' → Q a st' → R (g a) st') :
    Meets I m st out ((x >>= fun a ↦ Pure.pure (g a)) S) dest' R :=
  hx.reads hm (fun _ _ ↦ rfl) (fun a _ ↦ hdest a) hR

variable (hx : Meets I n st (Flow.exec I.toWorld code none S.past st) (x S) dest Q)

include hx

lemma Meets.andThen {dest' : α → PrimState V → Move V} {R : α → PrimState V → Prop} (hm : m ≤ n)
    (hrest : ∀ a S' st', x S = .ok a S' → Agrees I S'.state st' → Q a st' →
      ∃ st'', carryOn I.toWorld rest (S'.past, dest a st') = (S'.past, dest' a st'') ∧ Agrees I S'.state st'' ∧
      KeepsTemps I m st' st'' ∧ R a st'') :
    Meets I m st (exec I.toWorld (code ++ rest) none S.past st) (x S) dest' R := by
  have h : Meets I m st (exec I.toWorld (code ++ rest) none S.past st) ((x >>= Pure.pure) S) dest' R :=
    (hx.mono hm fun _ _ hq ↦ hq).bind fun a S' st' ha hagrees _ hQ ↦ hrest a S' st' ha hagrees hQ
  rwa [bind_pure] at h

lemma Meets.passing {dest' : α → PrimState V → Move V} {R : α → PrimState V → Prop} (hm : m ≤ n)
    (hrest : ∀ a (S' : Store V) st', Q a st' →
      carryOn I.toWorld rest (S'.past, dest a st') = (S'.past, dest' a st')) (hR : ∀ a st', Q a st' → R a st') :
    Meets I m st (exec I.toWorld (code ++ rest) none S.past st) (x S) dest' R :=
  hx.andThen hm fun a S' st' _ hagrees hQ ↦ ⟨st', hrest a S' st' hQ, hagrees, refl _ _ _, hR a st' hQ⟩

omit hx

lemma Meets.from (h : Meets I n st1 out result dest Q)
    (hkeeps : KeepsTemps I n st st1) : Meets I n st out result dest Q := by
  cases result with
  | error v S => exact h
  | ok a S =>
    obtain ⟨st', hout, hagrees, hkeeps', hQ⟩ := h
    exact ⟨st', hout, hagrees, hkeeps.trans hkeeps', hQ⟩

end

section

variable {I : Interpretation V} {C : Context} (hC : C.types = I.types) {type : TypeId} {d : Meaning V} {target : Label}
  {β : Type} {lo : Nat} {s : State} {R : β → State → Flow → Prop} {v lhs : Operand} {steady : Store V → Prop}
  {branch : Bool → Label → LowerM Unit} {cond : Cond} {k : Place → LowerM β}

lemma carryOn_label {st : PrimState V} {l : Label} (h : target ≠ l) :
    carryOn I.toWorld [⟨.label l, loc⟩] (past, taken sense target b st) = (past, taken sense target b st) := by
  by_cases hb : b = sense
  · rw [taken, if_pos hb]
    exact exec_passed fun heq ↦ h (Option.some.inj heq).symm
  · rw [taken, if_neg hb]
    rfl

lemma exec_test {st : PrimState V} (sense : Bool) (rep : Rep) (v : Operand) (target : Label) :
    exec I.toWorld [⟨.test sense rep v target, loc⟩] none past st =
      (past, taken sense target (!I.isZero rep (v.words I.toModel st rep)) st) := by
  rw [exec_cons]
  simp only [Prim.act, taken]
  cases hz : I.isZero rep (v.words I.toModel st rep) <;> cases sense <;> rfl

include hC in
lemma Lowering.Makes.repIn (hf : Makes C lo s (f (I.rep type)) R) : Makes C lo s (Lowering.repOf type >>= f) R :=
  .repOf (by rwa [hC])

include hC in
lemma Meaning.Computed.ofValue {x : LowerM Operand} (hrep : d.rep = I.rep type) (hx : d.Gives I C x) :
    d.Computed I C (Lowered.ofValue type x) where
  value := hx
  effect s := by
    refine .map ((hx s).mono le_rfl fun v s' _ _ ⟨_, h⟩ hfits hr S st hagrees hsteady ↦ ?_)
    exact (h hfits hr S st hagrees hsteady).mono le_rfl fun _ _ hq ↦ hq.1
  branch s sense target htarget := by
    refine .repIn hC ((hx s).bind fun v s1 _ happ ⟨_, h⟩ ↦ .emit happ.nextLabel rfl fun s' _ happ' hcode hreach _ ↦ ?_)
    rw [← hrep] at hcode
    intro hfits hr S st hagrees hsteady
    have hfits1 : I.Fits s1 := hfits.before happ'
    refine (h hfits1 hr S st hagrees hsteady).bind fun _ S' st' hx hagrees' _ ⟨hr1, _, hstands⟩ ↦ ?_
    rw [hcode hr1]
    refine .pure ?_ hagrees' (refl _ _ _) fun _ ↦ hreach
    rw [carryOn, exec_test, hstands.words]
    rfl

lemma Meaning.Computed.mono {e : Lowered} {d' : Meaning V} (h : d.Computed I C e) (hrep : d.rep = d'.rep)
    (hvalue : d.value = d'.value) (hsteady : ∀ S, d'.steady S → d.steady S)
    (hsources : ∀ S c, d.sources S c → d'.sources S c) (hform : ∀ v, d.form v → d'.form v) : d'.Computed I C e where
  value s := by
    refine (h.value s).mono le_rfl fun v s' _ _ ⟨hv, hcode⟩ ↦ ⟨hform v hv, fun hfits hr S st hagrees hS ↦ ?_⟩
    rw [← hvalue, ← hrep]
    exact (hcode hfits hr S st hagrees (hsteady S hS)).mono le_rfl fun x st' ⟨hr', hvisible, hstands⟩ ↦
      ⟨hr', hvisible, hstands.mono le_rfl (hsources S)⟩
  effect s := by
    refine (h.effect s).mono le_rfl fun _ s' _ _ hcode hfits hr S st hagrees hS ↦ ?_
    rw [← hvalue]
    exact hcode hfits hr S st hagrees (hsteady S hS)
  branch s sense target htarget := by
    refine (h.branch s sense target htarget).mono le_rfl fun _ s' _ _ hcode hfits hr S st hagrees hS ↦ ?_
    rw [Meaning.truth, ← hvalue, ← hrep]
    exact hcode hfits hr S st hagrees (hsteady S hS)

lemma Meaning.Computed.ofConstant {truth : Bool} {sources : Store V → Cell → Prop} {form : Operand → Prop}
    (hv : ∀ p, v ≠ .load p) (hvisible : ∀ t offset, v = .address (.slot t) offset → I.hidden t = false)
    (htruth : I.truth (I.rep type) (I.literal (I.rep type) v) = truth) (hform : form v) :
    Meaning.Computed ⟨I.rep type, return I.literal (I.rep type) v, steady, sources, form⟩ I C
      (Lowered.ofConstant type v truth) where
  value s := by
    refine .pure ⟨hform, fun _ hr S st hagrees _ ↦ ?_⟩
    exact .pure rfl hagrees (refl _ _ _) ⟨hr, hvisible, stands_literal hv⟩
  effect s := .pure fun _ hr S st hagrees _ ↦ .pure rfl hagrees (refl _ _ _) hr
  branch s sense target _ := by
    refine .ite (fun hsense ↦ ?_) fun hsense ↦ ?_
    · have htaken : I.truth (I.rep type) (I.literal (I.rep type) v) = sense := htruth.trans (beq_iff_eq.mp hsense)
      refine .jump le_rfl fun s' _ _ hcode _ _ hr S st hagrees _ ↦ ?_
      refine .pure ?_ hagrees (refl _ _ _) fun hne ↦ absurd htaken hne
      rw [hcode hr, exec_jump rfl, taken, if_pos htaken]
    · have htaken : I.truth (I.rep type) (I.literal (I.rep type) v) ≠ sense := by
        rw [htruth]
        exact beq_eq_false_iff_ne.mp hsense
      refine .pure fun _ hr S st hagrees _ ↦ .pure ?_ hagrees (refl _ _ _) fun _ ↦ hr
      rw [exec, taken, if_neg htaken]

/-! ## Temporaries -/

/-- Code that does nothing but fill a new temporary, with what is computed in the state before it. -/
structure Fills (I : Interpretation V) (lo : Nat) (s s' : State) (code : Flow) (rep : Rep)
    (val : PrimState V → Nat → V) : Prop where
  appends : Appends lo s s' code
  size : s'.slots.size = s.slots.size + 1
  reachable : s'.reachable = true
  hidden : I.Fits s' → I.hidden ⟨s.slots.size⟩ = true
  exec : s.reachable = true → ∀ past st, Flow.exec I.toWorld code none past st =
    (past, .next (st.write I.toModel (.slot ⟨s.slots.size⟩ 0) rep.words (val st)))

lemma Lowering.Makes.compute {rep : Rep} {node : Place → Prim} {val : PrimState V → Nat → V}
    (I : Interpretation V) (hlo : lo ≤ s.nextLabel) (hlabel : ∀ t, (node t).definedLabel = none)
    (hfalls : ∀ t, (node t).fallsThrough = true)
    (hact : ∀ past st t, (node t).act I.toWorld past st = (none, .next (st.write I.toModel t rep.words (val st))))
    (hk : ∀ s' code, Fills I lo s s' code rep val →
      Makes C lo s' (k (.slot ⟨s.slots.size⟩ 0)) fun b s2 code' ↦ R b s2 (code ++ code')) :
    Makes C lo s (do
      let t ← Lowering.newTemp rep
      Lowering.emit (node t)
      k t) R := by
  refine .newTemp (.emitThen hlo (hlabel _) fun s' code happ hcode hreach hslots ↦ ?_)
  have happ' : Appends lo s s' code := (Appends.withTemp lo s rep).trans (happ.mono hlo)
  refine hk s' code ⟨happ', ?_, hreach.trans (hfalls _), fun hfits ↦ (hfits.before happ).hidden_temp,
    fun hr past st ↦ ?_⟩
  · rw [hslots]
    exact Array.size_push _
  · rw [hcode hr]
    exact exec_single (hact past st _)

lemma Lowering.Makes.copied {rep : Rep} (I : Interpretation V) (hlo : lo ≤ s.nextLabel)
    (hk : ∀ s' code, Fills I lo s s' code rep (assignedWord I.toModel · rep v) →
      Makes C lo s' (k (.slot ⟨s.slots.size⟩ 0)) fun b s2 code' ↦ R b s2 (code ++ code')) :
    Makes C lo s (copied rep v >>= k) R := by
  have hcopied : (Lowering.copied rep v >>= k) = (do
      let t ← Lowering.newTemp rep
      Lowering.emit (.assign rep t v)
      k t) := by
    simp [Lowering.copied, bind_assoc]
  rw [hcopied]
  exact .compute I hlo (fun _ ↦ rfl) (fun _ ↦ rfl) (fun _ _ _ ↦ rfl) hk

/-! ## Arithmetic -/

variable {e l r : Lowered} {dl dr : Meaning V} {sources : Store V → Cell → Prop} {form : Operand → Prop}
  {x : Eval V Bool}

include hC in
lemma Meaning.Computed.negation {op : PrimUnary} (he : d.Computed I C e) (hrep : d.rep = I.rep type)
    (hform : ∀ p, form (.load p)) :
    Meaning.Computed ⟨I.rep type, do return I.unary op (I.rep type) ((I.rep type).list (← d.value)), d.steady,
      sources, form⟩ I C (negation type op e) := by
  refine .ofValue hC rfl fun s ↦ (he.value s).bind fun v s1 _ happ ⟨_, h⟩ ↦ .repIn hC ?_
  refine .compute I happ.nextLabel (fun _ ↦ rfl) (fun _ ↦ rfl) (fun _ _ _ ↦ rfl) fun s' _ hc ↦ .pure ⟨hform _, ?_⟩
  intro hfits hr S st hagrees hsteady
  rw [List.append_nil]
  refine (h (hfits.before hc.appends) hr S st hagrees hsteady).bind fun x S1 st1 _ hagrees1 _ ⟨hr1, _, hstands⟩ ↦ ?_
  refine .pure (hc.exec hr1 _ _) (hagrees1.write_temp (hc.hidden hfits) _ _) (keeps_write_temp happ.size _ _)
    ⟨hc.reachable, nofun, ?_⟩
  have hwords : v.words I.toModel st1 (I.rep type) = (I.rep type).list x := hrep ▸ hstands.words
  exact stands_temp (hc.hidden hfits) (by simp [hc.size]) le_rfl fun i _ ↦ by rw [hwords]

/-! ## Two operands -/

namespace Meaning

def pair (dl dr : Meaning V) : Eval V ((Nat → V) × (Nat → V)) := do
  let x ← dl.value
  let y ← dr.value
  return (x, y)

def SteadyPair (dl dr : Meaning V) (S : Store V) : Prop :=
  dl.steady S ∧ ∀ x S₁, dl.value S = .ok x S₁ →
    dr.steady S₁ ∧ ∀ y S₂, dr.value S₁ = .ok y S₂ → S₁.SameIn (dl.sources S) S₂

lemma pair_bind {β : Type} (dl dr : Meaning V) (f : (Nat → V) → (Nat → V) → Eval V β) :
    (dl.value >>= fun x ↦ dr.value >>= fun y ↦ f x y) = dl.pair dr >>= fun p ↦ f p.1 p.2 := by
  simp [pair, bind_assoc]

lemma Gives.both {β : Type} {x y : LowerM Operand} {s : State} {k : Operand → Operand → LowerM β}
    {R : β → State → Flow → Prop} (hx : dl.Gives I C x) (hy : dr.Gives I C y)
    (hk : ∀ v w s' code, Appends s.nextLabel s s' code →
      Mirrors I s.slots.size s s' code (dl.SteadyPair dr) (dl.pair dr) onward (fun _ p st ↦ s'.reachable = true ∧
        v.words I.toModel st dl.rep = dl.rep.list p.1 ∧ w.words I.toModel st dr.rep = dr.rep.list p.2) →
      Makes C s.nextLabel s' (k v w) fun b s2 code' ↦ R b s2 (code ++ code')) :
    Makes C s.nextLabel s (x >>= fun v ↦ y >>= fun w ↦ k v w) R := by
  refine (hx s).bind fun v s1 code happ ⟨_, h⟩ ↦ (hy s1).bindFrom happ.nextLabel fun w s2 code' happ' ⟨_, h'⟩ ↦ ?_
  have hfollows : Mirrors I s.slots.size s s2 (code ++ code') (dl.SteadyPair dr) (dl.pair dr) onward (fun _ p st ↦
      s2.reachable = true ∧ v.words I.toModel st dl.rep = dl.rep.list p.1 ∧
        w.words I.toModel st dr.rep = dr.rep.list p.2) := by
    intro hfits hr S st hagrees hsteady
    refine (h (hfits.before happ') hr S st hagrees hsteady.1).bind fun a S1 st1 ha hagrees1 _ ⟨hr1, _, hv⟩ ↦ ?_
    have hsteady' := hsteady.2 a S1 ha
    refine (h' hfits hr1 S1 st1 hagrees1 hsteady'.1).map happ.size (fun _ _ ↦ rfl) ?_
    intro b S2 st2 hb hagrees2 hkeeps ⟨hr2, _, hw⟩
    exact ⟨hr2, (hv.across hagrees1 hagrees2 (hsteady'.2 b S2 hb) hkeeps).words, hw.words⟩
  refine (hk v w s2 (code ++ code') (happ.trans (happ'.mono happ.nextLabel)) hfollows).mono le_rfl fun b s3 _ _ hR ↦ ?_
  rwa [List.append_assoc] at hR

end Meaning

include hC in
lemma Meaning.Computed.arithmetic (hl : dl.Computed I C l) (hr : dr.Computed I C r)
    (hrepl : dl.rep = I.rep type) (hrepr : dr.rep = rightRep op (I.rep type)) (hform : ∀ p, form (.load p)) :
    Meaning.Computed ⟨I.rep type, do
      let x ← dl.value
      let y ← dr.value
      return I.binary op (I.rep type) ((I.rep type).list x) ((rightRep op (I.rep type)).list y),
      dl.SteadyPair dr, sources, form⟩ I C (arithmetic type op l r) := by
  refine .ofValue hC rfl fun s ↦ hl.value.both hr.value fun v w s2 _ happ h ↦ .repIn hC ?_
  refine .compute I happ.nextLabel (fun _ ↦ rfl) (fun _ ↦ rfl) (fun _ _ _ ↦ rfl) fun s' _ hc ↦ .pure ⟨hform _, ?_⟩
  intro hfits hr S st hagrees hsteady
  rw [List.append_nil, Meaning.pair_bind]
  refine (h (hfits.before hc.appends) hr S st hagrees hsteady).bind fun p S2 st2 _ hagrees2 _ ⟨hr2, hv, hw⟩ ↦ ?_
  refine .pure (hc.exec hr2 _ _) (hagrees2.write_temp (hc.hidden hfits) _ _) (keeps_write_temp happ.size _ _)
    ⟨hc.reachable, nofun, ?_⟩
  rw [hrepl] at hv
  rw [hrepr] at hw
  exact stands_temp (hc.hidden hfits) (by simp [hc.size]) le_rfl fun i _ ↦ by rw [hv, hw]

/-! ## Truth values -/

lemma BranchesOn.congr (h : BranchesOn I C steady x branch) (hxy : x = y) : BranchesOn I C steady y branch := hxy ▸ h

include hC in
lemma Meaning.Computed.ofBranch (hI : I.Lawful) (hrep : I.rep type = truthRep)
    (hb : BranchesOn I C steady x branch) (hform : ∀ p, form (.load p)) :
    Meaning.Computed ⟨I.rep type, do return I.bool (← x), steady, sources, form⟩ I C
      (Lowered.ofBranch type branch) := by
  have hvalue : Meaning.Gives ⟨I.rep type, do return I.bool (← x), steady, sources, form⟩ I C
      (Lowered.ofBranch type branch).value := by
    intro s
    refine .newTemp (.newLabel (.emitThen (Nat.le_succ _) rfl fun s3 _ happ1 hcode1 hreach1 hslots1 ↦ ?_))
    have hn : s.slots.size < s3.slots.size := by
      rw [hslots1]
      exact Nat.lt_of_lt_of_eq (Nat.lt_succ_self _) (Array.size_push _).symm
    have hlt : s.nextLabel < s3.nextLabel := happ1.nextLabel
    refine (hb s3 true ⟨s.nextLabel⟩ hlt).bindFrom (le_of_lt hlt) fun _ s4 _ happ2 h ↦ ?_
    have hlt4 : s.nextLabel < s4.nextLabel := lt_of_lt_of_le hlt happ2.nextLabel
    refine .emitThen (le_of_lt hlt4) rfl fun s5 code3 happ3 hcode3 _ hslots3 ↦ ?_
    have hlt5 : s.nextLabel < s5.nextLabel := lt_of_lt_of_le hlt4 happ3.nextLabel
    refine .markThen le_rfl hlt5 fun s6 happ6 hreach6 hslots6 ↦ .pure ⟨hform _, ?_⟩
    intro hfits hr S st hagrees hsteady
    have hfits4 : I.Fits s4 := (hfits.before happ6).before happ3
    have ht : I.hidden ⟨s.slots.size⟩ = true :=
      (((hfits4.before happ2).before happ1).before (.withLabel 0 _)).hidden_temp
    have hdone : (⟨s.nextLabel⟩ : Label) ∉ code3.labels := happ3.not_mem_labels hlt4
    rw [hcode1 hr, exec_append_next (exec_assign _ _ _)]
    have hone := hagrees.write_temp ht 1 (assignedWord I.toModel st truthRep (.imm 1))
    refine (((h hfits4 hreach1 S _ hone hsteady).keeping (le_of_lt hn)).bind
      fun b S1 st2 _ hagrees2 _ ⟨hreach4, hkept⟩ ↦ ?_).from (keeps_write_temp le_rfl _ _)
    have hlast : s3.slots.size ≤ s6.slots.size := by
      rw [hslots6, hslots3]
      exact happ2.size
    cases b with
    | true =>
      refine .pure ?_ hagrees2 (refl _ _ _) ⟨hreach6, nofun, ?_⟩
      · rw [taken, if_pos rfl]
        exact carryOn_skip hdone _
      · have hstands : Stands I s3.slots.size (fun _ ↦ False) (.load (.slot ⟨s.slots.size⟩ 0)) (I.rep type)
            (I.bool true) (st.write I.toModel (.slot ⟨s.slots.size⟩ 0) truthRep.words
              (assignedWord I.toModel st truthRep (.imm 1))) :=
          stands_temp ht hn (le_of_eq (congrArg Rep.words hrep)) fun i _ ↦ rfl
        exact (hstands.later nofun hkept).mono hlast nofun
    | false =>
      refine .pure ?_ (hagrees2.write_temp ht 1 (assignedWord I.toModel st2 truthRep (.imm 0)))
        (keeps_write_temp le_rfl _ _) ⟨hreach6, nofun, ?_⟩
      · rw [taken, if_neg Bool.noConfusion, carryOn, hcode3 (hreach4 Bool.noConfusion),
          exec_append_next (exec_assign _ _ _)]
        rfl
      · exact stands_temp ht (lt_of_lt_of_le hn hlast) (le_of_eq (congrArg Rep.words hrep)) fun i _ ↦ rfl
  refine ⟨hvalue, (Meaning.Computed.ofValue hC rfl hvalue).effect, hb.congr ?_⟩
  simp [Meaning.truth, hrep, hI.truth_bool]

lemma BranchesOn.not (hb : BranchesOn I C steady x branch) :
    BranchesOn I C steady (do return !(← x)) fun sense ↦ branch !sense := by
  intro s sense target htarget
  refine (hb s (!sense) target htarget).mono le_rfl fun _ s' _ _ h hfits hr S st hagrees hsteady ↦ ?_
  refine (h hfits hr S st hagrees hsteady).map le_rfl (fun b st' ↦ ?_) fun b S' st' _ _ _ hreach hne ↦ hreach ?_
  · cases b <;> cases sense <;> rfl
  · rintro rfl
    simp at hne

include hC in
lemma Meaning.Computed.logicalNot (hI : I.Lawful) (he : d.Computed I C e) (hrep : I.rep type = truthRep)
    (hform : ∀ p, form (.load p)) :
    Meaning.Computed ⟨I.rep type, do return I.bool (!I.truth d.rep (← d.value)), d.steady, sources, form⟩ I C
      (logicalNot type e) := by
  have h : Meaning.Computed ⟨I.rep type, _, _, sources, form⟩ I C _ := .ofBranch hC hI hrep he.branch.not hform
  simp only [Meaning.truth, bind_assoc, pure_bind] at h
  exact h

/-! ## Comparisons -/

def Interpretation.compares (I : Interpretation V) (cond : Cond) (rep : Rep) (lhs rhs : Operand) (st : PrimState V) :
    Bool :=
  cond.holds (I.order rep (lhs.words I.toModel st rep) (rhs.words I.toModel st rep))

section

variable {cond : Cond} {rep : Rep} {lhs rhs zero : Operand} {st : PrimState V}

lemma Interpretation.Lawful.compares_swap (hI : I.Lawful) :
    I.compares cond.swap rep rhs lhs = I.compares cond rep lhs rhs := by
  funext st
  rw [compares, compares, hI.order_swap]
  cases cond <;> cases I.order rep (lhs.words I.toModel st rep) (rhs.words I.toModel st rep) <;> rfl

lemma Interpretation.compares_negate : I.compares cond.negate rep lhs rhs st = !I.compares cond rep lhs rhs st := by
  rw [compares, compares]
  cases cond <;> cases I.order rep (lhs.words I.toModel st rep) (rhs.words I.toModel st rep) <;> rfl

lemma Interpretation.compares_le :
    I.compares .le rep lhs rhs st = (I.compares .lt rep lhs rhs st || I.compares .eq rep lhs rhs st) := by
  rw [compares, compares, compares]
  cases I.order rep (lhs.words I.toModel st rep) (rhs.words I.toModel st rep) <;> rfl

lemma Operand.words_zero (hz : isZero zero = true) (rep : Rep) (st : PrimState V) :
    zero.words I.toModel st rep = rep.list (I.literal rep zero) := by
  have hload : ∀ p, zero ≠ .load p := by
    rintro p rfl
    exact Bool.noConfusion hz
  have hstands : Stands I 0 (fun _ ↦ False) zero rep (I.literal rep zero) st := stands_literal hload
  exact hstands.words

section

variable (hI : I.Lawful) (hrep : rep.isBlock = false) (hz : isZero zero = true)

include hI hrep hz

lemma Interpretation.Lawful.compares_eq_zero :
    I.compares .eq rep lhs zero st = I.isZero rep (lhs.words I.toModel st rep) := by
  rw [Bool.eq_iff_iff, compares, words_zero hz, Cond.holds, beq_iff_eq]
  exact hI.order_zero rep _ zero hrep hz

lemma Interpretation.Lawful.compares_lt_zero
    (hs : rep.isSigned = false) : I.compares .lt rep lhs zero st = false := by
  rw [compares, words_zero hz, Cond.holds, beq_eq_false_iff_ne]
  exact hI.order_unsigned rep _ zero hrep hs hz

lemma Interpretation.Lawful.compares_le_zero (hs : rep.isSigned = false) :
    I.compares .le rep lhs zero st = I.isZero rep (lhs.words I.toModel st rep) := by
  rw [compares_le, hI.compares_lt_zero hrep hz hs, Bool.false_or, hI.compares_eq_zero hrep hz]

end

end

def Decides (I : Interpretation V) (s s' : State) (code : Flow) (target : Label) (cond : PrimState V → Bool) : Prop :=
  s.reachable = true → ∀ past st,
    Flow.exec I.toWorld code none past st = (past, if cond st then .goto target st else .next st) ∧
      (cond st = false → s'.reachable = true)

lemma decides_emit {cond : PrimState V → Bool} (hp : p.definedLabel = none)
    (hact : ∀ past st, p.act I.toWorld past st = (none, if cond st then .goto target st else .next st))
    (hfalls : ∀ st, cond st = false → p.fallsThrough = true) :
    Makes C s.nextLabel s (emit p) fun _ s' code ↦ Decides I s s' code target cond := by
  refine .emit le_rfl hp fun s' _ _ hcode hreach _ hr _ st ↦ ?_
  refine ⟨?_, fun hc ↦ hreach.trans (hfalls st hc)⟩
  rw [hcode hr]
  cases hc : cond st with
  | true => exact exec_jump (by rw [hact, hc]; rfl)
  | false => exact exec_single (by rw [hact, hc]; rfl)

lemma decides_test {rep : Rep} {cond : PrimState V → Bool}
    (hcond : ∀ st, cond st = (I.isZero rep (v.words I.toModel st rep) != nonzero)) :
    Makes C s.nextLabel s (emit (.test nonzero rep v target)) fun _ s' code ↦ Decides I s s' code target cond := by
  refine decides_emit rfl (fun _ st ↦ ?_) fun _ _ ↦ rfl
  rw [hcond, Prim.act]
  cases I.isZero rep (v.words I.toModel st rep) <;> cases nonzero <;> rfl

lemma decides_compare {rep : Rep} {rhs : Operand} :
    Makes C s.nextLabel s (emit (.compare cond rep lhs rhs target)) fun _ s' code ↦
      Decides I s s' code target (I.compares cond rep lhs rhs) :=
  decides_emit rfl (fun _ _ ↦ rfl) fun _ _ ↦ rfl

lemma decides_compareZero (hI : I.Lawful) {rep : Rep} {zero : Operand} (hrep : rep.isBlock = false)
    (hz : isZero zero = true) : Makes C s.nextLabel s (compareZero cond rep lhs zero target) fun _ s' code ↦
      Decides I s s' code target (I.compares cond rep lhs zero) := by
  unfold compareZero
  split
  case h_1 => exact decides_test fun st ↦ by rw [hI.compares_eq_zero hrep hz, Bool.bne_false]
  case h_2 hs => exact decides_test fun st ↦ by rw [hI.compares_le_zero hrep hz hs, Bool.bne_false]
  case h_3 =>
    refine decides_test fun st ↦ ?_
    rw [← hI.compares_eq_zero hrep hz, Bool.bne_true, ← compares_negate, Cond.negate]
  case h_4 hs =>
    refine decides_test fun st ↦ ?_
    rw [← hI.compares_le_zero hrep hz hs, Bool.bne_true, ← compares_negate, Cond.negate]
  case h_5 hs =>
    refine .pure fun hr _ st ↦ ⟨?_, fun _ ↦ hr⟩
    rw [hI.compares_lt_zero hrep hz hs]
    rfl
  case h_6 hs =>
    have hge : ∀ st : PrimState V, I.compares .ge rep lhs zero st = true := by
      intro st
      have hnegate : I.compares Cond.lt.negate rep lhs zero st = !I.compares .lt rep lhs zero st :=
        compares_negate
      rwa [hI.compares_lt_zero hrep hz hs] at hnegate
    refine decides_emit rfl (fun _ st ↦ ?_) fun st hst ↦ absurd (hst.symm.trans (hge st)) Bool.noConfusion
    rw [hge]
    rfl
  case h_7 => exact decides_compare

lemma decides_compared (hI : I.Lawful) {rep : Rep} {rhs : Operand} (hrep : rep.isBlock = false) :
    Makes C s.nextLabel s (compare cond rep lhs rhs target) fun _ s' code ↦
      Decides I s s' code target (I.compares cond rep lhs rhs) := by
  unfold Lowering.compare
  split
  case h_1 hz => exact decides_compareZero hI hrep hz
  case h_2 hz _ =>
    rw [← hI.compares_swap]
    exact decides_compareZero hI hrep hz
  case h_3 => exact decides_compare

include hC in
lemma Meaning.Computed.comparison (hI : I.Lawful) (hl : dl.Computed I C l) (hr : dr.Computed I C r)
    (hrepl : dl.rep = I.rep l.type) (hrepr : dr.rep = dl.rep) (hscalar : dl.rep.isBlock = false)
    (hrep : I.rep type = truthRep) (hform : ∀ p, form (.load p)) :
    Meaning.Computed ⟨I.rep type, do
      let x ← dl.value
      let y ← dr.value
      return I.bool (cond.holds (I.order dl.rep (dl.rep.list x) (dl.rep.list y))),
      dl.SteadyPair dr, sources, form⟩ I C (Lowering.comparison type cond l r) := by
  have hb : BranchesOn I C (dl.SteadyPair dr)
      (dl.pair dr >>= fun p ↦ return cond.holds (I.order dl.rep (dl.rep.list p.1) (dl.rep.list p.2)))
      (Lowering.comparison type cond l r).branch := by
    intro s sense _ _
    refine .repIn hC (hl.value.both hr.value fun v w s2 _ happ h ↦ ?_)
    rw [← hrepl]
    refine (decides_compared hI hscalar).mono happ.nextLabel fun _ s' _ happ' hd hfits hr S st hagrees hsteady ↦ ?_
    refine (h (hfits.before happ') hr S st hagrees hsteady).bind fun p S2 st2 _ hagrees2 _ ⟨hr2, hv, hw⟩ ↦ ?_
    rw [hrepr] at hw
    have hholds : I.compares cond dl.rep v w st2 = cond.holds (I.order dl.rep (dl.rep.list p.1) (dl.rep.list p.2)) := by
      rw [compares, hv, hw]
    obtain ⟨hout, hreach⟩ := hd hr2 S2.past st2
    rw [← hholds]
    cases sense with
    | true => refine .pure hout hagrees2 (refl _ _ _) fun hne ↦ hreach (Bool.not_eq_true _ ▸ hne)
    | false =>
      simp only [Bool.false_eq_true, if_false, compares_negate] at hout hreach
      refine .pure (hout.trans ?_) hagrees2 (refl _ _ _) fun hne ↦ hreach ?_
      · cases I.compares cond dl.rep v w st2 <;> rfl
      · simpa using hne
  have h : Meaning.Computed ⟨I.rep type, _, _, sources, form⟩ I C _ := .ofBranch hC hI hrep hb hform
  simp only [Meaning.pair, bind_assoc, pure_bind] at h
  exact h

end

end W16Compiler
