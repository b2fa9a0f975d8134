import W16Compiler.Proofs.Evaluation.Operators

/-!
# Code that is passed over

Of the operands of a logical operator and of a conditional expression some are not evaluated. Control goes past
their code then, to a label behind it that it does not define.
-/

namespace W16Compiler

open Lowering Flow Meaning Nat

variable {V : Type} {I : Interpretation V} {C : Context} (hC : C.types = I.types) {type : TypeId}
  {n : Nat} {e l r : Lowered} {d dl dr : Meaning V} {sources : Store V → Cell → Prop} {form : Operand → Prop}
  {conjunction : Bool} {s : State}

/-! ## Logical operators -/

/-- The right operand is evaluated if the left one does not decide. -/
def Eval.logical (conjunction : Bool) (x y : Eval V Bool) : Eval V Bool := do
  let b ← x
  if b == conjunction then y else return b

def Eval.LogicalSteady (conjunction : Bool) (left right : Store V → Prop) (x : Eval V Bool) (S : Store V) : Prop :=
  left S ∧ ∀ b S₁, x S = .ok b S₁ → b = conjunction → right S₁

lemma BranchesOn.logical {left right : Store V → Prop} {x y : Eval V Bool}
    (hl : BranchesOn I C left x l.branch) (hr : BranchesOn I C right y r.branch) :
    BranchesOn I C (Eval.LogicalSteady conjunction left right x) (Eval.logical conjunction x y)
      (Lowering.logical type conjunction l r).branch := by
  intro s sense target htarget
  refine .ite (fun hsense ↦ ?_) fun hsense ↦ ?_
  · have hsense : conjunction = sense := beq_iff_eq.mp hsense
    subst hsense
    refine .newLabel ?_
    have hlt : s.nextLabel < s.withLabel.nextLabel := lt_succ_self _
    refine (hl s.withLabel (!conjunction) ⟨s.nextLabel⟩ hlt).bindFrom (le_of_lt hlt) fun _ s1 _ happ1 h1 ↦ ?_
    have hlt1 : s.nextLabel < s1.nextLabel := lt_of_lt_of_le hlt happ1.nextLabel
    refine (hr s1 conjunction target (lt_trans htarget hlt1)).bindFrom (le_of_lt hlt1) fun _ s2 _ happ2 h2 ↦ ?_
    have hlt2 : s.nextLabel < s2.nextLabel := lt_of_lt_of_le hlt1 happ2.nextLabel
    refine .mark le_rfl hlt2 fun s3 happ3 hreach3 _ hfits hreach S st hagrees hsteady ↦ ?_
    have hfits2 : I.Fits s2 := hfits.before happ3
    refine (h1 (hfits2.before happ2) hreach S st hagrees hsteady.1).bind fun b S1 st1 hb hagrees1 _ hreach1 ↦ ?_
    by_cases hc : b = conjunction
    · -- The right operand decides; behind its code control goes on.
      have htaken : taken (!conjunction) ⟨s.nextLabel⟩ b st1 = .next st1 := if_neg (by simp [hc])
      have hright := h2 hfits2 (hreach1 (by simp [hc])) S1 st1 hagrees1 (hsteady.2 b S1 hb hc)
      rw [if_pos (beq_iff_eq.mpr hc), htaken]
      refine hright.passing happ1.size (fun c S2 st2 _ ↦ carryOn_label fun heq ↦ ?_) fun _ _ _ _ ↦ hreach3
      rw [heq] at htarget
      exact lt_irrefl _ htarget
    · have htaken : taken (!conjunction) ⟨s.nextLabel⟩ b st1 = .goto ⟨s.nextLabel⟩ st1 := if_pos (Bool.eq_not_of_ne hc)
      rw [if_neg (by simpa using hc), htaken]
      refine .pure ?_ hagrees1 (KeepsTemps.refl _ _ _) fun _ ↦ hreach3
      rw [carryOn_skip (happ2.not_mem_labels hlt1), taken, if_neg hc]
  · have hsense : sense = !conjunction := Bool.eq_not_of_ne (Ne.symm (beq_eq_false_iff_ne.mp hsense))
    refine (hl s sense target htarget).bind fun _ s1 _ happ1 h1 ↦ ?_
    have htarget1 : target.index < s1.nextLabel := lt_of_lt_of_le htarget happ1.nextLabel
    refine (hr s1 sense target htarget1).mono happ1.nextLabel fun _ s2 _ happ2 h2 hfits hreach S st hagrees hsteady ↦ ?_
    refine (h1 (hfits.before happ2) hreach S st hagrees hsteady.1).bind fun b S1 st1 hb hagrees1 _ hreach1 ↦ ?_
    by_cases hc : b = conjunction
    · have hne : b ≠ sense := by simp [hc, hsense]
      rw [if_pos (beq_iff_eq.mpr hc), taken, if_neg hne]
      exact (h2 hfits (hreach1 hne) S1 st1 hagrees1 (hsteady.2 b S1 hb hc)).mono happ1.size fun _ _ hq ↦ hq
    · have heq : b = sense := hsense ▸ Bool.eq_not_of_ne hc
      rw [if_neg (by simpa using hc), taken, if_pos heq]
      refine .pure ?_ hagrees1 (KeepsTemps.refl _ _ _) fun hne ↦ absurd heq hne
      rw [carryOn, exec_skip (happ2.not_mem_labels htarget1), taken, if_pos heq]

include hC in
lemma Meaning.Computed.logical (hI : I.Lawful) (hl : dl.Computed I C l)
    (hr : dr.Computed I C r) (hrep : I.rep type = truthRep) (hform : ∀ p, form (.load p)) :
    Computed ⟨I.rep type, do return I.bool (← Eval.logical conjunction (dl.truth I) (dr.truth I)),
      Eval.LogicalSteady conjunction dl.steady dr.steady (dl.truth I), sources, form⟩ I C
      (Lowering.logical type conjunction l r) := by
  have hb : BranchesOn I C _ _ (Lowering.logical type conjunction l r).branch := hl.branch.logical hr.branch
  have h : Computed ⟨I.rep type, _, _, sources, form⟩ I C _ := .ofBranch hC hI hrep hb hform
  refine ⟨h.value, fun s ↦ ?_, h.branch⟩
  refine .newLabel ?_
  have hlt : s.nextLabel < s.withLabel.nextLabel := lt_succ_self _
  refine (hl.branch s.withLabel (!conjunction) ⟨s.nextLabel⟩ hlt).bindFrom (le_of_lt hlt) fun _ s1 _ happ1 h1 ↦ ?_
  have hlt1 : s.nextLabel < s1.nextLabel := lt_of_lt_of_le hlt happ1.nextLabel
  refine (hr.effect s1).bindFrom (le_of_lt hlt1) fun _ s2 _ happ2 h2 ↦ ?_
  have hlt2 : s.nextLabel < s2.nextLabel := lt_of_lt_of_le hlt1 happ2.nextLabel
  refine .mark le_rfl hlt2 fun s3 happ3 hreach3 _ hfits hreach S st hagrees hsteady ↦ ?_
  have hfits2 : I.Fits s2 := hfits.before happ3
  rw [Eval.logical, bind_assoc]
  refine (h1 (hfits2.before happ2) hreach S st hagrees hsteady.1).bind fun b S1 st1 hb hagrees1 _ hreach1 ↦ ?_
  by_cases hc : b = conjunction
  · have htaken : taken (!conjunction) ⟨s.nextLabel⟩ b st1 = .next st1 := if_neg (by simp [hc])
    have hright := h2 hfits2 (hreach1 (by simp [hc])) S1 st1 hagrees1 (hsteady.2 b S1 hb hc)
    rw [if_pos (beq_iff_eq.mpr hc), htaken, truth, bind_assoc]
    exact (hright.passing happ1.size (fun _ _ _ _ ↦ rfl) fun _ _ _ ↦ hreach3).map le_rfl
      (fun _ _ ↦ rfl) fun _ _ _ _ _ _ hq ↦ hq
  · have htaken : taken (!conjunction) ⟨s.nextLabel⟩ b st1 = .goto ⟨s.nextLabel⟩ st1 := if_pos (Bool.eq_not_of_ne hc)
    rw [if_neg (by simpa using hc), htaken]
    exact .pure (carryOn_skip (happ2.not_mem_labels hlt1) _) hagrees1 (KeepsTemps.refl _ _ _) hreach3

/-! ## Sequences -/

/-- The left operand is evaluated for its effect. -/
def Meaning.comma (d dr : Meaning V) : Meaning V where
  rep := dr.rep
  value := do
    let _ ← d.value
    dr.value
  steady S := d.steady S ∧ ∀ x S₁, d.value S = .ok x S₁ → dr.steady S₁
  sources S c := ∃ x S', d.value S = .ok x S' ∧ dr.sources S' c
  form := dr.form

lemma Meaning.Computed.comma (he : d.Computed I C e) (hr : dr.Computed I C r) :
    (d.comma dr).Computed I C (Lowering.comma type e r) where
  value s := by
    refine (he.effect s).bind fun _ s1 _ happ1 h1 ↦ (hr.value s1).mono happ1.nextLabel
      fun v s2 _ happ2 ⟨hform, h2⟩ ↦ ⟨hform, fun hfits hreach S st hagrees hsteady ↦ ?_⟩
    refine (h1 (hfits.before happ2) hreach S st hagrees hsteady.1).bind fun x S1 st1 hx hagrees1 _ hreach1 ↦ ?_
    refine (h2 hfits hreach1 S1 st1 hagrees1 (hsteady.2 x S1 hx)).mono happ1.size
      fun y st2 ⟨hreach2, hvisible, hstands⟩ ↦ ⟨hreach2, hvisible, ?_⟩
    exact hstands.mono le_rfl fun c hc ↦ ⟨x, S1, hx, hc⟩
  effect s := by
    refine (he.effect s).bind fun _ s1 _ happ1 h1 ↦ (hr.effect s1).mono happ1.nextLabel
      fun _ s2 _ happ2 h2 hfits hreach S st hagrees hsteady ↦ ?_
    refine (h1 (hfits.before happ2) hreach S st hagrees hsteady.1).bind fun x S1 st1 hx hagrees1 _ hreach1 ↦ ?_
    exact (h2 hfits hreach1 S1 st1 hagrees1 (hsteady.2 x S1 hx)).mono happ1.size fun _ _ hq ↦ hq
  branch s sense target htarget := by
    refine (he.effect s).bind fun _ s1 _ happ1 h1 ↦
      (hr.branch s1 sense target (lt_of_lt_of_le htarget happ1.nextLabel)).mono happ1.nextLabel
      fun _ s2 _ happ2 h2 hfits hreach S st hagrees hsteady ↦ ?_
    rw [Meaning.truth, Meaning.comma, bind_assoc]
    refine (h1 (hfits.before happ2) hreach S st hagrees hsteady.1).bind fun x S1 st1 hx hagrees1 _ hreach1 ↦ ?_
    exact (h2 hfits hreach1 S1 st1 hagrees1 (hsteady.2 x S1 hx)).mono happ1.size fun _ _ hq ↦ hq

/-! ## Conditional expressions -/

section

variable {α : Type} {cond yes no : Store V → Prop} {x : Eval V Bool} {y z : Eval V α} {Q : α → PrimState V → Prop}

def Eval.ChoiceSteady (cond yes no : Store V → Prop) (x : Eval V Bool) (S : Store V) : Prop :=
  cond S ∧ ∀ b S₁, x S = .ok b S₁ → if b then yes S₁ else no S₁

lemma makes_choose (hc : BranchesOn I C cond x c.branch) (hn : n ≤ s.slots.size)
    (hyes : ∀ s1 code1, Appends s.nextLabel s s1 code1 → Makes C s1.nextLabel s1 ifYes fun _ s' code ↦
      Mirrors I n s1 s' code yes y onward fun _ a st ↦ s'.reachable = true ∧ Q a st)
    (hno : ∀ s1 code1, Appends s.nextLabel s s1 code1 → Makes C s1.nextLabel s1 ifNo fun _ s' code ↦
      Mirrors I n s1 s' code no z onward fun _ a st ↦ s'.reachable = true ∧ Q a st) :
    Makes C s.nextLabel s (choose c ifYes ifNo) fun _ s' code ↦
      Mirrors I n s s' code (Eval.ChoiceSteady cond yes no x) (do if ← x then y else z) onward fun _ a st ↦
        s'.reachable = true ∧ Q a st := by
  refine .newLabel (.newLabel ?_)
  have hother : s.nextLabel < s.withLabel.withLabel.nextLabel := lt_succ_of_lt (lt_succ_self _)
  have hdone : s.nextLabel + 1 < s.withLabel.withLabel.nextLabel := lt_succ_self _
  have hlabels : Appends s.nextLabel s s.withLabel.withLabel [] := (Appends.withLabel _ _).trans (.withLabel _ _)
  refine (hc s.withLabel.withLabel false ⟨s.nextLabel⟩ hother).bindFrom (le_of_lt hother) fun _ s1 _ happ1 h1 ↦ ?_
  have hdone1 : s.nextLabel + 1 < s1.nextLabel := lt_of_lt_of_le hdone happ1.nextLabel
  have hpast1 := hlabels.trans (happ1.mono (le_of_lt hother))
  refine (hyes s1 _ hpast1).bindFrom (by omega) fun _ s2 code2 happ2 h2 ↦ ?_
  have hdone2 : s.nextLabel + 1 < s2.nextLabel := lt_of_lt_of_le hdone1 happ2.nextLabel
  refine .jumpThen (by omega) fun s3 code3 happ3 hcode3 _ ↦ ?_
  have hdone3 : s.nextLabel + 1 < s3.nextLabel := lt_of_lt_of_le hdone2 happ3.nextLabel
  refine .markThen le_rfl (lt_of_succ_lt hdone3) fun s4 happ4 hreach4 _ ↦ ?_
  have hdone4 : s.nextLabel + 1 < s4.nextLabel := lt_of_lt_of_le hdone3 happ4.nextLabel
  have hpast4 := ((hpast1.trans (happ2.mono (by omega))).trans (happ3.mono (by omega))).trans happ4
  refine (hno s4 _ hpast4).bindFrom (by omega) fun _ s5 code5 happ5 h5 ↦ ?_
  have hdone5 : s.nextLabel + 1 < s5.nextLabel := lt_of_lt_of_le hdone4 happ5.nextLabel
  refine .mark (le_succ _) hdone5 fun s6 happ6 hreach6 _ hfits hreach S st hagrees hsteady ↦ ?_
  have hfits5 : I.Fits s5 := hfits.before happ6
  have hfits2 : I.Fits s2 := ((hfits5.before happ5).before happ4).before happ3
  refine ((h1 (hfits2.before happ2) hreach S st hagrees hsteady.1).mono hn fun _ _ hq ↦ hq).bind
    fun b S1 st1 hb hagrees1 _ hreach1 ↦ ?_
  have hsteady1 := hsteady.2 b S1 hb
  cases b with
  | true =>
    -- Behind the first part control goes past the other one.
    refine (h2 hfits2 (hreach1 Bool.noConfusion) S1 st1 hagrees1 hsteady1).passing le_rfl
      (fun a S2 st2 ⟨hreach2, _⟩ ↦ ?_) fun a st2 hq ↦ ⟨hreach6, hq.2⟩
    have hlabels : (⟨s.nextLabel + 1⟩ : Label) ∉ labels ([⟨.label ⟨s.nextLabel⟩, some s3.loc⟩] ++ code5) :=
      not_mem_labels_append (by simp [labels, Prim.definedLabel]) (happ5.not_mem_labels hdone4)
    rw [hcode3 hreach2, carryOn, exec_append_goto (exec_jump rfl), ← List.append_assoc]
    exact carryOn_skip hlabels _
  | false =>
    have hlabels : (⟨s.nextLabel⟩ : Label) ∉ (code2 ++ code3).labels :=
      not_mem_labels_append (happ2.not_mem_labels (lt_of_succ_lt hdone1))
        (happ3.not_mem_labels (lt_of_succ_lt hdone2))
    have hskip : ∀ rest : Flow, carryOn I.toWorld (code2 ++ (code3 ++ ([⟨.label ⟨s.nextLabel⟩, some s3.loc⟩] ++
        rest))) (S1.past, .goto ⟨s.nextLabel⟩ st1) = exec I.toWorld rest none S1.past st1 := by
      intro _
      rw [← List.append_assoc, ← List.append_assoc, carryOn, exec_append_next (carryOn_skip hlabels _)]
    rw [taken, if_pos rfl, hskip]
    exact (h5 hfits5 hreach4 S1 st1 hagrees1 hsteady1).passing le_rfl (fun _ _ _ _ ↦ rfl) fun a st2 hq ↦ ⟨hreach6, hq.2⟩

end

include hC in
lemma Meaning.Computed.assignTemp (he : d.Computed I C e) (hrep : d.rep = I.rep e.type)
    (hwords : d.rep = I.rep type) (hscalar : I.IsScalar type) (ht : n ≤ t.index)
    (hn : n ≤ s.slots.size) (hhidden : I.Fits s → I.hidden t = true) :
    Makes C s.nextLabel s (e.assignTo (.slot t 0)) fun _ s' code ↦
      Mirrors I n s s' code d.steady d.value onward fun _ a st ↦
        s'.reachable = true ∧ ∀ i < (I.rep type).words, st.mem (.slot t (0 + i)) = a i := by
  refine .repIn hC ((he.value s).bind fun v s1 _ happ ⟨_, h⟩ ↦
    .emit happ.nextLabel rfl fun s' _ happ' hcode hreach _ hfits hr S st hagrees hsteady ↦ ?_)
  rw [← hrep, hwords] at hcode
  rw [hwords] at h
  have hfits1 : I.Fits s1 := hfits.before happ'
  have hthidden : I.hidden t = true := hhidden (hfits1.before happ)
  refine (h hfits1 hr S st hagrees hsteady).andThen hn fun x S1 st1 _ hagrees1 ⟨hr1, _, hstands⟩ ↦ ?_
  rw [hcode hr1]
  refine ⟨_, exec_assign _ _ _, hagrees1.write_temp hthidden _ _, keeps_write_temp ht _ _, hreach, fun i hi ↦ ?_⟩
  rw [mem_write_temp t hi, assignedWord_scalar hscalar]
  exact hstands.word hi

include hC in
lemma Meaning.Computed.conditional (he : d.Computed I C e) (hl : dl.Computed I C l) (hr : dr.Computed I C r)
    (hscalar : I.IsScalar type) (hrepl : dl.rep = I.rep l.type) (hrepr : dr.rep = I.rep r.type)
    (hrep : I.types.isVoid type ∨ dl.rep = I.rep type ∧ dr.rep = I.rep type)
    (hform : ∀ p, form (.load p)) (hvoid : I.types.isVoid type → form (.imm 0)) :
    Computed ⟨I.rep type, do
      let x ← (do if ← d.truth I then dl.value else dr.value)
      return if I.types.isVoid type then I.int 0 else x,
      Eval.ChoiceSteady d.steady dl.steady dr.steady (d.truth I), sources, form⟩ I C
      (Lowering.conditional type e l r) := by
  have heffect : ∀ s, Makes C s.nextLabel s (choose e l.effect r.effect) fun _ s' code ↦
      Mirrors I s.slots.size s s' code (Eval.ChoiceSteady d.steady dl.steady dr.steady (d.truth I))
        (do if ← d.truth I then dl.value else dr.value) onward fun _ _ _ ↦ s'.reachable = true ∧ True := by
    intro s
    refine makes_choose he.branch le_rfl (fun s1 code1 happ1 ↦ ?_) fun s1 code1 happ1 ↦ ?_
    · refine (hl.effect s1).mono le_rfl fun _ s' _ _ h hfits hr S st hagrees hsteady ↦ ?_
      exact (h hfits hr S st hagrees hsteady).mono happ1.size fun _ _ hq ↦ ⟨hq, trivial⟩
    · refine (hr.effect s1).mono le_rfl fun _ s' _ _ h hfits hr S st hagrees hsteady ↦ ?_
      exact (h hfits hr S st hagrees hsteady).mono happ1.size fun _ _ hq ↦ ⟨hq, trivial⟩
  have hvalue : Gives ⟨I.rep type, do
      let x ← (do if ← d.truth I then dl.value else dr.value)
      return if I.types.isVoid type then I.int 0 else x,
      Eval.ChoiceSteady d.steady dl.steady dr.steady (d.truth I), sources, form⟩ I C
      (Lowering.conditional type e l r).value := by
    intro s
    refine .after (x := read) rfl (.refl _ s) (.ite (fun hv ↦ ?_) fun hv ↦ ?_)
    · have hv : I.types.isVoid type = true := hC ▸ hv
      refine (heffect s).bind fun _ s' _ _ h ↦ .pure ⟨hvoid hv, fun hfits hr S st hagrees hsteady ↦ ?_⟩
      rw [List.append_nil]
      refine (h hfits hr S st hagrees hsteady).map le_rfl (fun _ _ ↦ rfl) fun x S' st' _ _ _ hq ↦ ?_
      rw [if_pos hv]
      exact ⟨hq.1, nofun, stands_literal nofun⟩
    · have hv : I.types.isVoid type = false := hC ▸ hv
      obtain ⟨hwords, hwords'⟩ := hrep.resolve_left (by simp [hv])
      refine .repIn hC (.newTemp ?_)
      have hhidden : ∀ {s1 code1}, Appends s.nextLabel (s.withTemp (I.rep type)) s1 code1 → I.Fits s1 →
          I.hidden ⟨s.slots.size⟩ = true := fun happ1 hfits ↦ (hfits.before happ1).hidden_temp
      have hsize : s.slots.size < (s.withTemp (I.rep type)).slots.size :=
        lt_of_lt_of_eq (lt_succ_self _) (Array.size_push _).symm
      have hchoose := makes_choose (C := C) (s := s.withTemp (I.rep type)) he.branch (le_of_lt hsize)
        (fun s1 _ happ1 ↦ hl.assignTemp hC hrepl hwords hscalar le_rfl
          (le_trans (le_of_lt hsize) happ1.size) (hhidden happ1))
        (fun s1 _ happ1 ↦ hr.assignTemp hC hrepr hwords' hscalar le_rfl
          (le_trans (le_of_lt hsize) happ1.size) (hhidden happ1))
      refine hchoose.bind fun _ s' _ happ h ↦ ?_
      rw [contents, hscalar, if_neg Bool.noConfusion]
      refine .pure ⟨hform _, fun hfits hreach S st hagrees hsteady ↦ ?_⟩
      rw [List.append_nil]
      refine (h hfits hreach S st hagrees hsteady).map le_rfl (fun _ _ ↦ rfl) fun x S' st' _ _ _ hq ↦ ?_
      rw [hv, if_neg Bool.noConfusion]
      refine ⟨hq.1, nofun, fun _ _ hkeeps i hi ↦ ?_⟩
      exact (hkeeps _ _ (hhidden happ hfits) (lt_of_lt_of_le hsize happ.size)).trans (hq.2 i hi)
  refine ⟨hvalue, fun s ↦ (heffect s).mono le_rfl fun _ s' _ _ h hfits hr S st hagrees hsteady ↦ ?_,
    (Computed.ofValue hC rfl hvalue).branch⟩
  exact (h hfits hr S st hagrees hsteady).map le_rfl (fun _ _ ↦ rfl) fun _ _ _ _ _ _ hq ↦ hq.1

end W16Compiler
