import W16Compiler.Proofs.Evaluation.Objects

/-!
# Code for assignments and conversions

The object on the left is found first. Its value changes when that of the right side is known, and what the
expression stands for is then read from the object.
-/

namespace W16Compiler

open Lowering List Operand Flow Meaning

variable {V : Type} {I : Interpretation V} {C : Context} {cells : Cell → Prop} {op : BinaryOp} {dst : Place}

/-! ## Writing objects -/

lemma Lowering.Makes.overwrite {β : Type} {lo : Nat} {s : State} {node : Prim} {rep : Rep}
    {val : PrimState V → Nat → V} {k : LowerM β} {R : β → State → Flow → Prop} (I : Interpretation V)
    (hlo : lo ≤ s.nextLabel) (hlabel : node.definedLabel = none) (hfalls : node.fallsThrough = true)
    (hact : ∀ past st, node.act I.toWorld past st = (none, .next (st.write I.toModel dst rep.words (val st))))
    (hk : ∀ s' code, Appends lo s s' code → s'.slots = s.slots → s'.reachable = true →
      (s.reachable = true → ∀ past st, exec I.toWorld code none past st =
        (past, .next (st.write I.toModel dst rep.words (val st)))) →
      Makes C lo s' k fun b s2 code' ↦ R b s2 (code ++ code')) :
    Makes C lo s (do Lowering.emit node; k) R := by
  refine .emitThen hlo hlabel fun s' code happ hcode hreach hslots ↦
    hk s' code (happ.mono hlo) hslots (hreach.trans hfalls) fun hr past st ↦ ?_
  rw [hcode hr]
  exact exec_single (hact past st)

section

variable {n reach : Nat} {p : Place} {L : Locus V} {st : PrimState V} {S : Store V} {rep : Rep} {value value' : Nat → V}

lemma LeadsTo.write (hI : I.Lawful) (h : LeadsTo I n reach (fun _ ↦ False) p L st) (hagrees : Agrees I S.state st)
    (hvalue : ∀ i < rep.words, value i = value' i) :
    Agrees I (I.written L rep value' S.state) (st.write I.toModel p rep.words value) ∧
      (∀ m, KeepsTemps I m st (st.write I.toModel p rep.words value)) ∧
      LeadsTo I n reach (fun _ ↦ False) p L (st.write I.toModel p rep.words value) := by
  have hkeeps : ∀ m, KeepsTemps I m st (st.write I.toModel p rep.words value) := by
    intro m
    refine keeps_write fun i _ ↦ ?_
    rw [h.cell hI]
    exact h.not_temporary hI i
  exact ⟨hagrees.write (fun i _ ↦ h.cell hI i) hvalue, hkeeps, h.later nofun (hkeeps n)⟩

end

section

variable (hI : I.Lawful) (hC : C.types = I.types) {type : TypeId} {d dr : Meaning V} {δ : Designation V}
  {e l r : Lowered} {sources : Store V → Cell → Prop} {form : Operand → Prop}

include hI hC in
lemma Meaning.Computed.assignment (hl : δ.Located I C l.place) (hr : dr.Computed I C r)
    (hscalar : I.IsScalar type) (hrep : dr.rep = I.rep type)
    (hsources : ∀ S c L S', δ.locus S = .ok L S' → L.Covers I.toModel (I.rep type).words c → sources S c)
    (hform : ∀ p, form (.load p)) :
    Computed ⟨I.rep type, do
      let L ← δ.locus
      I.store L (I.rep type) (← dr.value)
      I.load L,
      fun S ↦ δ.steady S ∧ ∀ L S1, δ.locus S = .ok L S1 → dr.steady S1, sources, form⟩ I C
      (Lowering.assignment type l r) := by
  refine .ofValue hC rfl fun s ↦ .repIn hC (hl.stable fun p s1 _ happ1 h1 ↦ ?_)
  refine (hr.value s1).bindFrom happ1.nextLabel fun v s2 _ happ2 hv ↦ ?_
  obtain ⟨_, h2⟩ := hv
  refine .overwrite I (le_trans happ1.nextLabel happ2.nextLabel) rfl rfl (fun _ _ ↦ rfl)
    fun s3 _ happ3 hslots3 hreach3 hexec ↦ ?_
  rw [contents, hscalar, if_neg Bool.noConfusion]
  refine .pure ⟨hform p, fun hfits hreach S st hagrees hsteady ↦ ?_⟩
  have hfits2 : I.Fits s2 := hfits.before happ3
  rw [List.append_nil]
  refine (h1 (hfits2.before happ2) hreach S st hagrees hsteady.1).bind ?_
  rintro L S1 st1 hL hagrees1 _ ⟨hr1, hleads⟩
  refine ((h2 hfits2 hr1 S1 st1 hagrees1 (hsteady.2 L S1 hL)).keeping happ1.size).bind ?_
  rintro y S2 st2 _ hagrees2 _ ⟨⟨hr2, _, hstands⟩, hkeeps⟩
  have hvalue : ∀ i < (I.rep type).words, assignedWord I.toModel st2 (I.rep type) v i = y i := by
    intro i hi
    rw [assignedWord_scalar hscalar]
    rw [hrep] at hstands
    exact hstands.word hi
  obtain ⟨hagrees3, hkeeps3, hleads3⟩ := (hleads.later (fun _ h ↦ h.elim) hkeeps).write hI hagrees2 hvalue
  refine ⟨_, hexec hr2 _ _, hagrees3, hkeeps3 _, hreach3, by rintro _ _ ⟨⟩, ?_⟩
  exact (hleads3.stands (S := ⟨S2.past, _⟩) hI hagrees3 (I.rep type)).mono (hslots3 ▸ happ2.size)
    fun c hc ↦ hsources S c L S1 hL (hc.resolve_left id)

def Interpretation.stepped (I : Interpretation V) (rep : Rep) (before increment : Bool) (step : Int)
    (locus : Eval V (Locus V)) : Eval V (Nat → V) := do
  let L ← locus
  let old ← I.load L
  I.store L rep (I.binary (if increment then .add else .sub) rep (rep.list old) (rep.list (I.step rep step)))
  if before then I.load L else return old

variable {rep source target : Rep} {increment before nullCheck : Bool} {step offset : Int} {st : PrimState V}
  {v : Operand} {value : Nat → V}
  {s : State} {lo k n : Nat}

lemma Prim.value_step (hsrc : src.words I.toModel st rep = rep.list old) :
    (Prim.binary (if increment then .add else .sub) rep dst src (stepOperand rep step)).value I.toModel st =
      I.binary (if increment then .add else .sub) rep (rep.list old) (rep.list (I.step rep step)) := by
  have hright : rightRep (if increment then .add else .sub) rep = rep := by
    cases increment <;> rfl
  have hstep : (stepOperand rep step).words I.toModel st rep = rep.list (I.step rep step) := by
    unfold stepOperand Interpretation.step
    cases rep.isFloat <;> rfl
  rw [Prim.value, hsrc, hright, hstep]

include hI hC in
lemma makes_stepped (he : δ.Located I C e.place) (hscalar : I.IsScalar e.type) (s : State) :
    Makes C s.nextLabel s (stepped before increment e step) fun v s' code ↦ (∃ p, v = .load p) ∧
      Mirrors I s.slots.size s s' code δ.steady (I.stepped (I.rep e.type) before increment step δ.locus) onward
        fun S value st ↦ s'.reachable = true ∧ Stands I s'.slots.size (fun c ↦ before = true ∧
          ∃ L S', δ.locus S = .ok L S' ∧ L.Covers I.toModel (I.rep e.type).words c) v (I.rep e.type) value st := by
  refine .repIn hC (he.stable fun p s1 _ happ1 h1 ↦ ?_)
  cases before with
  | true =>
    refine .overwrite I happ1.nextLabel rfl rfl (fun _ _ ↦ rfl) fun s2 _ happ2 hslots2 hreach2 hexec ↦ ?_
    refine .pure ⟨⟨p, rfl⟩, fun hfits hreach S st hagrees hsteady ↦ ?_⟩
    rw [List.append_nil]
    refine (h1 (hfits.before happ2) hreach S st hagrees hsteady).bind fun L S1 st1 hL hagrees1 _ ⟨hr1, hleads⟩ ↦ ?_
    have hold := (hleads.stands hI hagrees1 (I.rep e.type)).words
    obtain ⟨hagrees2, hkeeps2, hleads2⟩ := hleads.write hI hagrees1 fun i _ ↦ congrFun (Prim.value_step hold) i
    refine ⟨_, hexec hr1 _ _, hagrees2, hkeeps2 _, hreach2, ?_⟩
    exact (hleads2.stands (S := ⟨S1.past, _⟩) hI hagrees2 _).mono (le_of_eq (congrArg Array.size hslots2.symm))
      fun c hc ↦ ⟨rfl, L, S1, hL, hc.resolve_left id⟩
  | false =>
    refine .copied I happ1.nextLabel fun s2 _ hc ↦ ?_
    refine .overwrite I (le_trans happ1.nextLabel hc.appends.nextLabel) rfl rfl (fun _ _ ↦ rfl)
      fun s3 _ happ3 hslots3 hreach3 hexec3 ↦ .pure ⟨⟨_, rfl⟩, fun hfits hreach S st hagrees hsteady ↦ ?_⟩
    rw [List.append_nil]
    have hfits2 : I.Fits s2 := hfits.before happ3
    refine (h1 (hfits2.before hc.appends) hreach S st hagrees hsteady).bind
      fun L S1 st1 hL hagrees1 _ ⟨hr1, hleads⟩ ↦ ?_
    have hold := hleads.stands hI hagrees1 (I.rep e.type)
    have hcopy : Stands I s2.slots.size (fun _ ↦ False) (.load (.slot ⟨s1.slots.size⟩ 0)) (I.rep e.type)
        (fun i ↦ S1.state.mem (L.cell I.toModel i)) (st1.write I.toModel (.slot ⟨s1.slots.size⟩ 0)
          (I.rep e.type).words (assignedWord I.toModel st1 (I.rep e.type) (.load p))) := by
      refine stands_temp (hc.hidden hfits2) (by simp [hc.size]) le_rfl fun i hi ↦ ?_
      rw [assignedWord_scalar hscalar]
      exact hold.word hi
    have hagrees2 := hagrees1.write_temp (hc.hidden hfits2) (I.rep e.type).words
      (assignedWord I.toModel st1 (I.rep e.type) (.load p))
    have hkept : KeepsTemps I s1.slots.size st1 _ := keeps_write_temp le_rfl (I.rep e.type).words
      (assignedWord I.toModel st1 (I.rep e.type) (.load p))
    obtain ⟨hagrees3, hkeeps3, _⟩ := (hleads.later (fun _ h ↦ h.elim) hkept).write hI hagrees2
      fun i _ ↦ congrFun (Prim.value_step hcopy.words) i
    refine ⟨_, ?_, hagrees3, (hkept.mono happ1.size).trans (hkeeps3 _), hreach3, ?_⟩
    · rw [carryOn, exec_append_next (hc.exec hr1 _ _)]
      exact hexec3 hc.reachable _ _
    · exact (hcopy.later (fun _ h ↦ h.elim) (hkeeps3 _)).mono (le_of_eq (congrArg Array.size hslots3.symm))
        fun _ h ↦ h.elim

include hI hC in
lemma Meaning.Computed.incDec (he : δ.Located I C e.place) (htype : rep = I.rep e.type)
    (hscalar : rep.isBlock = false) (hrep : I.rep type = rep)
    (hsources : ∀ S c L S', before = true → δ.locus S = .ok L S' → L.Covers I.toModel rep.words c → sources S c)
    (hform : ∀ p, form (.load p)) :
    Computed ⟨I.rep type, I.stepped rep before increment step δ.locus, δ.steady, sources, form⟩ I C
      (incDec type before increment e step) := by
  subst htype
  have hvalue : Gives ⟨I.rep type, I.stepped (I.rep e.type) before increment step δ.locus, δ.steady,
      sources, form⟩ I C (stepped before increment e step) := by
    intro s
    refine (makes_stepped hI hC he hscalar s).mono le_rfl
      fun v s' _ _ ⟨⟨p, hv⟩, h⟩ ↦ ⟨hv ▸ hform p, fun hfits hr S st hagrees hsteady ↦ ?_⟩
    refine (h hfits hr S st hagrees hsteady).mono le_rfl fun _ st' ⟨hreach, hstands⟩ ↦
      ⟨hreach, fun t k heq ↦ (by cases hv.symm.trans heq), ?_⟩
    rw [hrep]
    exact hstands.mono le_rfl fun c ⟨hbefore, L, S', hL, hc⟩ ↦ hsources S c L S' hbefore hL hc
  refine ⟨hvalue, fun s ↦ ?_, (Computed.ofValue hC rfl hvalue).branch⟩
  refine .map ((makes_stepped hI hC he hscalar s).mono le_rfl fun v s' _ _ ⟨_, h⟩ hfits hr S st hagrees hsteady ↦ ?_)
  -- The steps differ in their values only.
  have hstep := (h hfits hr S st hagrees hsteady).mono le_rfl fun _ _ hq ↦ hq.1
  simp only [Interpretation.stepped] at hstep ⊢
  cases hL : δ.locus S with
  | error v S1 =>
    rw [eval_bind_error hL] at hstep ⊢
    exact hstep
  | ok L S1 =>
    rw [eval_bind_ok hL] at hstep ⊢
    cases before <;> exact hstep

/-! ## Conversions -/

lemma convertConstant_eq_none (htarget : target.isBlock = false) (h : convertConstant v source target = none) :
    (∃ base offset, v = .address base offset) ∨ ∃ p, v = .load p := by
  cases v with
  | address base offset => exact .inl ⟨base, offset, rfl⟩
  | load p => exact .inr ⟨p, rfl⟩
  | imm value | float x => cases target <;> simp_all [convertConstant, intBits, Rep.isFloat, Rep.isBlock]

lemma convertConstant_eq_some (h : convertConstant v source target = some c) :
    (∀ p, v ≠ .load p) ∧ (∀ base offset, v ≠ .address base offset) ∧ (∀ p, c ≠ .load p) ∧
      ∀ base offset, c ≠ .address base offset := by
  cases v with
  | address base offset | load p => simp [convertConstant] at h
  | imm value | float x =>
    have hc : (∃ n, c = .imm n) ∨ ∃ y, c = .float y := by
      cases target <;> cases h <;> simp
    rcases hc with ⟨n, rfl⟩ | ⟨y, rfl⟩ <;> exact ⟨nofun, nofun, nofun, nofun⟩

lemma sameBits_self (v : Operand) (rep : Rep) : sameBits v rep rep = true := by
  cases rep <;> simp [sameBits]

lemma words_le_of_sameBits (h : sameBits v source target = true) (htarget : target.isBlock = false) :
    target.words ≤ source.words := by
  cases source <;> cases target <;> simp_all [sameBits, Rep.words, Rep.isBlock]

lemma Operand.word_rep (hv : ∀ x, v ≠ .float x) (rep rep' : Rep) (i : Nat) :
    v.word M st rep i = v.word M st rep' i := by
  cases v with
  | float x => exact absurd rfl (hv x)
  | imm value | address base offset | load p => rfl

lemma Interpretation.convert_of_ne (h : source ≠ target) (value : Nat → V) :
    I.convert source target value = I.cast source target (source.list value) := if_neg h

lemma Interpretation.convert_congr {value' : Nat → V} (h : ∀ i < source.words, value i = value' i)
    (hk : k < target.words) : I.convert source target value k = I.convert source target value' k := by
  unfold Interpretation.convert
  split
  · rename_i heq
    exact h k (heq ▸ hk)
  · have hlist : source.list value = source.list value' := map_congr_left fun i hi ↦ h i (mem_range.mp hi)
    rw [hlist]

lemma Interpretation.Lawful.convert_same (hI : I.Lawful) (h : sameBits v source target = true)
    (htarget : target.isBlock = false) (hi : i < target.words) : I.convert source target value i = value i := by
  unfold Interpretation.convert
  split
  · rfl
  · rename_i hne
    exact hI.cast_same v source target value h hne htarget i hi

include hI in
lemma makes_convert (hlo : lo ≤ s.nextLabel) (htarget : target.isBlock = false)
    (hconstant : ∀ c, convertConstant v source target = some c →
      ∀ k < target.words, I.convert source target (I.literal source v) k = I.literal target c k) :
    Makes C lo s (convert v source target) fun w s' code ↦
      ((∃ p, w = .load p) ∨ convertConstant v source target = some w ∨
        convertConstant v source target = none ∧ sameBits v source target = true ∧ w = v) ∧
      (I.Fits s' → s.reachable = true → ∀ past st σ value (sources : Cell → Prop), Agrees I σ st →
        Stands I s.slots.size sources v source value st →
        ∃ st', exec I.toWorld code none past st = (past, .next st') ∧ Agrees I σ st' ∧
          KeepsTemps I s.slots.size st st' ∧ s'.reachable = true ∧
          Stands I s'.slots.size (fun c ↦ sameBits v source target = true ∧ sources c) w target
            (I.convert source target value) st') := by
  unfold convert
  split
  case h_1 c hc =>
    obtain ⟨hv, _, hload, _⟩ := convertConstant_eq_some hc
    refine .pure ⟨.inr (.inl hc), fun _ hr _ st σ value _ hagrees hstands ↦
      ⟨st, rfl, hagrees, KeepsTemps.refl _ _ _, hr, fun st' _ hkeeps k hk ↦ ?_⟩⟩
    have hsource : ∀ i < source.words, I.literal source v i = value i := by
      intro i hi
      have hliteral : Stands I 0 (fun _ ↦ False) v source (I.literal source v) st := stands_literal hv
      exact (hliteral.word hi).symm.trans (hstands.word hi)
    have hword : c.word I.toModel st' target k = I.literal target c k := by
      have hliteral : Stands I 0 (fun _ ↦ False) c target (I.literal target c) st' := stands_literal hload
      exact hliteral.word hk
    rw [hword, ← hconstant c hc k hk]
    exact Interpretation.convert_congr hsource hk
  case h_2 hnone =>
    have hfloat : ∀ x, v ≠ .float x := by
      rintro x rfl
      rcases convertConstant_eq_none htarget hnone with ⟨_, _, h⟩ | ⟨_, h⟩ <;> cases h
    refine .ite (fun hsame ↦ ?_) fun hsame ↦ ?_
    · refine .pure ⟨.inr (.inr ⟨hnone, hsame, rfl⟩), fun _ hr _ st σ _ _ hagrees hstands ↦
        ⟨st, rfl, hagrees, KeepsTemps.refl _ _ _, hr, fun st' hsources hkeeps k hk ↦ ?_⟩⟩
      rw [word_rep hfloat target source, hI.convert_same hsame htarget hk]
      exact hstands st' (fun c hc ↦ hsources c ⟨hsame, hc⟩) hkeeps k
        (lt_of_lt_of_le hk (words_le_of_sameBits hsame htarget))
    · refine .compute I hlo (fun _ ↦ rfl) (fun _ ↦ rfl) (fun _ _ _ ↦ rfl) fun s' _ hc ↦ .pure ⟨.inl ⟨_, rfl⟩, ?_⟩
      intro hfits hr _ st σ _ _ hagrees hstands
      rw [append_nil]
      refine ⟨_, hc.exec hr _ _, hagrees.write_temp (hc.hidden hfits) _ _, keeps_write_temp le_rfl _ _,
        hc.reachable, ?_⟩
      have hne : source ≠ target := by
        rintro rfl
        exact absurd (hsame.symm.trans (sameBits_self v source)) Bool.noConfusion
      refine stands_temp (hc.hidden hfits) (by simp [hc.size]) le_rfl fun i _ ↦ ?_
      rw [Interpretation.convert_of_ne hne, ← hstands.words]

include hI hC in
lemma Meaning.Computed.cast (he : d.Computed I C e) (hrep : d.rep = I.rep e.type) (hscalar : I.IsScalar type)
    (hvoid : I.types.isVoid type = true → form (.imm 0)) (hload : ∀ p, form (.load p))
    (hconstant : I.types.isVoid type = false → ∀ v c, d.form v → convertConstant v d.rep (I.rep type) = some c →
      form c ∧ ∀ k < (I.rep type).words,
        I.convert d.rep (I.rep type) (I.literal d.rep v) k = I.literal (I.rep type) c k)
    (hsame : I.types.isVoid type = false → ∀ v, d.form v → convertConstant v d.rep (I.rep type) = none →
      sameBits v d.rep (I.rep type) = true → form v)
    (hsources : ∀ S c v, sameBits v d.rep (I.rep type) = true → d.sources S c → sources S c) :
    Computed ⟨I.rep type, do
      let x ← d.value
      return if I.types.isVoid type then I.int 0 else I.convert d.rep (I.rep type) x, d.steady, sources, form⟩ I C
      (cast type e) := by
  have hvalue : Gives ⟨I.rep type, do
      let x ← d.value
      return if I.types.isVoid type then I.int 0 else I.convert d.rep (I.rep type) x, d.steady, sources, form⟩ I C
      (Lowering.cast type e).value := by
    intro s
    refine .after (x := read) rfl (.refl _ s) (.ite (fun hv ↦ ?_) fun hv ↦ ?_)
    · have hv : I.types.isVoid type = true := hC ▸ hv
      refine (he.effect s).bind fun _ s' _ _ h ↦ .pure ⟨hvoid hv, fun hfits hr S st hagrees hsteady ↦ ?_⟩
      rw [append_nil]
      refine (h hfits hr S st hagrees hsteady).map le_rfl (fun _ _ ↦ rfl) fun x S' st' _ _ _ hq ↦ ?_
      rw [if_pos hv]
      exact ⟨hq, nofun, stands_literal nofun⟩
    · have hv : I.types.isVoid type = false := hC ▸ hv
      refine .repIn hC (.repIn hC ((he.value s).bind fun v s1 _ happ1 ⟨hform, h1⟩ ↦ ?_))
      rw [← hrep]
      refine (makes_convert hI happ1.nextLabel hscalar fun c hc ↦ (hconstant hv v c hform hc).2).mono le_rfl
        fun w s2 _ happ2 ⟨hw, h2⟩ ↦ ⟨?_, fun hfits hr S st hagrees hsteady ↦ ?_⟩
      · rcases hw with ⟨p, rfl⟩ | hc | ⟨hnone, hbits, rfl⟩
        · exact hload p
        · exact (hconstant hv v w hform hc).1
        · exact hsame hv w hform hnone hbits
      · refine (h1 (hfits.before happ2) hr S st hagrees hsteady).bind
          fun x S1 st1 _ hagrees1 _ ⟨hr1, hvisible, hstands⟩ ↦ ?_
        obtain ⟨_, hexec, hagrees2, hkeeps2, hr2, hstands2⟩ := h2 hfits hr1 S1.past st1 _ x _ hagrees1 hstands
        refine .pure hexec hagrees2 (hkeeps2.mono happ1.size) ⟨hr2, fun t k heq ↦ ?_, ?_⟩
        · rcases hw with ⟨p, rfl⟩ | hc | ⟨_, _, rfl⟩
          · cases heq
          · exact absurd heq ((convertConstant_eq_some hc).2.2.2 _ _)
          · exact hvisible t k heq
        · rw [hv, if_neg Bool.noConfusion]
          exact hstands2.mono le_rfl fun c hc ↦ hsources S c v hc.1 hc.2
  refine ⟨hvalue, fun s ↦ ?_, (Computed.ofValue hC rfl hvalue).branch⟩
  refine (he.effect s).mono le_rfl fun _ s' _ _ h hfits hr S st hagrees hsteady ↦ ?_
  exact (h hfits hr S st hagrees hsteady).map le_rfl (fun _ _ ↦ rfl) fun _ _ _ _ _ _ hq ↦ hq

/-- The old value of an object and that of an operand that is evaluated later change the object. -/
def Interpretation.compound (I : Interpretation V) (op : BinaryOp) (rep opRep : Rep) (locus : Eval V (Locus V))
    (value : Eval V (Nat → V)) : Eval V (Nat → V) := do
  let L ← locus
  let old ← I.load L
  let y ← value
  let x := I.convert rep opRep old
  I.store L rep (I.convert opRep rep (I.binary op opRep (opRep.list x) ((rightRep op opRep).list y)))
  I.load L

include hI in
lemma makes_update {opRep : Rep} {p : Place} (hlo : lo ≤ s.nextLabel) (hopRep : opRep.isBlock = false) :
    Makes C lo s (if rep = opRep then (do
        emit (.binary op rep p (.load p) w)
        return load p)
      else (do
        let lhs ← convert (.load p) rep opRep
        let t ← newTemp opRep
        emit (.binary op opRep t lhs w)
        emit (.cast p rep (.load t) opRep)
        return load p)) fun v s' code ↦ v = .load p ∧
      (I.Fits s' → s.reachable = true → ∀ past st (S : Store V) n reach L y (sources : Cell → Prop), n ≤ s.slots.size →
        Agrees I S.state st → LeadsTo I n reach (fun _ ↦ False) p L st →
        Stands I s.slots.size sources w (rightRep op opRep) y st →
        let old i := S.state.mem (L.cell I.toModel i)
        let new := I.convert opRep rep
          (I.binary op opRep (opRep.list (I.convert rep opRep old)) ((rightRep op opRep).list y))
        ∃ st', exec I.toWorld code none past st = (past, .next st') ∧
          Agrees I (I.written L rep new S.state) st' ∧ KeepsTemps I s.slots.size st st' ∧ s'.reachable = true ∧
          LeadsTo I n reach (fun _ ↦ False) p L st') := by
  by_cases heq : rep = opRep
  · subst heq
    rw [if_pos rfl]
    refine .overwrite I hlo rfl rfl (fun _ _ ↦ rfl) fun s1 _ happ1 _ hreach1 hexec ↦ .pure ⟨rfl, ?_⟩
    intro _ hr past st S n _ L y _ _ hagrees hleads hw
    rw [List.append_nil]
    have hvalue : (Prim.binary op rep p (.load p) w).value I.toModel st = I.convert rep rep
        (I.binary op rep (rep.list (I.convert rep rep fun i ↦ S.state.mem (L.cell I.toModel i)))
          ((rightRep op rep).list y)) := by
      rw [Prim.value, (hleads.stands hI hagrees rep).words, hw.words]
      simp [Interpretation.convert]
    obtain ⟨hagrees1, hkeeps1, hleads1⟩ := hleads.write hI hagrees fun i _ ↦ congrFun hvalue i
    exact ⟨_, hexec hr _ _, hagrees1, hkeeps1 _, hreach1, hleads1⟩
  · rw [if_neg heq]
    have hload : ∀ c, convertConstant (.load p) rep opRep = some c → ∀ k < opRep.words,
        I.convert rep opRep (I.literal rep (.load p)) k = I.literal opRep c k :=
      fun c hc ↦ absurd rfl ((convertConstant_eq_some hc).1 p)
    refine (makes_convert hI le_rfl hopRep hload).bindFrom hlo fun lhs s1 _ happ1 hlhs ↦ ?_
    obtain ⟨_, h1⟩ := hlhs
    have hlo1 : lo ≤ s1.nextLabel := le_trans hlo happ1.nextLabel
    refine .compute I hlo1 (fun _ ↦ rfl) (fun _ ↦ rfl) (fun _ _ _ ↦ rfl) fun s2 _ hc ↦ ?_
    refine .overwrite I (le_trans hlo1 hc.appends.nextLabel) rfl rfl (fun _ _ ↦ rfl)
      fun s3 _ happ3 _ hreach3 hexec3 ↦ .pure ⟨rfl, ?_⟩
    intro hfits hr past st S n _ L y _ hn hagrees hleads hw
    rw [List.append_nil]
    have hfits2 : I.Fits s2 := hfits.before happ3
    have hold := (hleads.stands hI hagrees rep).mono hn fun c hc ↦ hc
    obtain ⟨st1, hexec1, hagrees1, hkeeps1, hr1, hlhs⟩ :=
      h1 (hfits2.before hc.appends) hr past st S.state _ _ hagrees hold
    have hw1 := hw.across hagrees hagrees1 (fun _ _ ↦ rfl) hkeeps1
    let node := Prim.binary op opRep (.slot ⟨s1.slots.size⟩ 0) lhs w
    let st2 := st1.write I.toModel (.slot ⟨s1.slots.size⟩ 0) opRep.words (node.value I.toModel st1)
    have hbinary : node.value I.toModel st1 =
        I.binary op opRep (opRep.list (I.convert rep opRep fun i ↦ S.state.mem (L.cell I.toModel i)))
          ((rightRep op opRep).list y) := by
      rw [Prim.value, hlhs.words, hw1.words]
    have hagrees2 : Agrees I S.state st2 := hagrees1.write_temp (hc.hidden hfits2) _ _
    have hkeeps2 : KeepsTemps I s1.slots.size st1 st2 := keeps_write_temp le_rfl _ _
    have hkept := hkeeps1.trans (hkeeps2.mono happ1.size)
    have htemp : Stands I s2.slots.size (fun _ ↦ False) (.load (.slot ⟨s1.slots.size⟩ 0)) opRep _ st2 :=
      stands_temp (hc.hidden hfits2) (by simp [hc.size]) le_rfl fun i _ ↦ congrFun hbinary i
    have hcast : (Prim.cast p rep (.load (.slot ⟨s1.slots.size⟩ 0)) opRep).value I.toModel st2 =
        I.convert opRep rep (I.binary op opRep
          (opRep.list (I.convert rep opRep fun i ↦ S.state.mem (L.cell I.toModel i)))
          ((rightRep op opRep).list y)) := by
      rw [Prim.value, htemp.words, Interpretation.convert_of_ne (Ne.symm heq)]
    obtain ⟨hagrees3, hkeeps3, hleads3⟩ := (hleads.later (fun _ h ↦ h.elim) (hkept.mono hn)).write hI hagrees2
      fun i _ ↦ congrFun hcast i
    refine ⟨_, ?_, hagrees3, hkept.trans (hkeeps3 _), hreach3, hleads3⟩
    rw [exec_append_next hexec1, exec_append_next (hc.exec hr1 _ _)]
    exact hexec3 hc.reachable _ _

include hI hC in
lemma Meaning.Computed.compound {opType : TypeId} (hl : δ.Located I C l.place)
    (hr : dr.Computed I C r) (htype : rep = I.rep l.type) (hopScalar : I.IsScalar opType) (hrep : I.rep type = rep)
    (hrepr : dr.rep = rightRep op (I.rep opType))
    (hsources : ∀ S c L S', δ.locus S = .ok L S' → L.Covers I.toModel rep.words c → sources S c)
    (hform : ∀ p, form (.load p)) : Computed ⟨I.rep type, I.compound op rep (I.rep opType) δ.locus dr.value,
      fun S ↦ δ.steady S ∧ ∀ L S1, δ.locus S = .ok L S1 → dr.steady S1 ∧ ∀ y S2, dr.value S1 = .ok y S2 →
        S1.SameIn (L.Covers I.toModel rep.words) S2, sources, form⟩ I C (compound type op l r opType) := by
  subst htype
  refine .ofValue hC rfl fun s ↦ .repIn hC (.repIn hC (hl.stable fun p s1 _ happ1 h1 ↦ ?_))
  refine (hr.value s1).bindFrom happ1.nextLabel fun w s2 _ happ2 ⟨_, h2⟩ ↦ ?_
  refine (makes_update hI (le_trans happ1.nextLabel happ2.nextLabel) hopScalar).mono le_rfl
    fun v s3 _ happ3 ⟨hv, h3⟩ ↦ ?_
  subst hv
  refine ⟨hform p, fun hfits hreach S st hagrees hsteady ↦ ?_⟩
  have hfits2 : I.Fits s2 := hfits.before happ3
  refine (h1 (hfits2.before happ2) hreach S st hagrees hsteady.1).bind fun L S1 st1 hL hagrees1 _ ⟨hr1, hleads⟩ ↦ ?_
  obtain ⟨hsteadyr, hsame⟩ := hsteady.2 L S1 hL
  rw [eval_bind_ok (x := I.load L) rfl]
  refine ((h2 hfits2 hr1 S1 st1 hagrees1 hsteadyr).keeping happ1.size).bind
    fun y S2 st2 hy hagrees2 _ ⟨⟨hr2, _, hstands⟩, hkeeps⟩ ↦ ?_
  rw [hrepr] at hstands
  obtain ⟨st3, hexec, hagrees3, hkeeps3, hreach3, hleads3⟩ :=
    h3 hfits hr2 S2.past st2 S2 _ _ L y _ happ2.size hagrees2 (hleads.later nofun hkeeps) hstands
  -- What the object held is still there when it is read.
  have hold : (I.rep opType).list (I.convert (I.rep l.type) (I.rep opType) fun i ↦ S2.state.mem (L.cell I.toModel i)) =
      (I.rep opType).list (I.convert (I.rep l.type) (I.rep opType) fun i ↦ S1.state.mem (L.cell I.toModel i)) :=
    map_congr_left fun k hk ↦ Interpretation.convert_congr (fun i hi ↦ hsame y S2 hy _ ⟨i, hi, rfl⟩) (mem_range.mp hk)
  rw [hold] at hagrees3
  refine ⟨st3, hexec, hagrees3, hkeeps3.mono (le_trans happ1.size happ2.size), hreach3, nofun, ?_⟩
  rw [hrep]
  exact (hleads3.stands (S := ⟨S2.past, _⟩) hI hagrees3 (I.rep l.type)).mono (le_trans happ2.size happ3.size)
    fun c hc ↦ hsources S c L S1 hL (hc.resolve_left id)

/-! ## Moved pointers -/

lemma Stands.pointer_word (h : Stands I n cells v rep value st)
    (hword : rep.isWord = true) : v.word I.toModel st pointerRep 0 = value 0 :=
  (word_isWord rfl hword v 0).trans (h.word (Rep.words_of_isWord hword ▸ one_pos))

lemma stands_pointer {p : V} (ht : I.hidden t = true)
    (hn : t.index < n) (hword : rep.isWord = true) (hk : 0 < k) (hvalue : value 0 = p) :
    Stands I n cells (.load (.slot t 0)) rep (I.pointer p) (st.write I.toModel (.slot t 0) k value) := by
  have hwords : rep.words = 1 := Rep.words_of_isWord hword
  refine stands_temp ht hn (hwords ▸ hk) fun i hi ↦ ?_
  have hzero : i = 0 := Nat.lt_one_iff.mp (hwords ▸ hi)
  rw [hzero, hvalue]
  rfl

lemma makes_adjusted (hoffset : offset ≠ 0) (hv : ∀ base k, v ≠ .address base k)
    (hword : rep.isWord = true) (hlo : lo ≤ s.nextLabel) :
    Makes C lo s (adjusted v offset nullCheck) fun w s' code ↦ (∃ p, w = .load p) ∧
      (I.Fits s' → s.reachable = true → ∀ past st {σ p}, Agrees I σ st → v.word I.toModel st pointerRep 0 = p →
        ∃ st', exec I.toWorld code none past st = (past, .next st') ∧ Agrees I σ st' ∧
          KeepsTemps I s.slots.size st st' ∧ s'.reachable = true ∧
          Stands I s'.slots.size (fun _ ↦ False) w rep (I.pointer (I.adjust p offset nullCheck)) st') := by
  unfold adjusted
  rw [if_neg hoffset]
  split
  case h_1 base k => exact absurd rfl (hv base k)
  case h_2 =>
    cases nullCheck with
    | false =>
      refine .compute I hlo (fun _ ↦ rfl) (fun _ ↦ rfl) (fun _ _ _ ↦ rfl) fun s1 code1 hc ↦ .pure ⟨⟨_, rfl⟩, ?_⟩
      intro hfits hr past st σ p hagrees hp
      rw [append_nil]
      refine ⟨_, hc.exec hr past st, hagrees.write_temp (hc.hidden hfits) _ _, keeps_write_temp le_rfl _ _,
        hc.reachable,
        stands_pointer (hc.hidden hfits) (by simp [hc.size]) hword one_pos ?_⟩
      rw [Interpretation.adjust, if_neg (by simp [hoffset]), ← hp]
      rfl
    | true =>
      let skip : Label := ⟨s.nextLabel⟩
      refine .newTemp (.newLabel (.emitThen (Nat.le_succ_of_le hlo) rfl fun s1 code1 happ1 hcode1 hreach1 hslots1 ↦ ?_))
      have hlt1 : s.nextLabel < s1.nextLabel := happ1.nextLabel
      refine .emitThen (by omega) rfl fun s2 code2 happ2 hcode2 hreach2 hslots2 ↦ ?_
      have hlt2 : s.nextLabel < s2.nextLabel := lt_of_lt_of_le hlt1 happ2.nextLabel
      refine .emitThen (by omega) rfl fun s3 code3 happ3 hcode3 _ hslots3 ↦ ?_
      have hlt3 : s.nextLabel < s3.nextLabel := lt_of_lt_of_le hlt2 happ3.nextLabel
      refine .markThen hlo hlt3 fun s4 happ4 hreach4 hslots4 ↦ .pure ⟨⟨_, rfl⟩, ?_⟩
      intro hfits hr past st σ p hagrees hp
      have hsize : s.slots.size < s4.slots.size := by
        rw [hslots4, hslots3, hslots2, hslots1]
        exact Nat.lt_of_lt_of_eq (lt_add_one _) (Array.size_push _).symm
      have ht : I.hidden ⟨s.slots.size⟩ = true :=
        (((((hfits.before happ4).before happ3).before happ2).before happ1).before (.withLabel 0 _)).hidden_temp
      -- The copy of the pointer is tested, and moved if it is not null.
      let st1 := st.write I.toModel (.slot ⟨s.slots.size⟩ 0) 1 (assignedWord I.toModel st pointerRep v)
      have hcopy : (load (.slot ⟨s.slots.size⟩ 0)).words I.toModel st1 pointerRep = [p] :=
        congrArg (fun w ↦ [w]) ((mem_write_temp ⟨s.slots.size⟩ one_pos _).trans hp)
      have hfirst : exec I.toWorld (code1 ++ (code2 ++ (code3 ++ [⟨.label skip, some s3.loc⟩]))) none past st =
          carryOn I.toWorld (code3 ++ [⟨.label skip, some s3.loc⟩])
            (past, taken false skip (!I.isZero pointerRep [p]) st1) := by
        rw [hcode1 hr, exec_append_next (exec_assign _ _ _), hcode2 hreach1, exec_append, exec_test]
        exact congrArg (fun ws ↦ carryOn I.toWorld _ (past, taken false skip (!I.isZero pointerRep ws) st1)) hcopy
      have hagrees1 : Agrees I σ st1 := hagrees.write_temp ht _ _
      have hkeeps1 : KeepsTemps I s.slots.size st st1 := keeps_write_temp le_rfl _ _
      rw [append_nil]
      cases hz : I.isZero pointerRep [p] with
      | true =>
        refine ⟨st1, ?_, hagrees1, hkeeps1, hreach4, stands_pointer ht hsize hword one_pos ?_⟩
        · refine hfirst.trans ?_
          rw [hz]
          exact carryOn_skip (happ3.not_mem_labels hlt2) _
        · rw [Interpretation.adjust, hz, if_pos (by simp)]
          exact hp
      | false =>
        let moved := I.binary .add pointerRep ((load (.slot ⟨s.slots.size⟩ 0)).words I.toModel st1 pointerRep)
          ((imm offset).words I.toModel st1 pointerRep)
        refine ⟨st1.write I.toModel (.slot ⟨s.slots.size⟩ 0) 1 moved, ?_, hagrees1.write_temp ht _ _,
          hkeeps1.trans (keeps_write_temp le_rfl _ _), hreach4, stands_pointer ht hsize hword one_pos ?_⟩
        · refine hfirst.trans ?_
          rw [hz, hcode3 hreach2]
          exact exec_append_next (exec_binary _ _ _ _ _)
        · rw [Interpretation.adjust, hz, if_neg (by simp [hoffset])]
          exact congrArg (fun ws ↦ I.binary .add pointerRep ws [I.int offset 0] 0) hcopy

include hI hC in
lemma Meaning.Computed.adjusted {reach : Nat} (he : d.Computed I C e)
    (hword : d.rep.isWord = true) (htype : (I.rep type).isWord = true) (hreach : reach + offset.natAbs < 2 ^ 15)
    (haddress : ∀ base k, d.form (.address base k) → isAddress = true ∧ k.natAbs ≤ reach)
    (hsources : ∀ S c, offset = 0 → d.sources S c → sources S c) (hzero : offset = 0 → ∀ v, d.form v → form v)
    (hmoved : offset ≠ 0 → ∀ base k, d.form (.address base k) → form (.address base (k + offset)))
    (hload : ∀ p, form (.load p)) :
    Computed ⟨I.rep type, do return I.pointer (I.adjust ((← d.value) 0) offset nullCheck),
      fun S ↦ d.steady S ∧ ∀ x S1, d.value S = .ok x S1 → isAddress = true → nullCheck = true → offset ≠ 0 →
        I.isZero pointerRep [x 0] = false, sources, form⟩ I C
      (Lowered.ofValue type (do adjusted (← e.value) offset nullCheck)) := by
  refine .ofValue hC rfl fun s ↦ (he.value s).bind fun v s1 _ happ1 ⟨hv, h1⟩ ↦ ?_
  by_cases hoffset : offset = 0
  · unfold Lowering.adjusted
    rw [if_pos hoffset]
    refine .pure ⟨hzero hoffset v hv, fun hfits hr S st hagrees hsteady ↦ ?_⟩
    rw [append_nil]
    refine (h1 hfits hr S st hagrees hsteady.1).map le_rfl (fun _ _ ↦ rfl) ?_
    intro x S' st' _ _ _ ⟨hr', hvisible, hstands⟩
    refine ⟨hr', hvisible, fun st'' hcells hkeeps i hi ↦ ?_⟩
    have hlater := hstands.later (fun c hc ↦ hcells c (hsources S c hoffset hc)) hkeeps
    have hi : i = 0 := Nat.lt_one_iff.mp (Rep.words_of_isWord htype ▸ hi)
    have hpointer : v.word I.toModel st'' (I.rep type) 0 = x 0 :=
      (word_isWord htype rfl v 0).trans (hlater.pointer_word hword)
    rw [hi, hpointer, Interpretation.adjust, hoffset]
    rfl
  · by_cases hknown : ∃ base k, v = .address base k
    · obtain ⟨base, k, rfl⟩ := hknown
      obtain ⟨hisAddress, _⟩ := haddress base k hv
      have hwrap : wrap32 (k + offset) = k + offset := wrap32_of_natAbs_lt (by omega)
      simp only [Lowering.adjusted, if_neg hoffset, hwrap]
      refine .pure ⟨hmoved hoffset base k hv, fun hfits hr S st hagrees hsteady ↦ ?_⟩
      rw [List.append_nil]
      refine (h1 hfits hr S st hagrees hsteady.1).map le_rfl (fun _ _ ↦ rfl) ?_
      intro x S' st' hx _ _ ⟨hr', hvisible, hstands⟩
      have hpointer : I.toModel.address base k = x 0 := hstands.pointer_word hword
      have hmove : I.adjust (x 0) offset nullCheck = I.toModel.address base (k + offset) := by
        have hnull : (offset = 0 || (nullCheck && I.isZero pointerRep [x 0])) = false := by
          cases nullCheck with
          | false => simp [hoffset]
          | true => simp [hoffset, hsteady.2 x S' hx hisAddress rfl hoffset]
        rw [Interpretation.adjust, hnull, if_neg Bool.noConfusion, ← hpointer, hI.advance_address _ _ _ (by omega)]
      rw [hmove]
      refine ⟨hr', fun t j heq ↦ ?_, stands_literal nofun⟩
      cases heq
      exact hvisible t k rfl
    · refine (makes_adjusted (I := I) hoffset (fun base k heq ↦ hknown ⟨base, k, heq⟩) htype happ1.nextLabel).mono
        le_rfl fun w s2 _ happ2 ⟨⟨p, hw⟩, h2⟩ ↦ ⟨hw ▸ hload p, fun hfits hr S st hagrees hsteady ↦ ?_⟩
      refine (h1 (hfits.before happ2) hr S st hagrees hsteady.1).bind fun x S1 st1 _ hagrees1 _ ⟨hr1, _, hstands⟩ ↦ ?_
      obtain ⟨_, hexec, hagrees2, hkeeps2, hr2, hstands2⟩ :=
        h2 hfits hr1 S1.past st1 hagrees1 (hstands.pointer_word hword)
      refine .pure hexec hagrees2 (hkeeps2.mono happ1.size) ⟨hr2, fun t k heq ↦ ?_, hstands2.mono le_rfl nofun⟩
      cases hw.symm.trans heq

end

end W16Compiler
