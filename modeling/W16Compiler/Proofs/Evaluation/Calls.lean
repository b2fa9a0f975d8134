import W16Compiler.Proofs.Evaluation.Assignments

/-!
# Code for calls

The arguments are computed one after another and wait until the callee is found. Then they are put below the
stack pointer, and the function is called. What it sees, and hence what it answers, is the same as in the
evaluation, for the temporaries are hidden from it.
-/

namespace W16Compiler

open Lowering List Flow Interpretation

variable {V β : Type} {I : Interpretation V} {C : Context} {target : CallTarget} {R : β → State → Flow → Prop}
  {result : Option (Place × Rep)} {s : State} {loc : Option Location} {f : String ⊕ V} {S : Store V}

/-! ## Arguments that wait -/

structure ArgumentList (V : Type) where
  values : Eval V (List (Rep × (Nat → V)))
  steady : Store V → Prop
  sources : Store V → Cell → Prop

def AllStand (I : Interpretation V) (n : Nat) (sources : Cell → Prop) (vs : List (Operand × Rep))
    (xs : List (Rep × (Nat → V))) (st : PrimState V) : Prop :=
  List.Forall₂ (fun v x ↦ v.2 = x.1 ∧ x.1.isBlock = false ∧ Stands I n sources v.1 x.1 x.2 st) vs xs

def ArgumentList.Given (a : ArgumentList V) (I : Interpretation V) (C : Context) (args : List Lowered) : Prop :=
  ∀ s, Makes C s.nextLabel s (args.mapM fun e ↦ do
      let rep ← e.rep
      return (← e.value, rep)) fun vs s' code ↦
    Mirrors I s.slots.size s s' code a.steady a.values onward fun S xs st ↦ s'.reachable = true ∧
      AllStand I s'.slots.size (a.sources S) vs xs st

variable {n : Nat} {vs : List (Operand × Rep)} {xs : List (Rep × (Nat → V))} {st : PrimState V} {a : ArgumentList V}
  {d : Meaning V} {e : Lowered} {args : List Lowered}

section

variable {m : Nat} {sources sources' : Cell → Prop} {st' : PrimState V} (h : AllStand I n sources vs xs st)

include h

lemma AllStand.later
    (hsources : ∀ c, sources c → ¬ I.Temporary c → st'.mem c = st.mem c) (hkeeps : KeepsTemps I n st st') :
    AllStand I n sources vs xs st' :=
  Forall₂.imp (fun _ _ ⟨hrep, hscalar, hstands⟩ ↦ ⟨hrep, hscalar, hstands.later hsources hkeeps⟩) h

lemma AllStand.mono (hn : n ≤ m) (hs : ∀ c, sources c → sources' c) : AllStand I m sources' vs xs st :=
  Forall₂.imp (fun _ _ ⟨hrep, hscalar, hstands⟩ ↦ ⟨hrep, hscalar, hstands.mono hn hs⟩) h

lemma AllStand.across (hagrees : Agrees I S.state st)
    (hagrees' : Agrees I S'.state st') (hsame : S.SameIn sources S') (hkeeps : KeepsTemps I n st st') :
    AllStand I n sources vs xs st' :=
  Forall₂.imp (fun _ _ ⟨hrep, hscalar, hstands⟩ ↦ ⟨hrep, hscalar, hstands.across hagrees hagrees' hsame hkeeps⟩) h

lemma AllStand.words : total (vs.map (·.2.words)) = argWords xs := by
  induction h with
  | nil => rfl
  | cons hvx _ ih =>
    rw [argWords, map_cons, map_cons, total, total, foldr_cons, foldr_cons, hvx.1]
    exact congrArg _ ih

end

section

variable (hC : C.types = I.types)

lemma ArgumentList.given_nil : ArgumentList.Given ⟨return [], fun _ ↦ True, fun _ _ ↦ False⟩ I C [] := by
  intro s
  rw [mapM_nil]
  exact .pure fun _ hr S st hagrees _ ↦ .pure rfl hagrees (KeepsTemps.refl _ _ _) ⟨hr, .nil⟩

include hC in
lemma ArgumentList.Given.cons (he : d.Computed I C e) (hrep : d.rep = I.rep e.type) (hscalar : d.rep.isBlock = false)
    (ha : a.Given I C args) :
    ArgumentList.Given ⟨do
      let x ← d.value
      let xs ← a.values
      return (d.rep, x) :: xs,
      fun S ↦ d.steady S ∧ ∀ x S1, d.value S = .ok x S1 →
        a.steady S1 ∧ ∀ xs S2, a.values S1 = .ok xs S2 → S1.SameIn (d.sources S) S2,
      fun S c ↦ d.sources S c ∨ ∃ x S', d.value S = .ok x S' ∧ a.sources S' c⟩ I C (e :: args) := by
  intro s
  simp only [mapM_cons, bind_assoc, pure_bind]
  refine .repIn hC ((he.value s).bind fun v s1 _ happ1 ⟨_, h1⟩ ↦ (ha s1).bindFrom happ1.nextLabel
    fun vs s2 _ happ2 h2 ↦ .pure fun hfits hr S st hagrees hsteady ↦ ?_)
  rw [append_nil, ← hrep]
  refine (h1 (hfits.before happ2) hr S st hagrees hsteady.1).bind fun x S1 st1 hx hagrees1 _ ⟨hr1, _, hv⟩ ↦ ?_
  obtain ⟨hsteady1, hsame⟩ := hsteady.2 x S1 hx
  refine (h2 hfits hr1 S1 st1 hagrees1 hsteady1).map happ1.size (fun _ _ ↦ rfl) ?_
  intro xs S2 st2 hxs hagrees2 hkeeps ⟨hr2, hvs⟩
  refine ⟨hr2, .cons ⟨rfl, hscalar, ?_⟩ (hvs.mono le_rfl fun c hc ↦ .inr ⟨x, S1, hx, hc⟩)⟩
  exact (hv.across hagrees1 hagrees2 (hsame xs S2 hxs) hkeeps).mono happ2.size fun c hc ↦ .inl hc

end

/-! ## Callees -/

structure Calling (V : Type) where
  value : Eval V ((String ⊕ V) × Option V)
  steady : Store V → Prop
  sources : Store V → Cell → Prop

def CallTarget.reading (M : Model V) (st : PrimState V) : CallTarget → String ⊕ V
  | .direct label => .inl label
  | .indirect pointer => .inr (pointer.pointer M st)

def Targets (I : Interpretation V) (n : Nat) (sources : Cell → Prop) (target : CallTarget) (f : String ⊕ V)
    (st : PrimState V) : Prop :=
  ∀ st', (∀ c, sources c → ¬ I.Temporary c → st'.mem c = st.mem c) → KeepsTemps I n st st' →
    target.reading I.toModel st' = f

def receivers (this : Option V) (I : Interpretation V) : List (Rep × (Nat → V)) :=
  this.toList.map fun p ↦ (pointerRep, I.pointer p)

def Calling.Found (d : Calling V) (I : Interpretation V) (C : Context) (callee : LoweredCallee) : Prop :=
  ∀ s, Makes C s.nextLabel s callee fun found s' code ↦
    Mirrors I s.slots.size s s' code d.steady d.value onward fun S f st ↦ s'.reachable = true ∧
      Targets I s'.slots.size (d.sources S) found.1 f.1 st ∧
      AllStand I s'.slots.size (fun _ ↦ False) (found.2.map fun v ↦ (v, pointerRep)).toList (receivers f.2 I) st

lemma Calling.found_direct (label : String) :
    Calling.Found ⟨return (.inl label, none), fun _ ↦ True, fun _ _ ↦ False⟩ I C (return (.direct label, none)) :=
  fun _ ↦ .pure fun _ hr _ _ hagrees _ ↦ .pure rfl hagrees (KeepsTemps.refl _ _ _) ⟨hr, fun _ _ _ ↦ rfl, .nil⟩

lemma Calling.found_indirect (he : d.Computed I C e) (hword : d.rep.isWord = true) :
    Calling.Found ⟨do return (.inr ((← d.value) 0), none), d.steady, d.sources⟩ I C
      (do return (.indirect (← e.value), none)) := by
  intro s
  refine (he.value s).bind fun v s1 _ _ ⟨_, h1⟩ ↦ .pure fun hfits hr S st hagrees hsteady ↦ ?_
  rw [append_nil]
  refine (h1 hfits hr S st hagrees hsteady).map le_rfl (fun _ _ ↦ rfl) ?_
  intro x S1 st1 _ _ _ ⟨hr1, _, hstands⟩
  exact ⟨hr1, fun st' hsources hkeeps ↦ congrArg Sum.inr ((hstands.later hsources hkeeps).pointer_word hword), .nil⟩

lemma Calling.found_virtual (hI : I.Lawful) (he : d.Computed I C e) (hword : d.rep.isWord = true) (slot : Nat) :
    Calling.Found ⟨do
        let this := (← d.value) 0
        let table := (← I.load (.indirect this 0)) 0
        let target := (← I.load (.indirect table slot)) 0
        return (.inr target, some this), d.steady,
      fun S c ↦ ∃ x S', d.value S = .ok x S' ∧ ((Locus.indirect (x 0) 0).Covers I.toModel 1 c ∨
        (Locus.indirect (S'.state.mem (I.locate (x 0) 0)) slot).Covers I.toModel 1 c)⟩ I C
      (virtualCallee e slot) := by
  intro s
  refine (he.value s).bind fun v s1 _ happ1 ⟨_, h1⟩ ↦ .copied I happ1.nextLabel
    fun s2 _ hc ↦ .pure fun hfits hr S st hagrees hsteady ↦ ?_
  rw [append_nil]
  refine (h1 (hfits.before hc.appends) hr S st hagrees hsteady).bind fun x S1 st1 hx hagrees1 _ ⟨hr1, _, hstands⟩ ↦ ?_
  have hagrees2 := hagrees1.write_temp (hc.hidden hfits) 1 (assignedWord I.toModel st1 pointerRep v)
  have hthis : Stands I s2.slots.size (fun _ ↦ False) (.load (.slot ⟨s1.slots.size⟩ 0)) pointerRep (I.pointer (x 0))
      (st1.write I.toModel (.slot ⟨s1.slots.size⟩ 0) 1 (assignedWord I.toModel st1 pointerRep v)) :=
    stands_pointer (hc.hidden hfits) (by simp [hc.size]) rfl one_pos (hstands.pointer_word hword)
  refine ⟨_, hc.exec hr1 _ _, hagrees2, keeps_write_temp happ1.size _ _, hc.reachable, fun st' hsources hkeeps ↦ ?_,
    .cons ⟨rfl, rfl, hthis⟩ .nil⟩
  -- The table and the entry are read where the copy of the pointer leads.
  let table := Operand.load (.indirect (.load (.slot ⟨s1.slots.size⟩ 0)) 0)
  have hread : ∀ (q : V) (k : Int), (∃ x S', d.value S = .ok x S' ∧ ((Locus.indirect (x 0) 0).Covers I.toModel 1
      (I.locate q (k + (0 : Nat))) ∨ (Locus.indirect (S'.state.mem (I.locate (x 0) 0)) slot).Covers I.toModel 1
      (I.locate q (k + (0 : Nat))))) →
      st'.mem (I.locate q (k + (0 : Nat))) = S1.state.mem (I.locate q (k + (0 : Nat))) := by
    intro q k hc
    have hvisible : (Locus.indirect q k).Visible I := trivial
    have ht := hvisible.not_temporary hI 0
    exact (hsources _ hc ht).trans (hagrees2.mem _ ht)
  have htable : table.word I.toModel st' pointerRep 0 = S1.state.mem (I.locate (x 0) 0) := by
    have hpointer := (hthis.later nofun hkeeps).pointer_word rfl
    have hcell : table.word I.toModel st' pointerRep 0 = st'.mem (I.locate (x 0) (0 + (0 : Nat))) :=
      congrArg (fun q ↦ st'.mem (I.locate q (0 + (0 : Nat)))) hpointer
    exact hcell.trans (hread _ _ ⟨x, S1, hx, .inl ⟨0, one_pos, rfl⟩⟩)
  have hentry : (Operand.load (.indirect table slot)).word I.toModel st' pointerRep 0 =
      st'.mem (I.locate (S1.state.mem (I.locate (x 0) 0)) (slot + (0 : Nat))) :=
    congrArg (fun q ↦ st'.mem (I.locate q (slot + (0 : Nat)))) htable
  exact congrArg Sum.inr (hentry.trans (hread _ _ ⟨x, S1, hx, .inr ⟨0, one_pos, rfl⟩⟩))

/-! ## Outgoing arguments -/

section

variable {sp : Word} {word lo : Nat} {mem mem' : Cell → V} {c : Cell}

lemma putArgs_congr (h : mem c = mem' c) : putArgs sp word xs mem c = putArgs sp word xs mem' c := by
  induction xs generalizing word mem mem' with
  | nil => exact h
  | cons x xs ih => exact ih (writeWords_congr h (fun _ _ ↦ rfl) fun _ _ ↦ rfl)

lemma putArgs_of_ne (h : ∀ k < argWords xs, c ≠ .outer (sp + .ofNat 16 (word + k))) :
    putArgs sp word xs mem c = mem c := by
  induction xs generalizing word mem with
  | nil => rfl
  | cons x xs ih =>
    have hwords : argWords (x :: xs) = x.1.words + argWords xs := rfl
    refine (ih fun k hk ↦ ?_).trans (writeWords_of_ne fun k hk ↦ h k (by omega))
    rw [add_assoc]
    exact h (x.1.words + k) (by omega)

lemma makes_storeArgs (hlo : lo ≤ s.nextLabel) :
    Makes C lo s (storeArgs word vs) fun _ s' code ↦ s'.slots = s.slots ∧ (s.reachable = true →
      s'.reachable = true ∧ ∀ past st n (cells : Cell → Prop) xs, AllStand I n cells vs xs st →
        (∀ c, cells c → ∀ k < argWords xs, c ≠ .outer (st.sp + .ofNat 16 (word + k))) →
        exec I.toWorld code none past st = (past, .next { st with mem := putArgs st.sp word xs st.mem })) := by
  induction vs generalizing word s with
  | nil =>
    refine .pure ⟨rfl, fun hr ↦ ⟨hr, fun past st n cells xs h _ ↦ ?_⟩⟩
    cases h
    rfl
  | cons v vs ih =>
    obtain ⟨v, _⟩ := v
    refine .emitThen hlo rfl fun s1 _ happ1 hcode1 hreach1 hslots1 ↦ ?_
    refine (ih (le_trans hlo happ1.nextLabel)).mono le_rfl
      fun _ s2 _ _ ⟨hslots2, h2⟩ ↦ ⟨hslots2.trans hslots1, fun hr ↦ ⟨(h2 hreach1).1, ?_⟩⟩
    intro past st n cells xs h hcells
    cases h with
    | @cons _ x _ xs hv hvs =>
      obtain ⟨rfl, hscalar, hstands⟩ := hv
      have hwords : argWords (x :: xs) = x.1.words + argWords xs := rfl
      let st1 : PrimState V := { st with
        mem := writeWords (fun i ↦ .outer (st.sp + .ofNat 16 (word + i))) x.2 x.1.words st.mem }
      have hwritten : st.write I.toModel (.arg word) x.1.words (assignedWord I.toModel st x.1 v) = st1 := by
        refine congrArg (fun mem ↦ { st with mem }) (funext fun c ↦ ?_)
        refine writeWords_congr rfl (fun _ _ ↦ rfl) fun i hi ↦ ?_
        rw [assignedWord_scalar hscalar]
        exact hstands.word hi
      have hkeeps : KeepsTemps I n st st1 := fun _ _ _ _ ↦ writeWords_of_ne nofun
      have hlater : AllStand I n cells vs xs st1 :=
        AllStand.later hvs (fun c hc _ ↦ writeWords_of_ne fun i hi ↦ hcells c hc i (by omega)) hkeeps
      rw [hcode1 hr, exec_append_next (exec_assign _ _ _), hwritten]
      refine (h2 hreach1).2 past st1 n cells xs hlater fun c hc k hk ↦ ?_
      rw [add_assoc]
      exact hcells c hc (x.1.words + k) (by omega)

lemma Lowering.Makes.outgoing {words : Nat} (I : Interpretation V) (hlo : lo ≤ s.nextLabel)
    (hk : ∀ s' code, Appends lo s s' code → s'.slots = s.slots → (s.reachable = true → s'.reachable = true ∧
      ∀ past st n cells xs, AllStand I n cells vs xs st → words = argWords xs →
        (∀ c, cells c → ∀ k < words, c ≠ .outer (st.sp - .ofNat 16 words + .ofNat 16 k)) →
        Flow.exec I.toWorld code none past st = (past, .next (calling xs st))) →
      Makes C lo s' k fun b s2 code' ↦ R b s2 (code ++ code')) :
    Makes C lo s (do
      Lowering.emit (.callStart words)
      Lowering.storeArgs 0 vs
      k) R := by
  refine .emitThen hlo rfl fun s1 code1 happ1 hcode1 hreach1 hslots1 ↦ ?_
  have hlo1 : lo ≤ s1.nextLabel := le_trans hlo happ1.nextLabel
  refine (makes_storeArgs (I := I) hlo1).bind fun _ s2 code2 happ2 ⟨hslots2, h2⟩ ↦ ?_
  refine (hk s2 (code1 ++ code2) ((happ1.mono hlo).trans happ2) (hslots2.trans hslots1) fun hr ↦
    ⟨(h2 hreach1).1, fun past st n cells xs h hwords hcells ↦ ?_⟩).mono le_rfl
    fun b s3 code3 _ hR ↦ List.append_assoc code1 code2 code3 ▸ hR
  rw [hcode1 hr, Flow.exec_append_next (Flow.exec_single rfl)]
  subst hwords
  refine (h2 hreach1).2 past _ n cells xs (h.later (fun _ _ _ ↦ rfl) fun _ _ _ _ ↦ rfl) fun c hc k hk ↦ ?_
  rw [zero_add]
  exact hcells c hc k hk

lemma keeps_calling {st : PrimState V} : KeepsTemps I n st (calling xs st) := fun _ _ _ _ ↦ putArgs_of_ne nofun

lemma Agrees.calling {σ st : PrimState V} (h : Agrees I σ st) : Agrees I (calling xs σ) (calling xs st) where
  mem c hc := by
    rw [Interpretation.calling, Interpretation.calling, h.sp]
    exact putArgs_congr (h.mem c hc)
  sp := by
    rw [Interpretation.calling, Interpretation.calling, h.sp]
  mark := h.mark
  records := h.records
  links := h.links

end

/-! ## The call itself -/

section

variable {σ : PrimState V} {change : Cell → Option V}

lemma Agrees.changed (h : Agrees I σ st) : Agrees I (σ.changed change) (st.changed change) :=
  { h with mem := fun c hc ↦ congrArg (change c).getD (h.mem c hc) }

lemma Agrees.release (h : Agrees I σ st) (words : Nat) : Agrees I (σ.release words) (st.release words) :=
  { h with sp := congrArg (· + .ofNat 16 words) h.sp }

lemma keeps_changed (h : ∀ s word, I.hidden s = true → change (.slot s word) = none) :
    KeepsTemps I n st (st.changed change) := by
  intro s word hs _
  exact congrArg (fun value ↦ value.getD (st.mem (.slot s word))) (h s word hs)

lemma callEvent_eq (words : Nat) (h : Agrees I σ st) (htarget : target.reading I.toModel st = f) :
    st.callEvent I.toWorld target words = I.event f words σ := by
  have hargs : ((range words).map fun i ↦ st.mem ((Place.arg 0).cell I.toModel st i)) =
      (range words).map fun i ↦ σ.mem (.outer (σ.sp + .ofNat 16 i)) := by
    refine map_congr_left fun i _ ↦ ?_
    rw [Place.cell, zero_add, h.sp]
    exact h.mem _ id
  subst htarget
  cases target <;> simp [PrimState.callEvent, CallTarget.reading, event, hargs, h.visible]

lemma argWords_append (xs ys : List (Rep × (Nat → V))) : argWords (xs ++ ys) = argWords xs + argWords ys := by
  induction xs with
  | nil => exact (zero_add _).symm
  | cons x xs ih =>
    have hcons : ∀ zs, argWords (x :: zs) = x.1.words + argWords zs := fun _ ↦ rfl
    rw [cons_append, hcons, hcons, ih, add_assoc]

lemma argWords_receivers (this : Option V) : argWords (receivers this I) = this.toList.length := by
  cases this <;> rfl

variable (hI : I.Lawful) (hC : C.types = I.types) {type : TypeId} {d : Calling V} {callee : LoweredCallee}
  {sources : Store V → Cell → Prop} {form : Operand → Prop}

def ArgumentList.CallSteady (a : ArgumentList V) (d : Calling V) (S : Store V) : Prop :=
  a.steady S ∧ ∀ xs S₁, a.values S = .ok xs S₁ → d.steady S₁ ∧ ∀ target this S₂, d.value S₁ = .ok (target, this) S₂ →
    S₁.SameIn (a.sources S) S₂ ∧
    ∀ c, a.sources S c ∨ d.sources S₁ c → ∀ k < this.toList.length + argWords xs,
      c ≠ .outer (S₂.state.sp - .ofNat 16 (this.toList.length + argWords xs) + .ofNat 16 k)

def Ready (I : Interpretation V) (n : Nat) (target : CallTarget) (vs : List (Operand × Rep))
    (call : (String ⊕ V) × List (Rep × (Nat → V))) (st : PrimState V) : Prop :=
  ∃ cells : Cell → Prop, Targets I n cells target call.1 st ∧ AllStand I n cells vs call.2 st ∧
    ∀ c, cells c → ∀ k < argWords call.2,
      c ≠ .outer (st.sp - .ofNat 16 (argWords call.2) + .ofNat 16 k)

def ArgumentList.ready (a : ArgumentList V) (d : Calling V) (I : Interpretation V) :
    Eval V ((String ⊕ V) × List (Rep × (Nat → V))) := do
  let xs ← a.values
  let (target, this) ← d.value
  return (target, receivers this I ++ xs)

lemma ArgumentList.Given.ready
    {k : List (Operand × Rep) → CallTarget × Option Operand → LowerM β} (ha : a.Given I C args)
    (hd : d.Found I C callee) (hk : ∀ vs found s' code, Appends s.nextLabel s s' code →
      Mirrors I s.slots.size s s' code (a.CallSteady d) (a.ready d I) onward (fun _ call st ↦ s'.reachable = true ∧
        Ready I s'.slots.size found.1 ((found.2.map fun v ↦ (v, pointerRep)).toList ++ vs) call st) →
      Makes C s.nextLabel s' (k vs found) fun b s2 code' ↦ R b s2 (code ++ code')) :
    Makes C s.nextLabel s ((args.mapM fun e ↦ do
      let rep ← e.rep
      return (← e.value, rep)) >>= fun vs ↦ callee >>= k vs) R := by
  refine (ha s).bind fun vs s1 code1 happ1 h1 ↦ (hd s1).bindFrom happ1.nextLabel fun found s2 code2 happ2 h2 ↦ ?_
  refine (hk vs found s2 (code1 ++ code2) (happ1.trans (happ2.mono happ1.nextLabel)) ?_).mono le_rfl
    fun b s3 code3 _ hR ↦ append_assoc code1 code2 code3 ▸ hR
  intro hfits hr S st hagrees hsteady
  refine (h1 (hfits.before happ2) hr S st hagrees hsteady.1).bind fun xs S1 st1 hxs hagrees1 _ ⟨hr1, hvs⟩ ↦ ?_
  obtain ⟨hsteady1, hwaits⟩ := hsteady.2 xs S1 hxs
  refine (h2 hfits hr1 S1 st1 hagrees1 hsteady1).map happ1.size (fun _ _ ↦ rfl) ?_
  intro f S2 st2 hf hagrees2 hkeeps ⟨hr2, htarget, hthis⟩
  obtain ⟨hsame, happart⟩ := hwaits f.1 f.2 S2 hf
  refine ⟨hr2, fun c ↦ a.sources S c ∨ d.sources S1 c, ?_, ?_, ?_⟩
  · exact fun st' hsources ↦ htarget st' fun c hc ↦ hsources c (.inr hc)
  · refine rel_append (hthis.mono le_rfl nofun) ?_
    exact (hvs.across hagrees1 hagrees2 hsame hkeeps).mono happ2.size fun c hc ↦ .inl hc
  · rw [argWords_append, argWords_receivers, hagrees2.sp]
    exact happart

lemma Ready.calls (hI : I.Lawful) {m words : Nat} {vs : List (Operand × Rep)}
    {call : (String ⊕ V) × List (Rep × (Nat → V))} (h : Ready I m target vs call st)
    (hagrees : Agrees I S.state st) (hwords : words = total (vs.map (·.2.words)))
    (hexec : ∀ past st n cells xs, AllStand I n cells vs xs st → words = argWords xs →
      (∀ c, cells c → ∀ k < words, c ≠ .outer (st.sp - .ofNat 16 words + .ofNat 16 k)) →
      exec I.toWorld code none past st = (past, .next (calling xs st)))
    (hresult : ∀ dst rep, result = some (dst, rep) → ∃ t, dst = .slot t 0 ∧ I.hidden t = true ∧ n ≤ t.index) :
    Meets I n st (exec I.toWorld (code ++ [⟨.call target words result, loc⟩]) none S.past st)
      (I.call call.1 call.2 S) onward fun value st' ↦ ∀ t rep, result = some (.slot t 0, rep) →
        ∀ i < rep.words, st'.mem (.slot t (0 + i)) = value i := by
  obtain ⟨f, xs⟩ := call
  obtain ⟨cells, htarget, hvs, happart⟩ := h
  have hargs : words = argWords xs := hwords.trans hvs.words
  subst hargs
  rw [exec_append_next (hexec S.past st m cells xs hvs rfl happart)]
  refine Meets.from ?_ (keeps_calling : KeepsTemps I n st (calling xs st))
  have htarget : target.reading I.toModel (calling xs st) = f := by
    refine htarget _ (fun c hc _ ↦ putArgs_of_ne fun k hk ↦ ?_) keeps_calling
    rw [Nat.zero_add]
    exact happart c hc k hk
  have hagrees : Agrees I (calling xs S.state) (calling xs st) := hagrees.calling
  let past := I.event f (argWords xs) (calling xs S.state) :: S.past
  have hact : (Prim.call target (argWords xs) result).act I.toWorld S.past (calling xs st) =
      (some (I.event f (argWords xs) (calling xs S.state)),
        afterCall I.toWorld (calling xs st) (argWords xs) result (I.answer past)) := by
    rw [Prim.act, callEvent_eq (argWords xs) hagrees htarget]
  have hvisible := hI.answer_visible past
  -- The call answers as it does in the evaluation, and its result is stored in a temporary if it is asked for.
  rw [Interpretation.call]
  cases hanswer : I.answer past with
  | throws change value =>
    rw [hanswer] at hact
    exact ⟨_, exec_raise hact, hagrees.changed⟩
  | returns change values =>
    rw [hanswer] at hact hvisible
    rw [exec_cons, hact]
    have hafter : Agrees I (.release (.changed _ change) _) _ := hagrees.changed.release (argWords xs)
    have hkeeps : KeepsTemps I n _ (((calling xs st).changed change).release (argWords xs)) := keeps_changed hvisible
    cases result with
    | none => exact ⟨_, rfl, hafter, hkeeps, fun _ _ h ↦ by cases h⟩
    | some result =>
      obtain ⟨dst, rep⟩ := result
      obtain ⟨t, rfl, ht, hn⟩ := hresult dst rep rfl
      refine ⟨_, rfl, hafter.write_temp ht _ _, hkeeps.trans (keeps_write_temp hn _ _), ?_⟩
      intro t' _ heq i hi
      cases heq
      exact mem_write_temp t hi values

include hI hC in
lemma Meaning.Computed.call (ha : a.Given I C args) (hd : d.Found I C callee)
    (hmemory : I.types.isVoid type = true ∨ I.types.returnsInMemory type = false)
    (hform : ∀ p, form (.load p)) (hvoid : I.types.isVoid type = true → form (.imm 0)) :
    Meaning.Computed ⟨I.rep type, do
      let xs ← a.values
      let (target, this) ← d.value
      let result ← I.call target (receivers this I ++ xs)
      return if I.types.isVoid type then I.int 0 else result,
      a.CallSteady d, sources, form⟩ I C (Lowering.call type callee args) := by
  refine .ofValue hC rfl fun s ↦ ?_
  simp only [Lowering.called, bind_assoc]
  refine ha.ready hd fun vs _ s1 _ happ1 h1 ↦ ?_
  refine .after (x := read) rfl (.refl _ s1) (.repIn hC ?_)
  have hready : (do
      let xs ← a.values
      let (target, this) ← d.value
      let result ← I.call target (receivers this I ++ xs)
      return if I.types.isVoid type then I.int 0 else result) = a.ready d I >>= fun call ↦
        I.call call.1 call.2 >>= fun result ↦ pure (if I.types.isVoid type then I.int 0 else result) := by
    simp [ArgumentList.ready, bind_assoc]
  rw [hready, hC]
  cases hv : I.types.isVoid type with
  | true =>
    simp only [if_true, bind_assoc, pure_bind]
    refine .outgoing I happ1.nextLabel fun s2 _ happ2 _ h2 ↦ ?_
    refine .emitThen (le_trans happ1.nextLabel happ2.nextLabel) rfl fun s3 _ happ3 hcode3 hreach3 _ ↦
      .pure ⟨hvoid hv, fun hfits hr S st hagrees hsteady ↦ ?_⟩
    have hfits2 : I.Fits s2 := hfits.before happ3
    rw [append_nil]
    refine (h1 (hfits2.before happ2) hr S st hagrees hsteady).bind fun _ S1 st1 _ hagrees1 _ ⟨hr1, hcall⟩ ↦ ?_
    obtain ⟨hr2, hexec⟩ := h2 hr1
    rw [hcode3 hr2]
    refine (hcall.calls hI hagrees1 rfl hexec fun _ _ h ↦ by cases h).map le_rfl (fun _ _ ↦ rfl) ?_
    intro _ S2 st2 _ _ _ _
    exact ⟨hreach3, nofun, stands_literal nofun⟩
  | false =>
    have hregisters : I.types.returnsInMemory type = false := hmemory.resolve_left (by simp [hv])
    simp only [hregisters, Bool.false_eq_true, if_false, bind_assoc, pure_bind]
    refine .outgoing I happ1.nextLabel fun s2 _ happ2 _ h2 ↦ .newTemp ?_
    refine .emitThen (le_trans happ1.nextLabel happ2.nextLabel) rfl fun s3 _ happ3 hcode3 hreach3 hslots3 ↦
      .pure ⟨hform _, fun hfits hr S st hagrees hsteady ↦ ?_⟩
    have hfits2 : I.Fits (s2.withTemp (I.rep type)) := hfits.before happ3
    have ht : I.hidden ⟨s2.slots.size⟩ = true := hfits2.hidden_temp
    rw [append_nil]
    refine (h1 ((hfits2.before (.withTemp 0 _ _)).before happ2) hr S st hagrees hsteady).bind
      fun _ S1 st1 _ hagrees1 _ ⟨hr1, hcall⟩ ↦ ?_
    obtain ⟨hr2, hexec⟩ := h2 hr1
    rw [hcode3 hr2]
    have hsize : s2.slots.size < s3.slots.size := by
      rw [hslots3]
      exact Nat.lt_of_lt_of_eq (lt_add_one _) (Array.size_push _).symm
    refine (hcall.calls hI hagrees1 rfl hexec fun _ _ h ↦ ?_).map le_rfl (fun _ _ ↦ rfl) ?_
    · cases h
      exact ⟨_, rfl, ht, le_trans happ1.size happ2.size⟩
    · intro _ S2 st2 _ _ _ hvalue
      refine ⟨hreach3, nofun, fun st' _ hkeeps i hi ↦ ?_⟩
      exact (hkeeps _ _ ht hsize).trans (hvalue _ _ rfl i hi)

end

end W16Compiler
