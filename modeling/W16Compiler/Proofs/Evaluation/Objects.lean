import W16Compiler.Proofs.Evaluation.Choice
import W16Compiler.Proofs.Select.Arithmetic

/-!
# Code for objects

An object is found where its place leads. A pointer whose value is an address that is known beforehand leads
straight to the place with that address. The pointer of an object that is written is computed before the value
is, and once only.
-/

namespace W16Compiler

open Lowering List Operand Place

variable {V : Type} {I : Interpretation V} {C : Context} {M : Model V} {base : AddressBase}

/-! ## Where places lead -/

def Place.locus? (M : Model V) (st : PrimState V) : Place → Option (Locus V)
  | .slot s offset => some (.direct (.slot s) offset)
  | .param offset => some (.direct .param offset)
  | .global label offset => some (.direct (.global label) offset)
  | .indirect pointer offset => some (.indirect (pointer.word M st (.word false) 0) offset)
  | .arg _ => none

lemma Place.cell_of_locus? {st : PrimState V} {p : Place} {L : Locus V} (h : p.locus? M st = some L)
    (i : Nat) : p.cell M st i = L.cell M i := by
  cases p with
  | arg word => cases h
  | slot s offset | param offset | global label offset | indirect pointer offset =>
    cases h
    rfl

def Place.extent : Place → Nat
  | .slot _ offset | .param offset | .global _ offset | .indirect _ offset => offset.natAbs
  | .arg _ => 0

def Locus.Visible (I : Interpretation V) : Locus V → Prop
  | .direct (.slot s) _ => I.hidden s = false
  | _ => True

/-- One way to an object stands for another: it is the same, or the address is known that a pointer holds. -/
inductive Resolves (I : Interpretation V) (reach : Nat) : Locus V → Locus V → Prop
  | same {L : Locus V} (hvisible : L.Visible I) : Resolves I reach L L
  | known {base : AddressBase} {offset k : Int} (hvisible : (Locus.direct base offset : Locus V).Visible I)
    (hreach : k.natAbs ≤ reach) :
    Resolves I reach (.direct base (offset + k)) (.indirect (I.toModel.address base offset) k)

variable {n reach : Nat} {L : Locus V} {anchors : Cell → Prop} {p : Place} {st : PrimState V}

section

variable {L' : Locus V}

lemma Interpretation.Lawful.locate (hI : I.Lawful) {offset k : Int}
    (hvisible : (Locus.direct base offset : Locus V).Visible I) :
    I.locate (I.toModel.address base offset) k = (Locus.direct base (offset + k)).cell I.toModel 0 := by
  refine hI.locate_address base offset k ?_
  rintro s rfl
  exact hvisible

lemma Locus.cell_direct (base : AddressBase) (offset : Int) (i : Nat) :
    (Locus.direct base offset).cell I.toModel i = (Locus.direct base (offset + i)).cell I.toModel 0 := by
  cases base <;> simp [Locus.cell]

lemma Resolves.cell (hI : I.Lawful) (h : Resolves I reach L' L) (i : Nat) :
    L'.cell I.toModel i = L.cell I.toModel i := by
  cases h with
  | same => rfl
  | known hvisible _ => rw [Locus.cell_direct, Locus.cell, hI.locate hvisible, Int.add_assoc]

lemma Locus.Visible.not_temporary (hI : I.Lawful) (h : L.Visible I) (i : Nat) :
    ¬ I.Temporary (L.cell I.toModel i) := by
  cases L with
  | direct base offset =>
    cases base with
    | slot s =>
      intro ht
      exact absurd (ht.symm.trans h) Bool.noConfusion
    | param | global label => exact id
  | indirect p offset =>
    intro ht
    cases hc : I.locate p (offset + i) with
    | outer a =>
      rw [Locus.cell, hc] at ht
      exact ht
    | slot s word =>
      rw [Locus.cell, hc] at ht
      exact absurd (ht.symm.trans (hI.locate_visible _ _ _ _ hc)) Bool.noConfusion

lemma Resolves.not_temporary (hI : I.Lawful) (h : Resolves I reach L' L) (i : Nat) :
    ¬ I.Temporary (L.cell I.toModel i) := by
  cases h with
  | same hvisible => exact hvisible.not_temporary hI i
  | @known base offset k _ _ =>
    have hvisible : (Locus.indirect (I.toModel.address base offset) k).Visible I := trivial
    exact hvisible.not_temporary hI i

lemma Locus.Visible.shift (h : L.Visible I) (k : Int) : (L.shift k).Visible I := by
  cases L with
  | direct base offset => cases base <;> exact h
  | indirect p offset => trivial

lemma Resolves.shift (h : Resolves I reach L' L) (k : Nat) : Resolves I (reach + k) (L'.shift k) (L.shift k) := by
  cases h with
  | same hvisible => exact .same (hvisible.shift k)
  | known hvisible hreach =>
    rw [Locus.shift, Locus.shift, Int.add_assoc]
    exact .known hvisible (by omega)

lemma Resolves.visible (h : Resolves I reach L' L) : L'.Visible I := by
  cases h with
  | same hvisible => exact hvisible
  | @known base _ _ hvisible _ => cases base <;> exact hvisible

lemma Resolves.address (hI : I.Lawful) (hreach : reach < 2 ^ 15) (h : Resolves I reach L' L) :
    I.address L' = I.address L := by
  cases h with
  | same => rfl
  | @known _ _ _ _ _ =>
    simp only [Interpretation.address]
    split
    · rename_i hzero
      rw [hzero, Int.add_zero]
    · rw [hI.advance_address _ _ _ (by omega)]

end

/-! ## Code that finds an object -/

def LeadsTo (I : Interpretation V) (n reach : Nat) (anchors : Cell → Prop) (p : Place) (L : Locus V)
    (st : PrimState V) : Prop :=
  ∀ st', (∀ c, anchors c → ¬ I.Temporary c → st'.mem c = st.mem c) → KeepsTemps I n st st' →
    ∃ L', p.locus? I.toModel st' = some L' ∧ Resolves I reach L' L

section

variable {m : Nat} {anchors' : Cell → Prop} {st' : PrimState V}

section

variable (h : LeadsTo I n reach anchors p L st)

include h

lemma LeadsTo.later
    (hanchors : ∀ c, anchors c → ¬ I.Temporary c → st'.mem c = st.mem c) (hkeeps : KeepsTemps I n st st') :
    LeadsTo I n reach anchors p L st' := by
  intro st'' hanchors' hkeeps'
  exact h st'' (fun c hc ht ↦ (hanchors' c hc ht).trans (hanchors c hc ht)) (hkeeps.trans hkeeps')

lemma LeadsTo.now : ∃ L', p.locus? I.toModel st = some L' ∧ Resolves I reach L' L :=
  h st (fun _ _ _ ↦ rfl) (KeepsTemps.refl I n st)

lemma LeadsTo.cell (hI : I.Lawful) (i : Nat) : p.cell I.toModel st i = L.cell I.toModel i := by
  obtain ⟨_, hlocus, hresolves⟩ := h.now
  exact (p.cell_of_locus? hlocus i).trans (hresolves.cell hI i)

lemma LeadsTo.not_temporary (hI : I.Lawful) (i : Nat) : ¬ I.Temporary (L.cell I.toModel i) := by
  obtain ⟨_, _, hresolves⟩ := h.now
  exact hresolves.not_temporary hI i

lemma LeadsTo.stands (hI : I.Lawful) {S : Store V} (hagrees : Agrees I S.state st)
    (rep : Rep) : Stands I n (fun c ↦ anchors c ∨ L.Covers I.toModel rep.words c) (.load p) rep
      (fun i ↦ S.state.mem (L.cell I.toModel i)) st := by
  intro st' hsources hkeeps i hi
  have hleads := h.later (fun c hc ↦ hsources c (.inl hc)) hkeeps
  have hword : (load p).word I.toModel st' rep i = st'.mem (p.cell I.toModel st' i) := rfl
  have ht := h.not_temporary hI i
  rw [hword, hleads.cell hI, hsources _ (.inr ⟨i, hi, rfl⟩) ht, hagrees.mem _ ht]

end

end

structure Designation (V : Type) where
  locus : Eval V (Locus V)
  steady : Store V → Prop
  /-- The cells that are still to be read to find the object. -/
  anchors : Store V → Cell → Prop
  reach : Nat
  form : Place → Prop

def Designation.Located (d : Designation V) (I : Interpretation V) (C : Context) (x : LowerM Place) : Prop :=
  ∀ s, Makes C s.nextLabel s x fun p s' code ↦ ((d.form p ∧ ∀ word, p ≠ .arg word) ∧ p.extent ≤ d.reach) ∧
    Mirrors I s.slots.size s s' code d.steady d.locus onward fun S L st ↦ s'.reachable = true ∧
      LeadsTo I s'.slots.size d.reach (d.anchors S) p L st

section

variable (hI : I.Lawful) (hC : C.types = I.types) {type : TypeId} {d : Meaning V} {δ : Designation V} {e : Lowered}
  {sources : Store V → Cell → Prop} {form : Operand → Prop}

include hI hC in
lemma Designation.Located.computed (hp : δ.Located I C place) (hscalar : I.IsScalar type)
    (hsources : ∀ S c, δ.anchors S c ∨ (∃ L S', δ.locus S = .ok L S' ∧
      L.Covers I.toModel (I.rep type).words c) → sources S c) (hform : ∀ p, form (.load p)) :
    Meaning.Computed ⟨I.rep type, do I.load (← δ.locus), δ.steady, sources, form⟩ I C (Lowered.ofPlace type place) := by
  have hvalue : Meaning.Gives ⟨I.rep type, do I.load (← δ.locus), δ.steady, sources, form⟩ I C
      (Lowered.ofPlace type place).value := by
    intro s
    refine .repIn hC ((hp s).bind fun p s' _ _ hlocated ↦ ?_)
    obtain ⟨_, h⟩ := hlocated
    rw [contents, hscalar, if_neg Bool.noConfusion]
    refine .pure ⟨hform p, fun hfits hr S st hagrees hsteady ↦ ?_⟩
    rw [append_nil]
    refine (h hfits hr S st hagrees hsteady).reads le_rfl (fun _ _ ↦ rfl) (fun _ _ _ ↦ rfl) ?_
    rintro L S' _ hL hagrees' _ ⟨hreach, hleads⟩
    refine ⟨hreach, by rintro _ _ ⟨⟩, (hleads.stands hI hagrees' _).mono le_rfl fun c hc ↦ hsources S c ?_⟩
    exact hc.imp_right fun hcovers ↦ ⟨L, S', hL, hcovers⟩
  have h := Meaning.Computed.ofValue hC rfl hvalue
  exact ⟨h.value, h.effect, h.branch⟩

/-! ## Places -/

section

variable {s : State}

lemma makes_localSlot (decl : DeclId) :
    Makes C lo s (localSlot decl) fun slot s' code ↦ code = [] ∧ s'.reachable = s.reachable ∧
      s'.locals.lookup decl = some slot := by
  refine .after rfl (.refl lo s) ?_
  cases hlookup : s.locals.lookup decl with
  | some found => exact .pure ⟨rfl, rfl, hlookup⟩
  | none =>
    refine ⟨_, _, rfl, [], ⟨(append_nil _).symm, fun _ h ↦ absurd h not_mem_nil, le_rfl,
      ⟨_, Array.toList_push⟩, ?_⟩, rfl, rfl, lookup_cons_self⟩
    intro decl' _ hslot'
    have hne : (decl' == decl) = false := by
      rw [beq_eq_false_iff_ne]
      rintro rfl
      cases hlookup.symm.trans hslot'
    rw [lookup_cons, hne]
    exact hslot'

variable {k : Nat} {x : LowerM Place}

lemma leadsTo_direct (hp : ∀ st', p.locus? I.toModel st' = some (.direct base offset))
    (hvisible : (Locus.direct base offset : Locus V).Visible I) :
    LeadsTo I n reach anchors p (.direct base offset) st :=
  fun st' _ _ ↦ ⟨_, hp st', .same hvisible⟩

lemma located_variable (hS : C.symbols = I.symbols) (hdecl : I.Stored decl) {form : Place → Prop}
    (hform : ∀ p, (∀ v offset, p ≠ .indirect v offset) → form p) :
    Designation.Located ⟨return I.home decl, fun _ ↦ True, fun _ _ ↦ False, (I.home decl).extent, form⟩ I C
      (variablePlace decl) := by
  intro s
  refine .after (x := read) rfl (.refl _ s) ?_
  dsimp only
  rw [hS]
  split
  case h_1 | h_2 | h_3 | h_4 =>
    rename_i heq
    simp only [Interpretation.home, heq]
    exact .pure ⟨⟨⟨hform _ nofun, nofun⟩, le_rfl⟩, fun _ hr S st hagrees _ ↦
      .pure rfl hagrees (KeepsTemps.refl _ _ _) ⟨hr, leadsTo_direct (fun _ ↦ rfl) trivial⟩⟩
  case h_5 heq =>
    simp only [Interpretation.home, heq]
    refine (makes_localSlot decl).bind fun slot s' code _ ⟨hcode, hreach, hlocal⟩ ↦
      .pure ⟨⟨⟨hform _ nofun, nofun⟩, le_rfl⟩, fun hfits hr S st hagrees _ ↦ ?_⟩
    obtain ⟨rfl, hvisible⟩ := hfits.locals decl slot hlocal
    rw [hcode]
    exact .pure rfl hagrees (KeepsTemps.refl _ _ _) ⟨hreach.trans hr, leadsTo_direct (fun _ ↦ rfl) hvisible⟩
  case h_6 hglobal htext hlabel hparam hstack =>
    simp only [Interpretation.Stored] at hdecl
    split at hdecl
    case h_1 place heq => cases place <;> simp_all
    case h_2 | h_3 => simp_all
    case h_4 => exact hdecl.elim

lemma Operand.word_isWord (h : rep.isWord = true) (h' : rep'.isWord = true)
    (v : Operand) (i : Nat) : v.word M st rep i = v.word M st rep' i := by
  cases v with
  | imm value | address base offset | load p => rfl
  | float x =>
    have hne : ∀ {r : Rep}, r.isWord = true → r ≠ .float := by
      rintro r hr rfl
      exact Bool.noConfusion hr
    simp [word, Binary64.bitsAs, if_neg (hne h), if_neg (hne h')]

lemma located_deref {x : LowerM Operand} {form : Place → Prop} (hx : d.Gives I C x) (hword : d.rep.isWord = true)
    (hreach : ∀ base offset, d.form (.address base offset) → offset.natAbs ≤ reach)
    (hform : ∀ v, d.form v → form (placeAt v)) :
    Designation.Located ⟨do return .indirect ((← d.value) 0) 0, d.steady, d.sources, reach, form⟩ I C
      (do return placeAt (← x)) := by
  intro s
  refine (hx s).bind fun v s' _ _ ⟨hv, h⟩ ↦ .pure ⟨⟨⟨hform v hv, ?_⟩, ?_⟩, fun hfits hr S st hagrees hsteady ↦ ?_⟩
  · cases v with
    | address base offset => cases base <;> exact nofun
    | imm value | float x | load p => exact nofun
  · cases v with
    | address base offset => cases base <;> exact hreach _ _ hv
    | imm value | float x | load p => exact Nat.zero_le _
  · rw [append_nil]
    refine (h hfits hr S st hagrees hsteady).map le_rfl (fun _ _ ↦ rfl) ?_
    intro value S' st' _ _ _ ⟨hreach', hvisible, hstands⟩
    refine ⟨hreach', fun st'' hsources hkeeps ↦ ?_⟩
    have hpointer : v.word I.toModel st'' (.word false) 0 = value 0 := by
      rw [word_isWord rfl hword]
      exact hstands st'' hsources hkeeps 0 (Rep.words_of_isWord hword ▸ one_pos)
    rw [← hpointer]
    cases v with
    | imm n | float x | load p => exact ⟨_, rfl, .same trivial⟩
    | address base offset =>
      have hknown : Resolves I reach (.direct base (offset + 0)) (.indirect (I.toModel.address base offset) 0) := by
        refine .known ?_ (Nat.zero_le _)
        cases base with
        | slot t => exact hvisible t offset rfl
        | param | global label => trivial
      rw [Int.add_zero] at hknown
      cases base <;> exact ⟨_, rfl, hknown⟩

lemma wrap32_of_natAbs_lt {k : Int} (h : k.natAbs < 2 ^ 31) : wrap32 k = k :=
  Int.bmod_eq_of_le (by rw [show twoTo 32 = 2 ^ 32 from rfl]; omega) (by rw [show twoTo 32 = 2 ^ 32 from rfl]; omega)

lemma Place.locus?_shift (h : p.locus? M st = some L)
    (hextent : p.extent + k < 2 ^ 15) : (p.shift k).locus? M st = some (L.shift k) := by
  have hwrap : ∀ {offset : Int}, offset.natAbs + k < 2 ^ 15 → wrap32 (offset + k) = offset + k :=
    fun hlt ↦ wrap32_of_natAbs_lt (by omega)
  cases p with
  | arg word => cases h
  | slot s offset | param offset | global label offset | indirect pointer offset =>
    cases h
    simp [shift, locus?, Locus.shift, hwrap hextent]

lemma Place.extent_shift (p : Place) (hextent : p.extent + k < 2 ^ 15) : (p.shift k).extent ≤ p.extent + k := by
  cases p with
  | arg word => exact Nat.zero_le _
  | slot s offset | param offset | global label offset | indirect pointer offset =>
    simp only [extent] at hextent
    simp only [shift, extent, wrap32_of_natAbs_lt (k := offset + k) (by omega)]
    omega

lemma located_member {form : Place → Prop} (hx : δ.Located I C x) (hreach : δ.reach + offset < 2 ^ 15)
    (hform : ∀ p, δ.form p → p.extent ≤ δ.reach → form (p.shift offset)) :
    Designation.Located ⟨do return (← δ.locus).shift offset, δ.steady, δ.anchors, δ.reach + offset, form⟩ I C
      (do return (← x).shift offset) := by
  intro s
  refine (hx s).bind fun p s' _ _ ⟨⟨⟨hp, harg⟩, hextent⟩, h⟩ ↦
    .pure ⟨⟨⟨hform p hp hextent, ?_⟩, ?_⟩, fun hfits hr S st hagrees hsteady ↦ ?_⟩
  · cases p with
    | arg word => exact absurd rfl (harg word)
    | slot t k | param k | global label k | indirect v k => exact nofun
  · exact le_trans (p.extent_shift (by omega)) (Nat.add_le_add_right hextent _)
  · rw [append_nil]
    refine (h hfits hr S st hagrees hsteady).map le_rfl (fun _ _ ↦ rfl) ?_
    intro L S' st' _ _ _ ⟨hreach', hleads⟩
    refine ⟨hreach', fun st'' hanchors hkeeps ↦ ?_⟩
    obtain ⟨_, hlocus, hresolves⟩ := hleads st'' hanchors hkeeps
    exact ⟨_, locus?_shift hlocus (by omega), hresolves.shift offset⟩

include hI hC in
lemma Designation.Located.addressed (hx : δ.Located I C x) (hword : (I.rep type).isWord = true)
    (hreach : δ.reach < 2 ^ 15) (hdirect : ∀ base offset, offset.natAbs ≤ δ.reach → form (.address base offset))
    (hpointer : ∀ v, δ.form (.indirect v 0) → form v ∧ ∀ base offset, v ≠ .address base offset)
    (hload : ∀ p, form (.load p)) :
    Meaning.Computed ⟨I.rep type, do return I.pointer (I.address (← δ.locus)), δ.steady, δ.anchors, form⟩ I C
      (Lowered.ofValue type (do addressOf (← x))) := by
  refine .ofValue hC rfl fun s ↦ (hx s).bind fun p s' code happ ⟨⟨⟨hp, harg⟩, hextent⟩, h⟩ ↦ ?_
  -- An operand that has the address as its word, and reads nothing but the anchors.
  have hgives : ∀ v, form v → (∀ t k, v = .address (.slot t) k → p = .slot t k) →
      (∀ st L, p.locus? I.toModel st = some L → v.word I.toModel st (.word false) 0 = I.address L) →
      Makes C s.nextLabel s' (return v) fun v s2 code' ↦ form v ∧
        Mirrors I s.slots.size s s2 (code ++ code') δ.steady (do return I.pointer (I.address (← δ.locus))) onward
          fun S value st ↦ s2.reachable = true ∧ (∀ t offset, v = .address (.slot t) offset → I.hidden t = false) ∧
            Stands I s2.slots.size (δ.anchors S) v (I.rep type) value st := by
    intro v hform hslot hv
    refine .pure ⟨hform, fun hfits hr S st hagrees hsteady ↦ ?_⟩
    rw [append_nil]
    refine (h hfits hr S st hagrees hsteady).map le_rfl (fun _ _ ↦ rfl) ?_
    intro L S' st' _ _ _ ⟨hreach', hleads⟩
    refine ⟨hreach', ?_, fun st'' hanchors hkeeps i hi ↦ ?_⟩
    · rintro t k rfl
      obtain ⟨L', hlocus, hresolves⟩ := hleads.now
      cases hslot t k rfl
      cases hlocus
      exact hresolves.visible
    · obtain ⟨L', hlocus, hresolves⟩ := hleads st'' hanchors hkeeps
      have hzero : i = 0 := by
        rw [Rep.words_of_isWord hword] at hi
        omega
      have hv' : v.word I.toModel st'' (I.rep type) 0 = I.address L :=
        (word_isWord hword rfl v 0).trans ((hv st'' L' hlocus).trans (hresolves.address hI hreach))
      rw [hzero, hv']
      rfl
  cases p with
  | arg word => exact absurd rfl (harg word)
  | slot t k =>
    refine hgives _ (hdirect _ _ hextent) (fun _ _ heq ↦ ?_) fun st L hL ↦ ?_
    · cases heq
      rfl
    · cases hL
      rfl
  | param k | global label k =>
    refine hgives _ (hdirect _ _ hextent) nofun fun st L hL ↦ ?_
    cases hL
    rfl
  | indirect pointer k =>
    by_cases hk : k = 0
    · subst hk
      refine hgives pointer (hpointer pointer hp).1 (fun t k heq ↦ absurd heq ((hpointer pointer hp).2 _ _)) ?_
      intro st L hL
      cases hL
      rfl
    · have hcode : addressOf (.indirect pointer k) = do
          let t ← newTemp pointerRep
          Lowering.emit (.binary .add pointerRep t pointer (.imm k))
          return .load t := by
        have haddress : (indirect pointer k).address = none := if_neg hk
        simp [addressOf, haddress]
      rw [hcode]
      refine .compute I happ.nextLabel (fun _ ↦ rfl) (fun _ ↦ rfl) (fun _ _ _ ↦ rfl)
        fun s2 _ hc ↦ .pure ⟨hload _, fun hfits hr S st hagrees hsteady ↦ ?_⟩
      rw [append_nil]
      refine (h (hfits.before hc.appends) hr S st hagrees hsteady).bind fun L S1 st1 _ hagrees1 _ ⟨hr1, hleads⟩ ↦ ?_
      refine .pure (hc.exec hr1 _ _) (hagrees1.write_temp (hc.hidden hfits) _ _) (keeps_write_temp happ.size _ _)
        ⟨hc.reachable, nofun, ?_⟩
      obtain ⟨_, hlocus, hresolves⟩ := hleads.now
      cases hlocus
      have hwords : (I.rep type).words = 1 := Rep.words_of_isWord hword
      refine stands_temp (hc.hidden hfits) (by simp [hc.size]) (le_of_eq hwords) fun i hi ↦ ?_
      have hzero : i = 0 := Nat.lt_one_iff.mp (hwords ▸ hi)
      rw [hzero, ← hresolves.address hI hreach, Interpretation.address, if_neg hk]
      rfl

lemma LeadsTo.settled {m : Nat} (h : LeadsTo I n reach anchors p L st)
    (hp : ∀ q offset, p ≠ .indirect (.load q) offset) : LeadsTo I m reach (fun _ ↦ False) p L st := by
  intro st' _ _
  obtain ⟨L', hlocus, hresolves⟩ := h.now
  refine ⟨L', ?_, hresolves⟩
  rw [← hlocus]
  cases p with
  | slot s offset | param offset | global label offset | arg word => rfl
  | indirect pointer offset =>
    cases pointer with
    | load q => exact absurd rfl (hp q offset)
    | imm value | float x | address base k => rfl

lemma Designation.Located.stable {β : Type} {k : Place → LowerM β} {s : State} {R : β → State → Flow → Prop}
    (hx : δ.Located I C x) (hk : ∀ p s' code, Appends s.nextLabel s s' code →
      Mirrors I s.slots.size s s' code δ.steady δ.locus onward (fun _ L st ↦ s'.reachable = true ∧
      LeadsTo I s'.slots.size δ.reach (fun _ ↦ False) p L st) → Makes C s.nextLabel s' (k p) fun b s2 code' ↦
      R b s2 (code ++ code')) : Makes C s.nextLabel s (x >>= fun p ↦ Lowering.stable p >>= k) R := by
  refine (hx s).bind fun p s1 code1 happ1 ⟨_, h⟩ ↦ ?_
  have hsettled : (∀ q offset, p ≠ .indirect (.load q) offset) → Lowering.stable p = pure p →
      Makes C s.nextLabel s1 (Lowering.stable p >>= k) fun b s2 code' ↦ R b s2 (code1 ++ code') := by
    intro hp hstable
    rw [hstable, pure_bind]
    refine hk p s1 code1 happ1 fun hfits hr S st hagrees hsteady ↦ ?_
    exact (h hfits hr S st hagrees hsteady).mono le_rfl fun L st' hq ↦ ⟨hq.1, hq.2.settled hp⟩
  cases p with
  | slot t offset | param offset | global label offset | arg word => exact hsettled nofun rfl
  | indirect pointer offset =>
    cases pointer with
    | imm value | float y | address base o => exact hsettled nofun rfl
    | load q =>
      have hstable : (Lowering.stable (.indirect (.load q) offset) >>= k) =
          (Lowering.copied pointerRep (.load q) >>= fun t ↦ k (.indirect (.load t) offset)) := by
        simp [Lowering.stable]
      rw [hstable]
      refine .copied I happ1.nextLabel fun s2 code2 hc ↦ ?_
      refine (hk _ s2 (code1 ++ code2) (happ1.trans hc.appends) fun hfits hr S st hagrees hsteady ↦ ?_).mono
        le_rfl fun b s3 code3 _ hR ↦ append_assoc code1 code2 code3 ▸ hR
      refine (h (hfits.before hc.appends) hr S st hagrees hsteady).andThen le_rfl
        fun L S1 st1 _ hagrees1 ⟨hr1, hleads⟩ ↦ ?_
      refine ⟨_, hc.exec hr1 _ _, hagrees1.write_temp (hc.hidden hfits) _ _, keeps_write_temp happ1.size _ _,
        hc.reachable, ?_⟩
      obtain ⟨_, hlocus, hresolves⟩ := hleads.now
      cases hlocus
      intro st2 _ hkeeps
      have ht : I.hidden ⟨s1.slots.size⟩ = true := hc.hidden hfits
      have hpointer : (load (.slot ⟨s1.slots.size⟩ 0)).word I.toModel st2 (.word false) 0 =
          (load q).word I.toModel st1 (.word false) 0 := by
        have hkept := hkeeps ⟨s1.slots.size⟩ (0 + (0 : Nat)) ht (by simp [hc.size])
        exact hkept.trans (mem_write_temp _ one_pos _)
      refine ⟨_, rfl, ?_⟩
      rw [hpointer]
      exact hresolves

end

end

end W16Compiler
