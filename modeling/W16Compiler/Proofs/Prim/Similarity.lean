import W16Compiler.Proofs.Prim.Meaning

/-!
# States that are not told apart

Pointers come from the addresses of slots: no constant, no incoming value and no answer to a call
leads into a slot whose address was never handed out. So a slot that no operand mentions cannot be
reached, and its words do not matter. Two states are similar if they differ in such lost slots only,
with the labels of one perhaps renamed in the other. One step from similar states is observed alike
and leads to similar states.
-/

namespace W16Compiler

open List Option Function Prim

variable {V : Type} {W : World V}

/-! ## Pointers -/

def CallEvent.Shows (into : V → SlotId → Prop) (e : CallEvent V) (s : SlotId) : Prop :=
  (∃ v, e.target = .inr v ∧ into v s) ∨ (∃ v ∈ e.args, into v s) ∨
    ∃ c v, e.memory c = some v ∧ into v s

def CallAnswer.Brings (v : V) : CallAnswer V → Prop
  | .returns change values => (∃ c, change c = some v) ∨ ∃ i, values i = v
  | .throws change value => (∃ c, change c = some v) ∨ value = v

/-- Which slots values lead into. Arithmetic leads where its operands do, and a callee can only pass
on what it or another one has been shown. -/
structure Provenance (W : World V) where
  into : V → SlotId → Prop
  constant : ∀ w s, ¬ into (W.constant w) s
  slotAddress : ∀ s offset t, into (W.slotAddress s offset) t → t = s
  locate : ∀ v offset s word, W.locate v offset = .slot s word → into v s
  unary : ∀ op rep vs i s, into (W.unary op rep vs i) s → ∃ v ∈ vs, into v s
  binary : ∀ op rep vs ws i s, into (W.binary op rep vs ws i) s → ∃ v ∈ vs ++ ws, into v s
  cast : ∀ rep rep' vs i s, into (W.cast rep rep' vs i) s → ∃ v ∈ vs, into v s
  answer : ∀ past v s, (W.answer past).Brings v → into v s → ∃ e ∈ past, e.Shows into s

structure Slack (W : World V) where
  rename : Label → Label
  labels : Label → Prop
  lost : SlotId → Prop
  /-- The slots that nodes mention and pointers lead into. -/
  reached : SlotId → Prop
  hidden_of_lost : ∀ s, lost s → W.hidden s
  not_lost_of_reached : ∀ s, reached s → ¬ lost s

/-- The same labels, and no word may differ. -/
def Slack.none (W : World V) : Slack W where
  rename := id
  labels _ := True
  lost _ := False
  reached _ := True
  hidden_of_lost _ h := h.elim
  not_lost_of_reached _ _ h := h

def Slack.Allows (d : Slack W) (P : Provenance W) (v : V) : Prop := ∀ s, P.into v s → d.reached s

def Cell.In (slots : SlotId → Prop) : Cell → Prop
  | .slot s _ => slots s
  | .outer _ => False

structure Similar (P : Provenance W) (d : Slack W) (past : List (CallEvent V)) (st st' : PrimState V) :
    Prop where
  mem : ∀ c, ¬ c.In d.lost → st.mem c = st'.mem c
  sp : st.sp = st'.sp
  mark : st.mark = st'.mark
  records : ∀ r, st'.records r = (st.records r).map fun t ↦ { t with handler := d.rename t.handler }
  links : ∀ s, st'.links s = (st.links s).map d.rename
  handlers : ∀ r t, st.records r = some t → d.labels t.handler
  resumes : ∀ s l, st.links s = some l → d.labels l
  allowed : ∀ c, d.Allows P (st'.mem c)
  shown : ∀ e ∈ past, ∀ s, e.Shows P.into s → d.reached s

variable {P : Provenance W} {d : Slack W} {past : List (CallEvent V)} {st st' : PrimState V}
  {result : Option (Place × Rep)} {v : V} {target : CallTarget} {dst : Place} {s : SlotId} {l : Label}

lemma Similar.eq_of_none (h : Similar P (.none W) past st st') : st = st' := by
  obtain ⟨mem, sp, mark, records, links⟩ := st
  obtain ⟨mem', sp', mark', records', links'⟩ := st'
  have hmem : mem = mem' := funext fun c ↦ h.mem c (by cases c <;> exact fun hin ↦ hin)
  have hrecords : records' = records := funext fun r ↦ (h.records r).trans map_id'
  have hlinks : links' = links := funext fun s ↦ (h.links s).trans map_id'
  rw [hmem, hrecords, hlinks, show sp = sp' from h.sp, show mark = mark' from h.mark]

namespace Similar

variable (h : Similar P d past st st')

include h

/-! ## Operands -/

lemma located (hv : d.Allows P v) (offset : Int) : st.mem (W.locate v offset) = st'.mem (W.locate v offset) := by
  apply h.mem
  cases hc : W.locate v offset with
  | outer a => exact fun hin ↦ hin
  | slot s word => exact d.not_lost_of_reached s (hv s (P.locate v offset s word hc))

variable {rep : Rep} {op src : Operand}

lemma word_allowed (hs : ∀ s ∈ op.slots, d.reached s) : d.Allows P (op.word W.toModel st' rep i) := by
  cases op with
  | imm value | float x => exact fun s hin ↦ (P.constant _ s hin).elim
  | load place => exact h.allowed _
  | address base offset =>
    intro t hin
    rw [Operand.word] at hin
    split at hin
    · cases base with
      | param | global label => exact (P.constant _ t hin).elim
      | slot s =>
        obtain rfl := P.slotAddress s offset t hin
        exact hs t (by simp [Operand.slots])
    · exact (P.constant _ t hin).elim

mutual

theorem word (rep : Rep) (i : Nat) : (op : Operand) →
    (∀ s ∈ op.slots, d.reached s) → op.word W.toModel st rep i = op.word W.toModel st' rep i
  | .imm _, _ | .float _, _ | .address .., _ => rfl
  | .load (.slot s offset), hs => by
    have hr : d.reached s := hs s (by simp [Operand.slots, Place.slots])
    exact h.mem _ (d.not_lost_of_reached s hr)
  | .load (.param _), _ | .load (.global ..), _ => h.mem _ fun hin ↦ hin
  | .load (.arg word), _ => by
    simp only [Operand.word, Place.cell, h.sp]
    exact h.mem _ fun hin ↦ hin
  | .load (.indirect pointer offset), hs => by
    have hs' : ∀ s ∈ pointer.slots, d.reached s := by simpa [Operand.slots, Place.slots] using hs
    simp only [Operand.word, cell i (.indirect pointer offset) hs']
    exact h.located (h.word_allowed hs') _

theorem cell (i : Nat) : (place : Place) →
    (∀ s ∈ place.addressSlots, d.reached s) → place.cell W.toModel st i = place.cell W.toModel st' i
  | .slot .., _ | .param _, _ | .global .., _ => rfl
  | .arg word, _ => by simp [Place.cell, h.sp]
  | .indirect pointer offset, hs => by
    simp [Place.cell, word (.word false) 0 pointer hs]

end

lemma words (rep : Rep) (hs : ∀ s ∈ op.slots, d.reached s) : op.words W.toModel st rep = op.words W.toModel st' rep :=
  map_congr_left fun i _ ↦ h.word rep i op hs

lemma words_allowed (hs : ∀ s ∈ op.slots, d.reached s) : ∀ v ∈ op.words W.toModel st' rep, d.Allows P v := by
  intro v hv
  obtain ⟨i, -, rfl⟩ := mem_map.mp hv
  exact h.word_allowed hs

/-! ## Results -/

lemma write (hs : ∀ s ∈ dst.addressSlots, d.reached s)
    {value value' : Nat → V} (hv : ∀ i < n, value i = value' i) (ha : ∀ i < n, d.Allows P (value' i)) :
    Similar P d past (st.write W.toModel dst n value) (st'.write W.toModel dst n value') :=
  { h with
    mem := fun c hc ↦ writeWords_congr (h.mem c hc) (fun i _ ↦ h.cell i dst hs) hv
    allowed := writeWords_forall h.allowed ha }

lemma write_lost (hs : d.lost s) (offset : Int) (n : Nat)
    (value : Nat → V) : Similar P d past (st.write W.toModel (.slot s offset) n value) st' := by
  refine { h with mem := fun c hc ↦ ?_ }
  have hne : ∀ i < n, c ≠ (Place.slot s offset).cell W.toModel st i := by
    rintro i - rfl
    exact hc hs
  exact (writeWords_of_ne hne).trans (h.mem c hc)

lemma store (hs : ∀ r ∈ result, ∀ s ∈ r.1.addressSlots, d.reached s) {value : Nat → V}
    (ha : ∀ i, d.Allows P (value i)) :
    Similar P d past (st.store W.toModel result value) (st'.store W.toModel result value) := by
  cases result with
  | none => exact h
  | some r => exact h.write (hs r rfl) (fun _ _ ↦ rfl) fun i _ ↦ ha i

lemma assignedWord (hs : ∀ s ∈ src.slots, d.reached s) (i : Nat) :
    assignedWord W.toModel st rep src i = assignedWord W.toModel st' rep src i := by
  simp only [W16Compiler.assignedWord]
  split
  · split
    · rfl
    · have hp : src.pointer W.toModel st = src.pointer W.toModel st' := h.word _ _ src hs
      rw [hp]
      exact h.located (h.word_allowed hs) i
  · exact h.word rep i src hs

lemma assignedWord_allowed (hs : ∀ s ∈ src.slots, d.reached s) (i : Nat) :
    d.Allows P (W16Compiler.assignedWord W.toModel st' rep src i) := by
  simp only [W16Compiler.assignedWord]
  split
  · split
    · exact fun s hin ↦ (P.constant _ s hin).elim
    · exact h.allowed _
  · exact h.word_allowed hs

end Similar

attribute [local simp] Prim.operands Prim.targets

lemma Prim.forall_slots {p : Prim} {Q : SlotId → Prop} (h : ∀ s ∈ p.readSlots, Q s) :
    ∀ op ∈ p.operands, ∀ s ∈ op.slots, Q s := by
  refine fun op hop s hs ↦ h s ?_
  simp only [readSlots, mem_append, mem_flatMap]
  exact .inl (.inl ⟨op, hop, hs⟩)

lemma Prim.addressSlots_subset_readSlots {p : Prim} (h : p.dst = some dst)
    (hs : s ∈ dst.addressSlots) : s ∈ p.readSlots := by
  simp only [readSlots, mem_append, h, map_some, getD_some]
  exact .inl (.inr hs)

namespace Similar

variable (h : Similar P d past st st') {words : Nat} {p : Prim}

include h

lemma value (hr : ∀ s ∈ p.readSlots, d.reached s) (i : Nat) : p.value W.toModel st i = p.value W.toModel st' i := by
  have hop := forall_slots hr
  cases p with
  | cast dst rep src srcRep => simp [Prim.value, h.words srcRep (hop src (by simp))]
  | unary op rep dst src => simp [Prim.value, h.words rep (hop src (by simp))]
  | binary op rep dst lhs rhs =>
    simp [Prim.value, h.words rep (hop lhs (by simp)),
      h.words (rightRep op rep) (hop rhs (by simp))]
  | assign rep dst src => exact h.assignedWord (hop src (by simp)) i
  | _ => rfl

lemma value_allowed (hr : ∀ s ∈ p.readSlots, d.reached s) (i : Nat) : d.Allows P (p.value W.toModel st' i) := by
  have hop := forall_slots hr
  cases p with
  | cast dst rep src srcRep =>
    intro s hin
    obtain ⟨v, hv, hin⟩ := P.cast _ _ _ _ _ hin
    exact h.words_allowed (hop src (by simp)) v hv s hin
  | unary op rep dst src =>
    intro s hin
    obtain ⟨v, hv, hin⟩ := P.unary _ _ _ _ _ hin
    exact h.words_allowed (hop src (by simp)) v hv s hin
  | binary op rep dst lhs rhs =>
    intro s hin
    obtain ⟨v, hv, hin⟩ := P.binary _ _ _ _ _ _ hin
    rcases mem_append.mp hv with hv | hv
    · exact h.words_allowed (hop lhs (by simp)) v hv s hin
    · exact h.words_allowed (hop rhs (by simp)) v hv s hin
  | assign rep dst src => exact h.assignedWord_allowed (hop src (by simp)) i
  | _ => exact fun s hin ↦ (P.constant _ s hin).elim

/-! ## Calls -/

lemma changed (ha : ∀ c v, change c = some v → d.Allows P v) :
    Similar P d past (st.changed change) (st'.changed change) := by
  refine { h with mem := fun c hc ↦ ?_, allowed := fun c ↦ ?_ }
  · simp [PrimState.changed, h.mem c hc]
  · simp only [PrimState.changed]
    cases hch : change c with
    | none => exact h.allowed c
    | some v => exact ha c v hch

lemma moved {sp sp' : Word} (hsp : sp = sp') : Similar P d past { st with sp } { st' with sp := sp' } :=
  { h with sp := hsp }

lemma visible : st.visible W = st'.visible W := by
  funext c
  cases c with
  | outer a => exact congrArg some (h.mem _ fun hin ↦ hin)
  | slot s word =>
    simp only [PrimState.visible]
    by_cases hs : W.hidden s
    · simp [hs]
    · have hm : st.mem (.slot s word) = st'.mem (.slot s word) := h.mem _ fun hl ↦ hs (d.hidden_of_lost s hl)
      simp [hs, hm]

lemma callEvent (hr : ∀ s ∈ (Prim.call target words result).readSlots, d.reached s) :
    st.callEvent W target words = st'.callEvent W target words := by
  have hargs : ∀ i, st.mem ((Place.arg 0).cell W.toModel st i) = st'.mem ((Place.arg 0).cell W.toModel st' i) :=
    fun i ↦ h.word (.word false) i (.load (.arg 0)) (by simp [Operand.slots, Place.slots])
  simp only [PrimState.callEvent, h.visible, hargs]
  cases target with
  | direct label => rfl
  | indirect pointer =>
    have hp : pointer.pointer W.toModel st = pointer.pointer W.toModel st' :=
      h.word _ _ pointer (Prim.forall_slots hr _ (by simp))
    simp [hp]

lemma observed (hr : ∀ s ∈ (call target words result).readSlots, d.reached s) :
    Similar P d (st'.callEvent W target words :: past) st st' := by
  refine { h with shown := fun e he s hshow ↦ ?_ }
  rcases mem_cons.mp he with rfl | he
  · rcases hshow with ⟨v, hv, hin⟩ | ⟨v, hv, hin⟩ | ⟨c, v, hv, hin⟩
    · cases target with
      | direct label => cases hv
      | indirect pointer =>
        cases hv
        have hs : ∀ s ∈ pointer.slots, d.reached s := forall_slots hr _ (by simp)
        exact h.word_allowed hs s hin
    · obtain ⟨i, -, rfl⟩ := mem_map.mp hv
      exact h.allowed _ s hin
    · have hc : v = st'.mem c := by
        cases c with
        | outer a => exact (some.inj hv).symm
        | slot t word =>
          simp only [PrimState.callEvent, PrimState.visible] at hv
          split at hv
          · cases hv
          · exact (some.inj hv).symm
      exact h.allowed c s (hc ▸ hin)
  · exact h.shown e he s hshow

lemma brings_allowed (hv : (W.answer past).Brings v) : d.Allows P v := by
  intro s hin
  obtain ⟨e, he, hshow⟩ := P.answer past v s hv hin
  exact h.shown e he s hshow

end Similar

/-! ## Steps -/

/-- Control goes to the same place, but for the names of labels, in similar states. -/
inductive Move.Similar (P : Provenance W) (d : Slack W) (past : List (CallEvent V)) :
    Move V → Move V → Prop
  | next {st st' : PrimState V} (h : W16Compiler.Similar P d past st st') :
    Move.Similar P d past (.next st) (.next st')
  | goto {st st' : PrimState V} {l : Label} (hl : d.labels l)
    (h : W16Compiler.Similar P d past st st') :
    Move.Similar P d past (.goto l st) (.goto (d.rename l) st')
  | handle {st st' : PrimState V} {l : Label} {v : V} (hl : d.labels l) (hv : d.Allows P v)
    (h : W16Compiler.Similar P d past st st') :
    Move.Similar P d past (.handle l v st) (.handle (d.rename l) v st')
  | finish (o : PrimOutcome V) : Move.Similar P d past (.finish o) (.finish o)

def Move.mapNext (f : PrimState V → PrimState V) : Move V → Move V
  | .next st => .next (f st)
  | m => m

@[simp] lemma Move.mapNext_id (m : Move V) : m.mapNext id = m := by cases m <;> rfl

lemma Move.mapNext_raise (f : PrimState V → PrimState V) (st : PrimState V) (v : V) :
    (st.raise W v).mapNext f = st.raise W v := by
  simp only [PrimState.raise]
  split
  · rfl
  · split <;> rfl

namespace Similar

variable (h : Similar P d past st st')

include h

lemma raise (hv : d.Allows P v) : Move.Similar P d past (st.raise W v) (st'.raise W v) := by
  simp only [PrimState.raise, ← h.mark]
  cases hm : st.mark with
  | none => simpa only [h.visible] using Move.Similar.finish _
  | some r =>
    simp only [h.records r]
    cases hrec : st.records r with
    | none => exact .finish _
    | some t => exact .handle (h.handlers r t hrec) hv { h with sp := rfl, mark := rfl }

lemma afterCall (words : Nat)
    (hf : ∀ (u u' : PrimState V) (value : Nat → V), Similar P d past u u' → (∀ i, d.Allows P (value i)) →
      Similar P d past (f (u.store W.toModel result value)) (u'.store W.toModel result' value)) :
    Move.Similar P d past ((W16Compiler.afterCall W st words result (W.answer past)).mapNext f)
      (W16Compiler.afterCall W st' words result' (W.answer past)) := by
  have hb : ∀ v, (W.answer past).Brings v → d.Allows P v := fun v hv ↦ h.brings_allowed hv
  cases ha : W.answer past with
  | throws change v =>
    rw [ha] at hb
    simp only [W16Compiler.afterCall, Move.mapNext_raise]
    exact (h.changed fun c v hc ↦ hb v (.inl ⟨c, hc⟩)).raise (hb v (.inr rfl))
  | returns change values =>
    rw [ha] at hb
    have hch := h.changed fun c v hc ↦ hb v (.inl ⟨c, hc⟩)
    exact .next (hf _ _ values (hch.moved (congrArg (· + _) h.sp)) fun i ↦ hb _ (.inr ⟨i, rfl⟩))

lemma pushed (r : SlotId) (hl : d.labels l) : Similar P d past
      { st with mark := some r, records := update st.records r (some ⟨st.mark, l, st.sp⟩) }
      { st' with
        mark := some r
        records := update st'.records r (some ⟨st'.mark, d.rename l, st'.sp⟩) } := by
  refine { h with mark := rfl, records := fun q ↦ ?_, handlers := fun q t hq ↦ ?_ }
  · by_cases hq : q = r
    · simp [hq, h.mark, h.sp]
    · simp [hq, h.records q]
  · by_cases hqr : q = r
    · simp only [hqr, update_self, some.injEq] at hq
      exact hq ▸ hl
    · simp only [update_of_ne hqr] at hq
      exact h.handlers q t hq

lemma linked (s : SlotId) (hl : d.labels l) : Similar P d past { st with links := update st.links s (some l) }
      { st' with links := update st'.links s (some (d.rename l)) } := by
  refine { h with links := fun t ↦ ?_, resumes := fun t m hm ↦ ?_ }
  · by_cases ht : t = s
    · simp [ht]
    · simp [ht, h.links t]
  · by_cases hts : t = s
    · simp only [hts, update_self, some.injEq] at hm
      exact hm ▸ hl
    · simp only [update_of_ne hts] at hm
      exact h.resumes t m hm

variable {p : Prim}

lemma receive (hr : ∀ s ∈ p.readSlots, d.reached s) (hv : d.Allows P v) :
    Similar P d past (p.receive W.toModel st v) (p.receive W.toModel st' v) := by
  cases p with
  | catchEntry l dst =>
    cases dst with
    | none => exact h
    | some place =>
      exact h.write (fun s hs ↦ hr s (addressSlots_subset_readSlots rfl hs)) (fun _ _ ↦ rfl) fun _ _ ↦ hv
  | _ => exact h

lemma act_of_isPure (hp : p.isPure) (hr : ∀ s ∈ p.readSlots, d.reached s) :
    Move.Similar P d past (p.act W past st).2 (p.act W past st').2 := by
  have hv : ∀ i, p.value W.toModel st i = p.value W.toModel st' i := h.value hr
  have ha : ∀ i, d.Allows P (p.value W.toModel st' i) := h.value_allowed hr
  have hdst : ∀ dst, p.dst = some dst → ∀ s ∈ dst.addressSlots, d.reached s :=
    fun dst hd s hs ↦ hr s (addressSlots_subset_readSlots hd hs)
  cases p with
  | cast dst | unary op rep dst | binary op rep dst | assign rep dst =>
    exact .next (h.write (hdst dst rfl) (fun i _ ↦ hv i) fun i _ ↦ ha i)
  | _ => cases hp

lemma act (hr : ∀ s ∈ p.readSlots, d.reached s) (hl : ∀ l ∈ p.targets, d.labels l) :
    (p.act W past st).1 = ((p.mapTargets d.rename).act W past st').1 ∧
      Move.Similar P d ((p.act W past st).1.toList ++ past) (p.act W past st).2
        ((p.mapTargets d.rename).act W past st').2 := by
  have hop := forall_slots hr
  cases p with
  | entry | label l | cleanupEntry l link | catchEntry l dst => exact ⟨rfl, .next h⟩
  | jump l => exact ⟨rfl, .goto (hl l (by simp)) h⟩
  | compare cond rep lhs rhs l =>
    refine ⟨rfl, ?_⟩
    simp only [act, mapTargets, h.words rep (hop lhs (by simp)), h.words rep (hop rhs (by simp))]
    split
    · exact .goto (hl l (by simp)) h
    · exact .next h
  | test nonzero rep value l =>
    refine ⟨rfl, ?_⟩
    simp only [act, mapTargets, h.words rep (hop value (by simp))]
    split
    · exact .next h
    · exact .goto (hl l (by simp)) h
  | callStart words => exact ⟨rfl, .next (h.moved (congrArg (· - _) h.sp))⟩
  | call target words result =>
    have hev := h.callEvent hr
    refine ⟨congrArg some hev, ?_⟩
    simp only [act, mapTargets, hev]
    have hstore : ∀ r ∈ result, ∀ s ∈ r.1.addressSlots, d.reached s := by
      rintro r rfl s hs
      exact hr s (addressSlots_subset_readSlots rfl hs)
    simpa using (h.observed hr).afterCall (f := id) words fun u u' value hu hv ↦ hu.store hstore hv
  | cast dst rep src srcRep | unary op rep dst src | binary op rep dst lhs rhs | assign rep dst src =>
    exact ⟨rfl, h.act_of_isPure rfl hr⟩
  | ret value =>
    refine ⟨rfl, ?_⟩
    cases value with
    | none =>
      simp only [act, mapTargets, map_none, h.visible]
      exact .finish _
    | some v =>
      simp only [act, mapTargets, map_some, h.visible, h.words v.2 (hop v.1 (by simp))]
      exact .finish _
  | throwValue value =>
    refine ⟨rfl, ?_⟩
    have hs : ∀ s ∈ value.slots, d.reached s := hop value (by simp)
    simp only [act, mapTargets, h.word (.word true) 0 value hs]
    exact h.raise (h.word_allowed hs)
  | tryBegin record l => exact ⟨rfl, .next (h.pushed record (hl l (by simp)))⟩
  | tryEnd record =>
    refine ⟨rfl, ?_⟩
    simp only [act, mapTargets, h.records record]
    cases st.records record with
    | none => exact .finish _
    | some t => exact .next { h with mark := rfl }
  | cleanupCall start link resume =>
    have hresume : d.labels resume := hl resume (by simp)
    exact ⟨rfl, .goto (hl start (by simp)) (h.linked link hresume)⟩
  | cleanupReturn link resumes =>
    refine ⟨rfl, ?_⟩
    simp only [act, mapTargets, h.links link]
    cases hlink : st.links link with
    | none => exact .finish _
    | some l => exact .goto (h.resumes link l hlink) h

end Similar

end W16Compiler
