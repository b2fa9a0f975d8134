import W16Compiler.Constant.Fold
import W16Compiler.Proofs.Select.Positions

/-!
# Selected code does what its node does

The machine stands before the code of a node, in a state that represents the state of the flow list. It
runs the code and goes where the node goes: to the code of the next node, to that of a label, to a
handler with the value that was thrown, to the caller, or to the handler of the caller. There it
represents the state that the node leaves.
-/

namespace W16Compiler

open Select Option Bool Prim PrimState BitVec

def FrameMap.world (F : FrameMap) (E : Surroundings) (A : Arithmetic) (hidden : SlotId → Bool)
    (answer : List (CallEvent Word) → CallAnswer Word) : World Word :=
  { F.model E A with hidden, answer }

/-- What a node does, entered by an exception if it is a handler. -/
def Prim.moveFrom (W : World Word) (past : List (CallEvent Word)) (st : PrimState Word) (thrown : Word)
    (p : Prim) : Move Word :=
  match p with
  | .catchEntry .. => .next (p.receive W.toModel st thrown)
  | _ => (p.act W past st).2

def Prim.written (W : World Word) (past : List (CallEvent Word)) (st : PrimState Word) (p : Prim)
    (c : Cell) : Prop :=
  match p with
  | .call target words result => ∃ change values,
    W.answer (st.callEvent W target words :: past) = .returns change values ∧
      resultCells W.toModel ((st.changed change).release words) result c
  | _ => ∃ dst rep, p.dst = some dst ∧ p.dstRep = some rep ∧ dst.Covers W.toModel st rep.words c

def Operand.Known (M : Model Word) (live : Cell → Prop) (st : PrimState Word) (rep : Rep) (op : Operand) :
    Prop :=
  ∀ i, i < rep.words → ∀ c ∈ op.reads M st i, live c

namespace PrimState

variable {W : World Word} {r : SlotId} {value : Word}

lemma raise_uncaught (st : PrimState Word) (hmark : st.mark = none) :
    st.raise W value = .finish (.threw value (st.visible W)) := by
  simp [raise, hmark]

lemma raise_lost (st : PrimState Word) (hmark : st.mark = some r) (hr : st.records r = none) :
    st.raise W value = .finish .wild := by
  simp [raise, hmark, hr]

lemma raise_caught (st : PrimState Word) (hmark : st.mark = some r) (hr : st.records r = some record) :
    st.raise W value = .handle record.handler value { st with mark := record.outer, sp := record.sp } := by
  simp [raise, hmark, hr]

end PrimState

section

variable (F : FrameMap) (E : Surroundings) (A : Arithmetic) (top : Word) (live left : Cell → Prop)
  (W : World Word) (past : List (CallEvent Word)) (mpast : List MachineEvent) (st : PrimState Word)

/-- What a node relies on. The words that it reads are known, the words that it writes are data, apart
from those that lead to them, and a source of several words is the destination or apart from it. Records
and links are in slots of their own. What a callee leaves behind stands for the answer to the call. -/
def Prim.Admits : Prim → Prop
  | .compare _ rep lhs rhs _ => lhs.Known W.toModel live st rep ∧ rhs.Known W.toModel live st rep
  | .test _ rep value _ => value.Known W.toModel live st rep
  | .callStart words => F.Room E (st.sp - .ofNat 16 words)
  | .call target words result =>
    (∀ c ∈ targetReads W.toModel st target, live c) ∧
    (∀ ms, F.Represents E top live st ms → F.Answers E top left st result
      (E.answer (ms.callEvent (target.shown W.toModel st) :: mpast))
      (W.answer (st.callEvent W target words :: past))) ∧
    ∀ change values, W.answer (st.callEvent W target words :: past) = .returns change values →
      F.Room E (st.sp + .ofNat 16 words) ∧ ∀ dst rep, result = some (dst, rep) →
        Writable F E A (F.after left (fun _ ↦ False) (st.sp + .ofNat 16 words))
          ((st.changed change).release words) rep.words dst
  | .cast dst rep src srcRep =>
    src.Known W.toModel live st srcRep ∧ Writable F E A live st rep.words dst ∧
      (srcRep.words = rep.words → Copyable W.toModel st rep.words dst src)
  | .unary _ rep dst src => src.Known W.toModel live st rep ∧ Writable F E A live st rep.words dst
  | .binary op rep dst lhs rhs =>
    lhs.Known W.toModel live st rep ∧ rhs.Known W.toModel live st (rightRep op rep) ∧
      Writable F E A live st rep.words dst
  | .assign rep dst src =>
    Writable F E A live st rep.words dst ∧
      if rep.isBlock then src ≠ .imm 0 → BlockSource W.toModel live st rep.words dst src
      else src.Known W.toModel live st rep ∧ Copyable W.toModel st rep.words dst src
  | .ret value => ∀ op rep, value = some (op, rep) → op.Known W.toModel live st rep
  | .throwValue value => value.Known W.toModel live st (.word true)
  | .tryBegin record handler => F.use record = .record ∧ 3 ≤ F.words record ∧ E.Placed handler
  | .cleanupCall _ link resume => F.use link = .link ∧ 1 ≤ F.words link ∧ E.Placed resume
  | .catchEntry _ dst => ∀ d, dst = some d → Writable F E A live st 1 d
  | _ => True

/-- The state of the machine when it comes to the code of a node: on entry to the function the frame is
still to be made, and a handler finds the value that was thrown. -/
def FrameMap.Enters (thrown : Word) (ms : MachineState) : Prim → Prop
  | .entry => F.Represents E top live st (ms.set .sp (ms.sp - F.size))
  | .catchEntry .. => F.Represents E top live st ms ∧ ms.regs .r0 = thrown
  | _ => F.Represents E top live st ms

def FrameMap.Shows (memory : Cell → Option Word) (mem : Word → Word) : Prop :=
  ∀ c v, left c → memory c = some v → mem (F.address c) = v

/-- The machine goes where the node goes, and its memory still represents that of the flow list. -/
def FrameMap.Follows (ms : MachineState) (p : Prim) : Move Word → MachineMove → Prop
  | .next st', m => ∃ ms', m = .next ms' ∧
    F.Represents E top (F.after left (p.written W past st) st'.sp) st' ms'
  | .goto l st', m => ∃ ms', m = .goto l ms' ∧
    F.Represents E top (F.after left (p.written W past st) st'.sp) st' ms'
  | .handle l value st', m => ∃ ms', m = .goto l ms' ∧ ms'.regs .r0 = value ∧
    F.Represents E top (F.after left (p.written W past st) st'.sp) st' ms'
  | .finish (.returned values memory), m => ∃ r0 mem,
    m = .finish (.returned (st.sp + F.size) r0 values[1]? mem) ∧ (∀ v, values[0]? = some v → r0 = v) ∧
      F.Shows left memory mem ∧ mem (E.symbol tryMark) = F.markAddress top st.mark
  | .finish (.threw value memory), m =>
    if p.isCall then ∃ mem, m = .finish (.unwound mem) ∧ F.Shows left memory mem
    else ∃ past' ms', Popped E top value ms ms' ∧ F.Shows left memory ms'.mem ∧
      m = ((Instr.jumpReg .r1 []).act E (fun _ ↦ true) past' ms').2
  | .finish .wild, _ => True

end

namespace FrameMap

variable {F : FrameMap} {E : Surroundings} {A : Arithmetic} {top : Word} {live left : Cell → Prop}
  {hidden : SlotId → Bool} {answer : List (CallEvent Word) → CallAnswer Word}
  {past : List (CallEvent Word)} {mpast : List MachineEvent} {st st' : PrimState Word} {thrown : Word}
  {ms ms' : MachineState} {p : Prim} {dst : Place} {rep : Rep} {value : Nat → Word} {result : Option (Place × Rep)}
  {target : CallTarget} {W : World Word} {words : Nat}

lemma Represents.unwritten (h : F.Represents E top live st' ms')
    (hleft : ∀ c, left c → live c) (hcall : p.isCall = false) (hdst : p.dst = none) :
    F.Represents E top (F.after left (p.written W past st) st'.sp) st' ms' := by
  refine h.mono fun c hc ↦ hleft c (hc.1.resolve_right fun hw ↦ ?_)
  have hnone : ∃ dst rep, p.dst = some dst ∧ p.dstRep = some rep ∧ dst.Covers W.toModel st rep.words c := by
    cases p <;> first | exact hw | cases hcall
  obtain ⟨_, -, hsome, -⟩ := hnone
  rw [hdst] at hsome
  cases hsome

lemma represents_written (hleft : ∀ c, left c → live c) (hcall : p.isCall = false)
    (hdst : p.dst = some dst) (hrep : p.dstRep = some rep) (h : Stored F E A top live st dst value rep.words ms') :
    F.Represents E top (F.after left (p.written (F.world E A hidden answer) past st) st.sp)
      (st.write (F.model E A) dst rep.words value) ms' := by
  refine Represents.mono h fun c hc ↦ ⟨hc.1.imp (hleft c) fun hw ↦ ?_, hc.2⟩
  have hcells : ∃ dst rep, p.dst = some dst ∧ p.dstRep = some rep ∧ dst.Covers (F.model E A) st rep.words c := by
    cases p <;> first | exact hw | cases hcall
  obtain ⟨_, _, hdst', hrep', hcovers⟩ := hcells
  rw [hdst] at hdst'
  rw [hrep] at hrep'
  cases hdst'
  cases hrep'
  exact hcovers

lemma shows_visible {mem : Word → Word}
    (h : ∀ c, left c → mem (F.address c) = st'.mem c) : F.Shows left (st'.visible W) mem := by
  intro c v hc hv
  have hmem : st'.mem c = v := by
    cases c with
    | outer a => exact some.inj hv
    | slot s k =>
      rw [visible] at hv
      split at hv
      · cases hv
      · exact some.inj hv
  rw [h c hc, hmem]

lemma Answers.follows_throws {reply : Reply} {value : Word}
    (hanswer : answer (st.callEvent (F.world E A hidden answer) target words :: past) = .throws change value)
    (h : F.Answers E top left st result reply (.throws change value)) (ms ms' : MachineState)
    (m : MachineMove) (hm : reply.exit ≠ .returns → m = ms'.afterCall reply) :
    F.Follows E top left (F.world E A hidden answer) past st ms (.call target words result)
      ((st.changed change).raise (F.world E A hidden answer) value) m := by
  have hunwritten : ∀ c, ¬ (call target words result).written (F.world E A hidden answer) past st c := by
    rintro c ⟨_, _, hreturns, -⟩
    rw [show (F.world E A hidden answer).answer = answer from rfl, hanswer] at hreturns
    cases hreturns
  rw [Answers] at h
  cases hmark : st.mark with
  | none =>
    simp only [hmark] at h
    obtain ⟨hexit, hmem⟩ := h
    rw [raise_uncaught (st.changed change) hmark, hm (by simp [hexit])]
    exact ⟨reply.mem, by rw [MachineState.afterCall, hexit], shows_visible hmem⟩
  | some r =>
    simp only [hmark] at h
    cases hrecord : st.records r with
    | none =>
      rw [raise_lost (st.changed change) hmark hrecord]
      trivial
    | some record =>
      obtain ⟨hexit, hr0, hrep⟩ := h record hrecord
      rw [raise_caught (st.changed change) hmark hrecord, hm (by simp [hexit])]
      refine ⟨reply.state record.sp, by rw [MachineState.afterCall, hexit], ?_, ?_⟩
      · rw [Reply.state_regs_of_ne _ _ (by decide), hr0]
      · exact hrep.mono fun c hc ↦ hc.1.resolve_right (hunwritten c)

variable {code : Instrs} {op : Operand}

lemma leads_call (hF : F.Fits E)
    (hadm : (call target words result).Admits F E A top live left (F.world E A hidden answer) past mpast st)
    (hrep : F.Represents E top live st ms) (h : selectCall target words result = .ok code) :
    Leads E mpast ms code (F.Follows E top left (F.world E A hidden answer) past st ms (.call target words result)
      (afterCall (F.world E A hidden answer) st words result
        (answer (st.callEvent (F.world E A hidden answer) target words :: past)))) := by
  obtain ⟨hreads, hanswers, hafter⟩ := hadm
  obtain ⟨_, _, store, htarget, hstore, rfl⟩ := selectCall_cases h
  refine leads_callInstr mpast hF hrep htarget hreads fun ms1 reply hrep1 hreply ↦ ?_
  have hans : F.Answers E top left st result reply
      (answer (st.callEvent (F.world E A hidden answer) target words :: past)) :=
    hreply ▸ hanswers ms1 hrep1
  cases hanswer : answer (st.callEvent (F.world E A hidden answer) target words :: past) with
  | throws change value =>
    rw [hanswer] at hans
    have hmove := hans.follows_throws hanswer ms ms1
    exact ⟨fun hexit past' ↦ hmove _ fun hne ↦ (hne hexit).elim, fun _ ↦ hmove _ fun _ ↦ rfl⟩
  | returns change values =>
    rw [hanswer] at hans
    obtain ⟨hexit, hrep2, hr0, hr1⟩ := hans
    obtain ⟨hroom, hwritable⟩ := hafter change values hanswer
    refine ⟨fun _ past' ↦ ?_, fun hne ↦ (hne hexit).elim⟩
    rw [hrep1.sp]
    refine (runs_moveSp past' hrep2 words Int.natCast_eq_zero.mpr (by rw [ofInt_natCast]; rfl) hroom).leads ?_
    rintro past2 ms2 ⟨hrep3, hregs⟩
    have hlow : 1 ≤ resultWords result → ms2.regs .r0 = values 0 := fun hone ↦ by
      rw [hregs .r0 (by decide), Reply.state_regs_of_ne _ _ (by decide), hr0 hone]
    have hhigh : 2 ≤ resultWords result → ms2.regs .r1 = values 1 := fun htwo ↦ by
      rw [hregs .r1 (by decide), Reply.state_regs_of_ne _ _ (by decide), hr1 htwo]
    refine Runs.leads_next (runs_storesResult past2 hF hrep3 hstore hlow hhigh hwritable) ?_
    intro ms3 hrep4
    have hsp : (((st.changed change).release words).store (F.model E A) result values).sp =
        st.sp + .ofNat 16 words := by cases result <;> rfl
    refine ⟨ms3, rfl, hrep4.mono fun c ⟨hc, hfree⟩ ↦ ?_⟩
    rw [show (F.world E A hidden answer).toModel = F.model E A from rfl, hsp] at hfree
    rcases hc with hleft | ⟨change', values', hreturns, hcells⟩
    · exact ⟨.inl ⟨.inl hleft, hfree⟩, hfree⟩
    · rw [show (F.world E A hidden answer).answer = answer from rfl, hanswer] at hreturns
      cases hreturns
      exact ⟨.inr hcells, hfree⟩

lemma leads_stored (hp : p.isPure) (hleft : ∀ c, left c → live c) (hdst : p.dst = some dst)
    (hrepr : p.dstRep = some rep)
    (h : Runs E mpast ms code (Stored F E A top live st dst (p.value (F.model E A) st) rep.words)) :
    Leads E mpast ms code (F.Follows E top left (F.world E A hidden answer) past st ms p
      (p.moveFrom (F.world E A hidden answer) past st thrown)) := by
  have hcall : p.isCall = false := by cases p <;> first | rfl | cases hp
  have hmove : p.moveFrom (F.world E A hidden answer) past st thrown =
      .next (st.write (F.model E A) dst rep.words (p.value (F.model E A) st)) := by
    cases p <;> first | (cases hdst; cases hrepr; rfl) | cases hp
  rw [hmove]
  exact h.leads_next fun ms' hstored ↦ ⟨ms', rfl, represents_written hleft hcall hdst hrepr hstored⟩

lemma follows_branches {taken : Bool} {target : Label} (hleft : ∀ c, left c → live c)
    (hcall : p.isCall = false) (hdst : p.dst = none) (h : Branches F E top live st taken target m) :
    F.Follows E top left (F.world E A hidden answer) past st ms p (if taken then .goto target st else .next st) m := by
  obtain ⟨ms', hrep', rfl⟩ := h
  cases taken with
  | true | false => exact ⟨ms', rfl, hrep'.unwritten hleft hcall hdst⟩

lemma Known.readable (h : op.Known (F.model E A) live st rep) (hsuits : op.suits rep) :
    Readable (F.model E A) live st rep op :=
  ⟨h, fun _ _ heq ↦ Operand.words_of_suits hsuits heq⟩

section

variable (hF : F.Fits E) (hleft : ∀ c, left c → live c) (hrep : F.Represents E top live st ms)

include hF hleft hrep

lemma leads_throwValue (hknown : op.Known (F.model E A) live st (.word true)) (h : selectThrow op = .ok code) :
    Leads E mpast ms code (F.Follows E top left (F.world E A hidden answer) past st ms (.throwValue op)
      (st.raise (F.world E A hidden answer) (op.word (F.model E A) st (.word true) 0))) := by
  have hlead := leads_throw mpast hF hrep (hknown 0 one_pos) h
  rw [Leads] at hlead ⊢
  obtain ⟨past', ms', hpopped, hm⟩ := hlead
  rw [hm]
  cases hmark : st.mark with
  | none =>
    rw [st.raise_uncaught hmark]
    rw [hmark] at hpopped
    refine ⟨past', ms', hpopped, shows_visible fun c hc ↦ ?_, rfl⟩
    rw [hpopped.mem, Function.update_of_ne ((hrep.data c (hleft c hc)).mark_ne_address hF).symm,
      hrep.mem c (hleft c hc)]
  | some r =>
    cases hrecord : st.records r with
    | none =>
      rw [st.raise_lost hmark hrecord]
      trivial
    | some record =>
      obtain ⟨hrep', htarget⟩ := hpopped.represents hF hrep hmark hrecord
      rw [st.raise_caught hmark hrecord, act_jumpReg (hrep.records r record hrecord).placed htarget]
      refine ⟨ms', rfl, hpopped.value, hrep'.mono fun c hc ↦ ⟨.inl (hleft c (hc.1.resolve_right ?_)), hc.2⟩⟩
      rintro ⟨_, -, hnone, -⟩
      cases hnone

lemma leads_ret
    {value : Option (Operand × Rep)} (hknown : ∀ op rep, value = some (op, rep) → op.Known (F.model E A) live st rep)
    (h : selectReturn value = .ok code) :
    Leads E mpast ms code (F.Follows E top left (F.world E A hidden answer) past st ms (.ret value)
      (.finish (.returned (returnedWords (F.model E A) st value) (st.visible (F.world E A hidden answer))))) := by
  obtain ⟨_, hload, rfl⟩ := selectReturn_cases h
  refine (runs_loadsResult mpast hF hrep hload hknown).leads ?_
  rintro _ ms1 ⟨hrep1, hret⟩
  refine .cons_result rfl (.singleton ?_)
  have hone : BitVec.ofInt 16 1 = 1#16 := rfl
  have hsp : (ms1.set .sp ((Instr.addImm .sp .sp (.frame 1)).value E ms1)).sp = st.sp + F.size := by
    rw [MachineState.set_sp_self, Instr.value, address_sp hF, FrameMap.displacement, hone, hrep1.sp, BitVec.one_mul]
  rw [Instr.act, hsp, MachineState.set_regs_of_ne _ _ (by decide), MachineState.set_regs_of_ne _ _ (by decide),
    ← hret.high]
  exact ⟨_, _, rfl, hret.low, shows_visible fun c hc ↦ hrep1.mem c (hleft c hc), hrep1.mark⟩

lemma leads_catchEntry (hthrown : ms.regs .r0 = thrown) {dst : Option Place}
    (hw : ∀ d, dst = some d → Writable F E A live st 1 d) {slots slots' : Array Slot}
    (h : selectPrim (.catchEntry l dst) slots = .ok (code, slots')) :
    Leads E mpast ms code (F.Follows E top left (F.world E A hidden answer) past st ms
      (.catchEntry l dst) (.next ((catchEntry l dst).receive (F.model E A) st thrown))) := by
  cases dst with
  | none =>
    cases h
    exact ⟨ms, rfl, hrep.unwritten hleft rfl rfl⟩
  | some d =>
    obtain ⟨store, _, hstore, hcode⟩ := bindState_eq_ok.mp h
    cases hcode
    have hstart : Stored F E A top live st d (fun _ ↦ thrown) 0 ms := .start hrep A d _
    have hrun := runs_storeNext mpast hF hrep.kept (hw d rfl) one_pos hstart (by decide) hthrown
      (lift_eq_ok.mp hstore).1
    change Leads E mpast ms ([.label l (.ofList [.r0])] ++ store) _
    refine .append_of_perform rfl (hrun.leads_next fun ms' hms ↦ ⟨ms', rfl, ?_⟩)
    have hrep : (catchEntry l (some d)).dstRep = some (.word true) := rfl
    exact represents_written hleft rfl rfl hrep hms.1

end

lemma leads_selectPrim (hF : F.Fits E) (hhelp : E.Helps F A) (hp : p.isSelectable)
    (hleft : p.isCall = false → ∀ c, left c → live c) (hent : F.Enters E top live st thrown ms p)
    (hadm : p.Admits F E A top live left (F.world E A hidden answer) past mpast st) {slots slots' : Array Slot}
    (hspills : F.Spills slots slots') (h : selectPrim p slots = .ok (code, slots')) :
    Leads E mpast ms code (F.Follows E top left (F.world E A hidden answer) past st ms p
      (p.moveFrom (F.world E A hidden answer) past st thrown)) := by
  cases p with
  | entry =>
    cases h
    exact (runs_entry mpast hF hent).leads_next fun ms' hrep' ↦ ⟨ms', rfl, hrep'.unwritten (hleft rfl) rfl rfl⟩
  | label l | cleanupEntry l link | jump l =>
    cases h
    exact ⟨ms, rfl, FrameMap.Represents.unwritten hent (hleft rfl) rfl rfl⟩
  | compare cond rep lhs rhs target =>
    simp only [isSelectable, and_eq_true, not_eq_true'] at hp
    exact follows_branches (hleft rfl) rfl rfl
      (leads_compare mpast hF hhelp hent hp.1.1 (Known.readable hadm.1 hp.1.2) (Known.readable hadm.2 hp.2) hspills h)
  | test nonzero rep value target =>
    simp only [isSelectable, and_eq_true, not_eq_true'] at hp
    have hmove : (test nonzero rep value target).moveFrom (F.world E A hidden answer) past st thrown =
        if (F.model E A).isZero rep (value.words (F.model E A) st rep) != nonzero then .goto target st
        else .next st := by
      simp only [bne_iff_ne, ite_not]
      rfl
    rw [hmove]
    exact follows_branches (hleft rfl) rfl rfl
      (leads_test mpast hF hent hp.1 (Known.readable hadm hp.2) (lift_eq_ok.mp h).1)
  | callStart words =>
    cases h
    have hminus : st.sp - .ofNat 16 words = st.sp + .ofInt 16 (-words) := by
      rw [ofInt_neg, ofInt_natCast, BitVec.sub_eq_add_neg]
    refine (runs_moveSp mpast hent words (by omega) hminus hadm).leads_next fun ms' hrep' ↦ ⟨ms', rfl, hrep'.1.mono ?_⟩
    rintro c ⟨hc | ⟨_, _, hnone, -⟩, hfree⟩
    · exact ⟨.inl (hleft rfl c hc), hfree⟩
    · cases hnone
  | call target words result => exact leads_call hF hadm hent (lift_eq_ok.mp h).1
  | cast dst rep src srcRep =>
    simp only [isSelectable, and_eq_true, not_eq_true'] at hp
    exact leads_stored rfl (hleft rfl) rfl rfl (runs_cast mpast hF hhelp hent hp.1.1 hp.1.2
      (Known.readable hadm.1 hp.2) hadm.2.1 hspills h hadm.2.2)
  | unary op rep dst src =>
    simp only [isSelectable, and_eq_true, not_eq_true'] at hp
    exact leads_stored rfl (hleft rfl) rfl rfl
      (runs_unary mpast hF hhelp hent hp.1 (Known.readable hadm.1 hp.2) hadm.2 hspills h)
  | binary op rep dst lhs rhs =>
    simp only [isSelectable, and_eq_true, not_eq_true'] at hp
    exact leads_stored rfl (hleft rfl) rfl rfl (runs_binary mpast hF hhelp hent hp.1.1.2
      (Known.readable hadm.1 hp.1.2) (Known.readable hadm.2.1 hp.2) hadm.2.2 hspills h)
  | assign rep dst src =>
    refine leads_stored rfl (hleft rfl) rfl rfl ?_
    by_cases hb : rep.isBlock = true
    · rw [Admits, if_pos hb] at hadm
      cases rep with
      | block n => exact runs_assignBlock mpast hF hhelp hent hadm.1 hadm.2 (lift_eq_ok.mp h).1
      | word | byte | long | float | double => cases hb
    · rw [Admits, if_neg hb] at hadm
      rw [not_eq_true] at hb
      rw [Prim.isSelectable, hb, Bool.false_or] at hp
      have hassigned : (assign rep dst src).value (F.model E A) st = fun i ↦ src.word (F.model E A) st rep i := by
        funext i
        simp [value, assignedWord, hb, false_eq_true]
      rw [hassigned]
      exact runs_assignWords mpast hF hent hb (Known.readable hadm.2.1 hp) hadm.1 hadm.2.2 (lift_eq_ok.mp h).1
  | ret value => exact leads_ret hF (hleft rfl) hent hadm (lift_eq_ok.mp h).1
  | throwValue value => exact leads_throwValue hF (hleft rfl) hent hadm (lift_eq_ok.mp h).1
  | tryBegin record handler =>
    cases h
    exact (runs_tryBegin mpast hF hent hadm.1 hadm.2.1 hadm.2.2).leads_next fun ms' hrep' ↦
      ⟨ms', rfl, hrep'.unwritten (hleft rfl) rfl rfl⟩
  | tryEnd record =>
    cases h
    cases hr : st.records record with
    | none =>
      simp only [moveFrom, act, hr]
      trivial
    | some r =>
      simp only [moveFrom, act, hr]
      exact (runs_tryEnd mpast hF hent hr).leads_next fun ms' hrep' ↦ ⟨ms', rfl, hrep'.unwritten (hleft rfl) rfl rfl⟩
  | cleanupCall start link resume =>
    cases h
    exact (runs_setLink mpast hF hent hadm.1 hadm.2.1 hadm.2.2).leads fun _ ms' hrep' ↦
      .singleton ⟨ms', rfl, hrep'.unwritten (hleft rfl) rfl rfl⟩
  | cleanupReturn link resumes =>
    cases h
    cases hl : st.links link with
    | none =>
      simp only [moveFrom, act, hl]
      trivial
    | some l =>
      have hrep : F.Represents E top live st ms := hent
      have hlink : (ms.set .r0 (Instr.value E ms (.load .r0 .sp (.slot link 0)))).regs .r0 = E.label l := by
        simp [Instr.value, address_slot_zero hF, (hrep.links link l hl).label]
      simp only [moveFrom, act, hl]
      refine .cons_result rfl (.singleton ?_)
      rw [act_jumpReg (hrep.links link l hl).placed hlink]
      exact ⟨_, rfl, (hrep.set hF _ (by decide)).unwritten (hleft rfl) rfl rfl⟩
  | catchEntry l dst => exact leads_catchEntry hF (hleft rfl) hent.1 hent.2 hadm h

end FrameMap

/-- Selection implements a function. It succeeds, the code of a label stands where the label stands, and
from every position the machine does what the next node does: it comes to the position where the node
goes, in a state that represents what the node leaves. -/
theorem PrimFunction.select_follows (f : PrimFunction) (hf : ∀ p ∈ f.prims, p.value.isSelectable) :
    ∃ g, f.select = .ok g ∧ f.Aligned g f.prims g.code ∧
      (∀ l found, Flow.seek l f.prims = some found →
        ∃ code, Code.seek l g.code = some code ∧ f.Aligned g found code) ∧
      ∀ (p : Item Prim) (rest : Flow) (code : Code), f.Aligned g (p :: rest) code →
        ∃ back, f.Aligned g rest back ∧
          ∀ (F : FrameMap) (E : Surroundings) (A : Arithmetic) (top : Word) (live left : Cell → Prop)
            (hidden : SlotId → Bool) (answer : List (CallEvent Word) → CallAnswer Word)
            (past : List (CallEvent Word)) (mpast : List MachineEvent) (st : PrimState Word)
            (thrown : Word) (ms : MachineState),
            F.Fits E → E.Helps F A → F.Spills f.slots g.slots →
            (p.value.isCall = false → ∀ c, left c → live c) →
            F.Enters E top live st thrown ms p.value →
            p.value.Admits F E A top live left (F.world E A hidden answer) past mpast st →
            ∃ mpast' m, (g.code.process E fun _ ↦ true).Reaches ⟨.running (code, ms), mpast⟩
                ⟨g.code.follow back m, mpast'⟩ ∧
              F.Follows E top left (F.world E A hidden answer) past st ms p.value
                (p.value.moveFrom (F.world E A hidden answer) past st thrown) m := by
  obtain ⟨g, hg⟩ := f.select_ok hf
  refine ⟨g, hg, ⟨[], [], f.slots, rfl, rfl, .nil _, f.selected_of_select hg⟩, fun l found ↦ f.aligned_seek hg, ?_⟩
  intro p rest code h
  obtain ⟨slots, slots1, instrs, back, hselect, rfl, hback, hbefore, hafter⟩ := h.cons
  refine ⟨back, hback, ?_⟩
  intro F E A top _ _ _ _ _ mpast st _ ms hF hhelp hspills hleft hent hadm
  have hp : p ∈ f.prims := by
    obtain ⟨before, -, -, hprims, -⟩ := h
    rw [hprims]
    exact List.mem_append_right before List.mem_cons_self
  have hgrows := selectPrim_grows hselect
  have hown : F.Spills slots slots1 :=
    (spills_split hgrows hafter (spills_split hbefore (hgrows.trans hafter) hspills).2).1
  -- The code of the node runs as part of the function, up to where the node goes.
  have hlead := FrameMap.leads_selectPrim hF hhelp (hf p hp) hleft hent hadm hown hselect
  refine ⟨(perform E mpast ms instrs).1, (perform E mpast ms instrs).2, ?_, hlead⟩
  refine Code.process_reaches_perform g.code (instrs.map (⟨·, p.loc⟩)) back ?_
  simp only [List.map_map, Function.comp_def, List.map_id']

/-! ## A sum of long numbers -/

namespace FrameMap.Example

lemma address_cell_quarters (a : Word) :
    (if a.toNat < 12 then Cell.slot ⟨a.toNat / 4⟩ (a.toNat % 4 : Nat) else .outer a).address
      (fun s ↦ .ofNat 16 (4 * s.index)) = a := by
  split
  · rw [Cell.address, ofInt_natCast, ← ofNat_add, Nat.div_add_mod, BitVec.ofNat_toNat]
    simp
  · rfl

lemma toNat_quarter (hs : s < 3) (hk : k < 4) : (BitVec.ofNat 16 (4 * s) + BitVec.ofNat 16 k).toNat = 4 * s + k := by
  rw [← ofNat_add, toNat_ofNat]
  omega

lemma cell_quarter (s : SlotId) (k : Nat) (h : k < if s.index < 3 then 4 else 0) :
    (if (BitVec.ofNat 16 (4 * s.index) + BitVec.ofNat 16 k).toNat < 12 then
      Cell.slot ⟨(BitVec.ofNat 16 (4 * s.index) + BitVec.ofNat 16 k).toNat / 4⟩
        ((BitVec.ofNat 16 (4 * s.index) + BitVec.ofNat 16 k).toNat % 4 : Nat)
    else .outer (BitVec.ofNat 16 (4 * s.index) + BitVec.ofNat 16 k)) = .slot s k := by
  have hs : s.index < 3 ∧ k < 4 := by split at h <;> omega
  have hq : (4 * s.index + k) / 4 = s.index := by omega
  have hr : (4 * s.index + k) % 4 = k := by omega
  rw [toNat_quarter hs.1 hs.2, if_pos (by omega), hq, hr]

/-- Three slots of four words from address zero on. -/
def frame : FrameMap where
  slot s := .ofNat 16 (4 * s.index)
  words s := if s.index < 3 then 4 else 0
  use s := if s.index = 2 then .spill else .data
  param := 20
  size := 12
  cell a := if a.toNat < 12 then .slot ⟨a.toNat / 4⟩ (a.toNat % 4 : Nat) else .outer a
  free _ _ := False
  address_cell := address_cell_quarters
  cell_slot := cell_quarter

/-- The arithmetic of integers, with counts of shifts of five bits. A product takes no account of signs, and what is
done with floating numbers is done with their bits. -/
def arithmetic : Arithmetic where
  unary op rep vs := rep.wordOf (op.onNumber (rep.number vs))
  binary op rep vs ws :=
    let number ws : Int := if op = .mul then Rep.bits ws else rep.number ws
    let right : Int := if op = .shl || op = .shr then Rep.bits ws % 32 else number ws
    rep.wordOf ((Constant.arithmetic op (number vs) right).getD 0)
  cast srcRep rep vs := rep.wordOf (srcRep.number vs)
  order rep vs ws := compare (rep.number vs) (rep.number ws)

def wideReps : List Rep := [.long true, .long false, .float, .double]

def helpers : List Helper :=
  let reps := [.word true, .word false] ++ wideReps
  let operators : List BinaryOp := [.add, .sub, .mul, .div, .mod, .and, .or, .xor, .shl, .shr]
  [.copy, .clear] ++ ([.mul, .div, .mod].flatMap fun op ↦ [.word op true, .word op false]) ++
    (wideReps.flatMap fun rep ↦
      [.unary .neg rep, .unary .not rep, .compare rep] ++ operators.map (Helper.binary · rep)) ++
    reps.flatMap fun source ↦ reps.map (.convert source)

def named (name : String) : Option Helper := helpers.find? (·.name == some name)

/-- What a helper leaves in the first register and in memory. -/
def replyOf (r0 r1 r2 : Word) (mem : Word → Word) : Helper → Reply
  | .word op signed => ⟨fun _ ↦ arithmetic.binary op (.word signed) [r0] [r1] 0, mem, .returns⟩
  | .unary op rep => written rep (arithmetic.unary op rep (wordsAt mem r1 rep.words))
  | .binary op rep =>
    written rep (arithmetic.binary op rep (wordsAt mem r1 rep.words) (wordsAt mem r2 (rightRep op rep).words))
  | .compare rep =>
    ⟨fun _ ↦ orderWord (arithmetic.order rep (wordsAt mem r0 rep.words) (wordsAt mem r1 rep.words)), mem, .returns⟩
  | .convert srcRep rep => written rep (arithmetic.cast srcRep rep (wordsAt mem r1 srcRep.words))
  | .copy => ⟨fun _ ↦ 0, putWords mem r0 r2.toNat fun i ↦ mem (r1 + .ofNat 16 i), .returns⟩
  | .clear => ⟨fun _ ↦ 0, putWords mem r0 r1.toNat fun _ ↦ 0, .returns⟩
where
  written (rep : Rep) (value : Nat → Word) : Reply := ⟨fun _ ↦ 0, putWords mem r0 rep.words value, .returns⟩

def reply : List MachineEvent → Reply
  | .called (.inl name) r0 r1 r2 _ mem :: _ =>
    ((named name).map (replyOf r0 r1 r2 mem)).getD ⟨fun _ ↦ 0, mem, .returns⟩
  | _ => ⟨fun _ ↦ 0, fun _ ↦ 0, .returns⟩

def surroundings : Surroundings where
  label l := .ofNat 16 l.index
  labelAt w := some ⟨w.toNat⟩
  symbol _ := 100
  symbolic := frame.displacement
  answer := reply

lemma frame_fits : frame.Fits surroundings where
  displacement sp d := by cases d <;> rfl
  mark := rfl

lemma wideName_cases {rep : Rep} {r : String} (h : Helper.wideName rep = some r) :
    rep = .long true ∨ rep = .long false ∨ rep = .float ∨ rep = .double := by
  cases rep with
  | long signed => cases signed <;> simp
  | float | double => simp
  | word | byte | block => cases h

lemma repName_cases {rep : Rep} {r : String} (h : Helper.repName rep = some r) :
    rep = .word true ∨ rep = .word false ∨ rep = .long true ∨ rep = .long false ∨ rep = .float ∨ rep = .double := by
  cases rep with
  | word signed => cases signed <;> simp
  | long | float | double => exact .inr (.inr (wideName_cases h))
  | byte | block => cases h

lemma mem_helpers (hname : h.name = some name) : h ∈ helpers := by
  cases h with
  | word op signed => cases op <;> cases hname <;> cases signed <;> decide
  | unary op rep =>
    cases op <;> obtain ⟨r, hr, -⟩ := map_eq_some_iff.mp hname <;>
      rcases wideName_cases hr with rfl | rfl | rfl | rfl <;> decide
  | binary op rep =>
    obtain ⟨o, ho, hrest⟩ := bind_eq_some_iff.mp hname
    obtain ⟨r, hr, -⟩ := bind_eq_some_iff.mp hrest
    rcases wideName_cases hr with rfl | rfl | rfl | rfl <;> cases op <;> cases ho <;> decide
  | compare rep =>
    obtain ⟨r, hr, -⟩ := map_eq_some_iff.mp hname
    rcases wideName_cases hr with rfl | rfl | rfl | rfl <;> decide
  | convert srcRep rep =>
    obtain ⟨q, hq, hrest⟩ := bind_eq_some_iff.mp hname
    obtain ⟨r, hr, -⟩ := bind_eq_some_iff.mp hrest
    rcases repName_cases hr with rfl | rfl | rfl | rfl | rfl | rfl <;>
      rcases repName_cases hq with rfl | rfl | rfl | rfl | rfl | rfl <;> decide
  | copy | clear => decide

/-- A name leads back to its helper. The two products of words have one name, and do the same. -/
lemma named_name : ∀ h ∈ helpers, h.name.bind named = some (if h = .word .mul false then .word .mul true else h) := by
  decide +kernel

lemma surroundings_helps : surroundings.Helps frame arithmetic := by
  intro h name hname _ r0 r1 r2 sp mem
  have hobeyed (h : Helper) : h.Obeyed frame arithmetic r0 r1 r2 sp mem (replyOf r0 r1 r2 mem h) := by
    cases h with
    | word | compare => exact ⟨⟨rfl, fun _ _ ↦ rfl⟩, rfl⟩
    | _ => exact ⟨rfl, fun _ _ ↦ rfl⟩
  have hnamed := named_name h (mem_helpers hname)
  rw [hname, Option.bind_some] at hnamed
  simp only [surroundings, reply, hnamed]
  split
  · rename_i heq
    rw [heq]
    refine ⟨(hobeyed (.word .mul true)).1, ?_⟩
    simp [replyOf, arithmetic, Rep.wordOf]
  · exact hobeyed h

def sum : PrimFunction where
  label := "sum"
  exported := true
  loc := default
  prims := [⟨.binary .add (.long true) (.slot ⟨0⟩ 0) (.load (.slot ⟨1⟩ 0)) (.imm 65530), none⟩]
  slots := #[⟨4, false⟩, ⟨4, false⟩]

def known (c : Cell) : Prop := c = .slot ⟨1⟩ 0 ∨ c = .slot ⟨1⟩ 1

def before : PrimState Word := .initial (fun _ ↦ 7) 50

def machine : MachineState := ⟨fun _ ↦ 50, fun _ ↦ 7⟩

lemma data_known (h : known c) : frame.Data surroundings c := by
  rcases h with rfl | rfl <;> exact ⟨by decide, by decide, by rintro s k heq; cases heq; rfl⟩

lemma represents_machine : frame.Represents surroundings 7 known before machine where
  mem _ _ := rfl
  data _ := data_known
  kept _ _ h := h
  sp := rfl
  room := ⟨fun h ↦ h, fun _ _ _ h ↦ h⟩
  mark := rfl
  records _ _ h := by cases h
  links _ _ h := by cases h

lemma spills_sum (h : sum.select = .ok g) : frame.Spills sum.slots g.slots := by
  cases h
  intro k _ hk hk'
  match k, hk, hk' with
  | 0, hk, _ => cases hk
  | 1, hk, _ => cases hk
  | 2, _, hk' =>
    cases hk'
    exact ⟨rfl, by decide⟩
  | _ + 3, _, hk' => cases hk'

lemma writable_sum : Writable frame surroundings arithmetic known before 2 (.slot ⟨0⟩ 0) where
  reads c hc := by cases hc
  data j hj := by
    have hj' : j = 0 ∨ j = 1 := by omega
    rcases hj' with rfl | rfl <;> exact ⟨by decide, by decide, by rintro s k heq; cases heq; rfl⟩
  kept _ _ h := h
  apart _ _ c hc := by cases hc

lemma admits_sum : (binary .add (.long true) (.slot ⟨0⟩ 0) (.load (.slot ⟨1⟩ 0)) (.imm 65530)).Admits
    frame surroundings arithmetic 7 known known
    (frame.world surroundings arithmetic (fun _ ↦ false) fun _ ↦ .throws (fun _ ↦ none) 0) [] [] before := by
  refine ⟨?_, ?_, writable_sum⟩
  · intro i hi c hc
    have hi' : i = 0 ∨ i = 1 := by
      have : i < 2 := hi
      omega
    have hcell : c = .slot ⟨1⟩ (0 + i) := List.mem_singleton.mp hc
    rcases hi' with rfl | rfl
    · exact .inl hcell
    · exact .inr hcell
  · intro i hi c hc
    cases hc

lemma binary_carry : arithmetic.binary .add (.long true) [7, 7] [65530, 0] 0 = 1 ∧
    arithmetic.binary .add (.long true) [7, 7] [65530, 0] 1 = 8 := by
  decide +kernel

/-- The code of a sum of long numbers, with a constant that has to be put into memory and a carry between the words. -/
theorem select_follows_sum :
    (∀ p ∈ sum.prims, p.value.isSelectable) ∧ ∃ g mpast ms, sum.select = .ok g ∧
      (g.code.process surroundings fun _ ↦ true).Reaches ⟨.running (g.code, machine), []⟩
        ⟨.running ([], ms), mpast⟩ ∧
      ms.mem (frame.slot ⟨0⟩) = 1 ∧ ms.mem (frame.slot ⟨0⟩ + 1) = 8 ∧ ms.mem (frame.slot ⟨1⟩) = 7 := by
  have hsum : ∀ p ∈ sum.prims, p.value.isSelectable := by decide
  obtain ⟨g, hg, hstart, -, hnode⟩ := PrimFunction.select_follows sum hsum
  obtain ⟨back, ⟨_, _, _, _, _, _, hback⟩, h⟩ := hnode _ _ _ hstart
  obtain ⟨mpast, m, hreach, ms, rfl, hrep⟩ := h frame surroundings arithmetic 7 known known
    (fun _ ↦ false) (fun _ ↦ .throws (fun _ ↦ none) 0) [] [] before 0 machine frame_fits
    surroundings_helps (spills_sum hg) (fun _ _ hc ↦ hc) represents_machine admits_sum
  cases hback
  refine ⟨hsum, g, mpast, ms, hg, hreach, ?_, ?_, ?_⟩
  · exact (hrep.mem (.slot ⟨0⟩ 0) ⟨.inr ⟨_, _, rfl, rfl, 0, by decide, rfl⟩, fun h ↦ h⟩).trans binary_carry.1
  · exact (hrep.mem (.slot ⟨0⟩ 1) ⟨.inr ⟨_, _, rfl, rfl, 1, by decide, rfl⟩, fun h ↦ h⟩).trans binary_carry.2
  · exact hrep.mem (.slot ⟨1⟩ 0) ⟨.inl (.inl rfl), fun h ↦ h⟩

end FrameMap.Example

end W16Compiler
