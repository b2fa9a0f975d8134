import W16Compiler.Machine.Knowledge
import W16Compiler.Proofs.Machine.Meaning
import W16Compiler.Proofs.Machine.RegSet

/-!
# Knowledge about registers is true

What the walk knows about a register holds whenever control comes by. A replaced instruction then does
just what the instruction before did, and a dropped one nothing, so that the code after the walk goes
through the very same states.
-/

namespace W16Compiler

open MachineState Instr Code Knowledge BitVec UnaryInstr

lemma ofInt_wrap32 (x : Int) : BitVec.ofInt 16 (wrap32 x) = BitVec.ofInt 16 x := by
  apply eq_of_toInt_eq
  have hdvd : 2 ^ 16 ∣ twoTo 32 := by decide
  simp only [toInt_ofInt, wrap32]
  exact Int.bmod_bmod_of_dvd hdvd

lemma ofInt_sub (x y : Int) : BitVec.ofInt 16 (x - y) = BitVec.ofInt 16 x - BitVec.ofInt 16 y := by
  rw [Int.sub_eq_add_neg, ofInt_add, ofInt_neg, BitVec.sub_eq_add_neg]

lemma ofInt_toInt_eval (op : AluOp) (a b : Int) :
    BitVec.ofInt 16 (op.eval a b) = op.apply (.ofInt 16 a) (.ofInt 16 b) := by
  rw [AluOp.eval, ofInt_toInt]

lemma ofInt_unary_eval (op : UnaryInstr) (a : Int) : BitVec.ofInt 16 (op.eval a) = op.apply (.ofInt 16 a) := by
  rw [eval, ofInt_toInt]

/-! ## What is known -/

def RegValue.Describes (sp w : Word) : RegValue → Prop
  | unknown => True
  | const value => w = .ofInt 16 value
  | stack offset => w = sp + .ofInt 16 offset
  | signedByte => UnaryInstr.sxb.apply w = w
  | unsignedByte => UnaryInstr.zxb.apply w = w

lemma RegValue.Describes.of_ne_stack {sp sp' w : Word} {v : RegValue} (h : v.Describes sp w)
    (hv : ∀ o, v ≠ .stack o) : v.Describes sp' w := by
  cases v with
  | stack o => exact (hv o rfl).elim
  | unknown => trivial
  | const c | signedByte | unsignedByte => exact h

namespace Knowledge

variable {k : Knowledge} {st : MachineState} {E : Surroundings} {entry : Label → Bool} {past : List MachineEvent}

def Holds (k : Knowledge) (st : MachineState) : Prop :=
  ∀ r, r ≠ .sp → (k.known r).Describes st.sp (st.regs r)

lemma nothing_holds (st : MachineState) : nothing.Holds st := fun _ _ ↦ trivial

lemma Holds.get (h : k.Holds st) (r : Reg) : (k.get r).Describes st.sp (st.regs r) := by
  rw [Knowledge.get]
  split
  · rename_i hr
    rw [hr]
    exact (BitVec.add_zero _).symm
  · exact h r ‹_›

variable {r rd ra : Reg} {i j : Instr} {v : RegValue} {c : Int}

lemma Holds.constant (h : k.Holds st) (hc : k.constant r = some c) : st.regs r = .ofInt 16 c := by
  have hget := h.get r
  rw [Knowledge.constant] at hc
  split at hc
  · rename_i hr
    cases hc
    rw [hr] at hget
    exact hget
  · cases hc

lemma Holds.stack (h : k.Holds st) (ho : k.get r = .stack o) : st.regs r = st.sp + .ofInt 16 o := by
  have hget := h.get r
  rw [ho] at hget
  exact hget

lemma constant_sp (k : Knowledge) : k.constant .sp = none := by simp [constant, get]

lemma get_of_ne (k : Knowledge) (h : r ≠ .sp) : k.get r = k.known r := if_neg h

/-! ## Steps -/

lemma Holds.stackLost (h : k.Holds st) (w : Word) : k.stackLost.Holds (st.set .sp w) := by
  intro r hr
  have hreg := h r hr
  rw [set_regs_of_ne st w hr]
  simp only [Knowledge.stackLost]
  split
  · trivial
  · rename_i v hv
    exact hreg.of_ne_stack hv

lemma Holds.stackMoved (h : k.Holds st) (by_ : Int) :
    (k.stackMoved by_).Holds (st.set .sp (st.sp + .ofInt 16 by_)) := by
  intro r hr
  have hreg := h r hr
  rw [set_regs_of_ne st _ hr]
  simp only [Knowledge.stackMoved]
  split
  · rename_i o ho
    rw [ho] at hreg
    change st.regs r = st.sp + BitVec.ofInt 16 o at hreg
    change st.regs r = (st.set .sp (st.sp + .ofInt 16 by_)).sp + BitVec.ofInt 16 (wrap32 (o - by_))
    rw [hreg, ofInt_wrap32, set_sp_self, ofInt_sub]
    grind
  · rename_i v hv
    exact hreg.of_ne_stack hv

lemma Holds.set (h : k.Holds st) (rd : Reg) (hv : v.Describes st.sp w) : (k.set rd v).Holds (st.set rd w) := by
  rw [Knowledge.set]
  split
  · rename_i hrd
    rw [hrd]
    exact h.stackLost w
  · rename_i hrd
    intro r hr
    rw [set_sp_of_ne st w hrd]
    simp only
    split
    · rename_i heq
      rw [heq, set_regs_self]
      exact hv
    · rw [set_regs_of_ne st w ‹_›]
      exact h r hr

lemma aluValue_describes {sp a b : Word} {va vb : RegValue} (op : AluOp) (ha : va.Describes sp a)
    (hb : vb.Describes sp b) : (aluValue op va vb).Describes sp (op.apply a b) := by
  unfold aluValue
  split
  · rw [ha, hb]
    exact (ofInt_toInt_eval op _ _).symm
  · rename_i o c
    change a = sp + .ofInt 16 o at ha
    change b = .ofInt 16 c at hb
    split
    · simp only [RegValue.Describes, AluOp.apply, ofInt_wrap32, ofInt_add, ha, hb]
      grind
    · simp only [RegValue.Describes, AluOp.apply, ofInt_wrap32, ofInt_sub, ha, hb]
      grind
    · trivial
  · trivial

lemma sxb_sxb (a : Word) : UnaryInstr.sxb.apply (UnaryInstr.sxb.apply a) = UnaryInstr.sxb.apply a := by
  simp only [apply]
  congr 1
  exact eq_of_getLsbD_eq fun i hi ↦ by simp [getLsbD_signExtend, hi]; omega

lemma zxb_zxb (a : Word) : UnaryInstr.zxb.apply (UnaryInstr.zxb.apply a) = UnaryInstr.zxb.apply a := by
  simp [apply, BitVec.and_assoc, BitVec.and_self]

lemma unaryValue_describes {sp a : Word} (op : UnaryInstr) (ha : v.Describes sp a) :
    (unaryValue op v).Describes sp (op.apply a) := by
  unfold unaryValue
  split
  · rw [ha]
    exact (ofInt_unary_eval op _).symm
  · split
    · exact ha
    · exact sxb_sxb a
    · exact zxb_zxb a
    · trivial

variable (h : k.Holds st)

include h

lemma Holds.step (hact : (i.act E entry past st).2 = .next st') : (k.step i).Holds st' := by
  cases i with
  | alu op rd ra rb =>
    cases hact
    simp only [step, value]
    split
    · rename_i hrd
      subst hrd
      split
      · rename_i c hc
        rw [h.constant hc]
        exact h.stackMoved c
      · exact h.stackLost _
    · exact h.set rd (aluValue_describes op (h.get ra) (h.get rb))
  | unary op rd ra =>
    cases hact
    exact h.set rd (unaryValue_describes op (h.get ra))
  | addImm rd ra imm =>
    cases hact
    have hvalue : ∀ v, imm.value = some v → st.address E ra imm = st.regs ra + .ofInt 16 v := by
      intro v hv
      cases imm with
      | num w => cases hv; rfl
      | _ => cases hv
    simp only [step, value]
    split
    · rename_i hrd
      subst hrd
      split
      · rename_i v hv
        rw [hvalue v hv]
        exact h.stackMoved v
      · exact h.stackLost _
    · split
      · rename_i c v hc hv
        refine h.set rd ?_
        rw [hvalue v hv, h.constant (c := c) (by simp [Knowledge.constant, hc])]
        exact (ofInt_toInt_eval .add c v).symm
      · rename_i o v ho hv
        refine h.set rd ?_
        rw [hvalue v hv, h.stack ho]
        simp [RegValue.Describes, ofInt_wrap32, ofInt_add, BitVec.add_assoc]
      · exact h.set rd trivial
  | loadImm rd value =>
    cases hact
    exact h.set rd (ofInt_unary_eval .mov value).symm
  | loadSymbol rd symbol offset | loadLabel rd l short | load rd base d =>
    cases hact
    exact h.set rd trivial
  | store rs base d =>
    cases hact
    exact h
  | branch cond ra rb target short | branchZero nonzero ra target short =>
    simp only [act] at hact
    split at hact <;> cases hact
    exact h
  | _ => exact nothing_holds st'

/-! ## Simpler instructions -/

attribute [local simp] Knowledge.simplify

lemma stackRelative_address
    (hd : k.stackRelative base d = some disp) : st.address E .sp disp = st.address E base (.num d) := by
  rw [stackRelative] at hd
  split at hd
  · cases hd
  · split at hd
    · rename_i o ho
      simp only at hd
      split at hd
      · cases hd
        simp [MachineState.address, Surroundings.displacement, ofInt_wrap32, ofInt_add,
          h.stack ho, MachineState.sp, BitVec.add_assoc]
      · cases hd
    · cases hd

omit h

/-- What another walk leaves, but for loads of constants that are known by then. -/
def Keeps (k : Knowledge) (i : Instr) : Prop := k.simplify i = .keep ∨ ∃ rd v, i = .loadImm rd v

/-- What can become of an instruction: a dropped one computes what a register is known to hold, and one that
is replaced computes the same value, or stores at the same place, and reads no other register. -/
inductive Rewritten (k : Knowledge) (i : Instr) : Simplified → Prop
  | keep : Rewritten k i .keep
  | drop {rd : Reg} (hi : i.result = some rd) (hsp : rd ≠ .sp) (hk : k.known rd ≠ .unknown)
    (hv : ∀ E st, k.Holds st → i.value E st = st.regs rd) : Rewritten k i .drop
  | replace {j : Instr} {rd : Reg} (hi : i.result = some rd) (hj : j.result = some rd)
    (hreads : ∀ r, j.reads.contains r → i.reads.contains r ∨ r = .sp)
    (hv : ∀ E st, k.Holds st → j.value E st = i.value E st) (hkeep : k.Keeps j) : Rewritten k i (.replace j)
  | store {rs base : Reg} {d disp : Disp} (hi : i = .store rs base d)
    (ha : ∀ E st, k.Holds st → st.address E .sp disp = st.address E base d) :
    Rewritten k i (.replace (.store rs .sp disp))

lemma Rewritten.const (hi : i.result = some rd)
    (hv : ∀ E st, k.Holds st → .ofInt 16 c = i.value E st) : Rewritten k i (.replace (.loadImm rd c)) :=
  .replace hi rfl (by simp [reads]) hv (.inr ⟨_, _, rfl⟩)

lemma simplifyAlu_rewritten (k : Knowledge) (op : AluOp) (hsp : rd ≠ .sp) (ra rb : Reg) :
    Rewritten k (.alu op rd ra rb) (k.simplifyAlu op rd ra rb) := by
  have hadd : ∀ v, k.constant ra = none →
      (∀ E st, k.Holds st → st.regs ra + .ofInt 16 v = (alu op rd ra rb).value E st) →
      Rewritten k (.alu op rd ra rb)
        (if fitsSigned v Frame.dispBits then .replace (.addImm rd ra (.num v)) else .keep) := by
    intro v ha hv
    split
    · refine .replace rfl rfl (fun r hr ↦ .inl ?_) hv (.inl (by simp [hsp, ha]))
      simp only [reads, RegSet.contains_ofList, List.mem_cons, List.not_mem_nil, or_false, decide_eq_true_eq] at hr ⊢
      exact .inl hr
    · exact .keep
  simp only [simplifyAlu]
  split
  · rename_i a b ha hb
    refine .const rfl fun E st h ↦ ?_
    rw [value, h.constant ha, h.constant hb, ofInt_toInt_eval]
  · rename_i c ha hc
    split
    · refine hadd c ha fun E st h ↦ ?_
      rw [value, h.constant hc, AluOp.apply]
    · refine hadd (-c) ha fun E st h ↦ ?_
      rw [value, h.constant hc, AluOp.apply, ofInt_neg, BitVec.sub_eq_add_neg]
    · exact .keep
  · exact .keep

lemma simplifyUnary_rewritten (k : Knowledge) (op : UnaryInstr) (hsp : rd ≠ .sp) (ra : Reg) :
    Rewritten k (.unary op rd ra) (k.simplifyUnary op rd ra) := by
  have hmoved : ∀ v, k.get ra = v → v ≠ .unknown → (∀ c, v ≠ .const c) → (∀ sp w, v.Describes sp w → op.apply w = w) →
      Rewritten k (.unary op rd ra) (if rd = ra then .drop else .replace (.unary .mov rd ra)) := by
    intro v hv hk hc hsame
    have hvalue : ∀ E st, k.Holds st → (unary op rd ra).value E st = st.regs ra :=
      fun E st h ↦ hsame _ _ (hv ▸ h.get ra)
    split
    · rename_i hr
      subst hr
      exact .drop rfl hsp (by rwa [← k.get_of_ne hsp, hv]) hvalue
    · refine .replace rfl rfl (fun r hr ↦ .inl hr) (fun E st h ↦ (hvalue E st h).symm) (.inl ?_)
      cases v <;> simp_all [simplifyUnary]
  simp only [simplifyUnary]
  split
  · rename_i c hc
    refine .const rfl fun E st h ↦ ?_
    rw [value, h.constant (c := c) (by simp [constant, hc]), ofInt_unary_eval]
  · rename_i hv
    exact hmoved _ hv (by simp) (by simp) fun _ _ h ↦ h
  · rename_i hv
    exact hmoved _ hv (by simp) (by simp) fun _ _ h ↦ h
  · exact .keep

lemma simplify_rewritten (k : Knowledge) (i : Instr) : Rewritten k i (k.simplify i) := by
  cases i with
  | alu op rd ra rb =>
    simp only [simplify]
    split
    · exact .keep
    · exact simplifyAlu_rewritten k op ‹_› ra rb
  | unary op rd ra =>
    simp only [simplify]
    split
    · exact .keep
    · exact simplifyUnary_rewritten k op ‹_› ra
  | addImm rd ra imm =>
    cases imm with
    | num v =>
      simp only [simplify]
      split
      · exact .keep
      · split
        · rename_i c hc
          refine .const rfl fun E st h ↦ ?_
          rw [value, MachineState.address, h.constant hc]
          exact ofInt_toInt_eval .add c v
        · exact .keep
    | _ => exact .keep
  | loadImm rd value =>
    simp only [simplify]
    split
    · rename_i hc
      have hsp : rd ≠ .sp := by
        rintro rfl
        rw [constant_sp] at hc
        cases hc
      refine .drop rfl hsp (fun hk ↦ ?_) fun E st h ↦ ?_
      · simp [constant, k.get_of_ne hsp, hk] at hc
      · rw [h.constant hc]
        exact (ofInt_unary_eval .mov value).symm
    · exact .keep
  | load rd base d =>
    cases d with
    | num d =>
      simp only [simplify]
      split
      · rename_i disp hd
        refine .replace rfl rfl (fun r hr ↦ .inr (by simpa [reads] using hr)) (fun E st h ↦ ?_) (.inl ?_)
        · simp [value, stackRelative_address h hd]
        · cases disp <;> simp [stackRelative]
      · exact .keep
    | _ => exact .keep
  | store rs base d =>
    cases d with
    | num d =>
      simp only [simplify]
      split
      · exact .store rfl fun E st h ↦ stackRelative_address h ‹_›
      · exact .keep
    | _ => exact .keep
  | _ => exact .keep

lemma simplify_replace (h : k.Holds st) (hj : k.simplify i = .replace j) (E : Surroundings)
    (entry : Label → Bool) (past : List MachineEvent) : j.act E entry past st = i.act E entry past st := by
  have hr := hj ▸ simplify_rewritten k i
  cases hr with
  | replace hi hj _ hv => rw [act_of_result hj, act_of_result hi, hv E st h]
  | store hi ha => simp [hi, act, ha E st h]

lemma simplify_drop (h : k.Holds st) (hi : k.simplify i = .drop) : i.act E entry past st = (none, .next st) := by
  have hr := hi ▸ simplify_rewritten k i
  cases hr with
  | drop hi _ _ hv => rw [act_of_result hi, set_eq_self (hv E st h)]

/-! ## Walks -/

lemma walk_cons_of_label {i : Item Instr} (hi : i.value = .label l liveIn)
    (k : Knowledge) (rest : Code) : k.walk (i :: rest) = i :: nothing.walk rest := by
  simp [walk, hi, step]

lemma seek_walk (l : Label) (k : Knowledge) (code : Code) :
    seek l (k.walk code) = (code.seek l).map nothing.walk := by
  induction code generalizing k with
  | nil => rfl
  | cons i rest ih =>
    rw [seek_cons]
    by_cases hl : ∃ liveIn, i.value = .label l liveIn
    · obtain ⟨liveIn, hl⟩ := hl
      have hd : i.value.definedLabel = some l := by rw [hl, definedLabel]
      rw [walk_cons_of_label hl, seek_cons, if_pos hd, if_pos hd, ih]
      cases seek l rest with
      | some found => rfl
      | none => exact congrArg some (walk_cons_of_label hl nothing rest).symm
    · have hd : i.value.definedLabel ≠ some l := by
        intro hd
        cases hv : i.value with
        | label m liveIn =>
          rw [hv] at hd
          cases hd
          exact hl ⟨liveIn, hv⟩
        | _ =>
          rw [hv] at hd
          cases hd
      rw [if_neg hd, Option.or_none, walk]
      have hr := simplify_rewritten k i.value
      cases hs : k.simplify i.value with
      | keep => rw [seek_cons, if_neg hd, Option.or_none, ih]
      | drop => exact ih k
      | replace j =>
        rw [hs] at hr
        have hj : j.definedLabel ≠ some l := by
          cases hr with
          | replace hi hj => simp [definedLabel_of_result hj]
          | store hi => simp [definedLabel]
        rw [seek_cons, if_neg hj, Option.or_none, ih]

end Knowledge

/-- Two runs are at the same place, one of them behind a walk, in the same state. -/
structure Walked (past : List MachineEvent) (a b : Code × MachineState) : Prop where
  state : a.2 = b.2
  rest : ∃ k : Knowledge, k.Holds a.2 ∧ b.1 = k.walk a.1

lemma Code.simplify_alike (E : Surroundings) (entry : Label → Bool) (code : Code) (st : MachineState) :
    (code.process E entry).Alike (code.simplify.process E entry) (code, st) (code.simplify, st) := by
  have hfollow : ∀ (past : List MachineEvent) (rest rest' : Code) (m : MachineMove),
      (∀ st, m = .next st → Walked past (rest, st) (rest', st)) →
      Process.Matches (Walked past) (code.follow rest m) (code.simplify.follow rest' m) := by
    intro past rest _ m hnext
    cases m with
    | next st => exact .running (hnext st rfl)
    | finish o => exact .ended o
    | goto l st =>
      simp only [follow, simplify, seek_walk]
      cases code.seek l with
      | none => exact .ended _
      | some found => exact .running ⟨rfl, _, nothing_holds st, rfl⟩
  have hsim : Process.Simulation (code.process E entry) (code.simplify.process E entry) (·.1.length)
      Walked := by
    constructor
    rintro past ⟨rest, st⟩ ⟨_, st'⟩ ⟨rfl, k, hk, rfl⟩
    cases rest with
    | nil => exact .inr ⟨rfl, .ended _⟩
    | cons i rest =>
      cases hs : k.simplify i.value with
      | keep =>
        simp only [walk, hs, process]
        exact .inr ⟨trivial, hfollow _ _ _ _ fun st' hst ↦ ⟨rfl, _, hk.step hst, rfl⟩⟩
      | drop =>
        simp only [walk, hs, process, simplify_drop hk hs, follow]
        exact .inl ⟨(rest, st), rfl, ⟨rfl, k, hk, rfl⟩, Nat.lt_succ_self _⟩
      | replace j =>
        simp only [walk, hs, process]
        rw [← simplify_replace hk hs E entry past]
        exact .inr ⟨rfl, hfollow _ _ _ _ fun st' hst ↦ ⟨rfl, _, hk.step hst, rfl⟩⟩
  exact hsim.alike ⟨rfl, _, nothing_holds st, rfl⟩

end W16Compiler
