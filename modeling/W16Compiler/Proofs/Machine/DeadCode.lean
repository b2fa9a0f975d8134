import W16Compiler.Proofs.Machine.Liveness

/-!
# Removal of dead instructions

Two runs, one of them without the dead instructions, agree on memory, on the stack pointer and on every
register that is needed where they are. A dead instruction changes none of these. The others keep them,
since an instruction that both runs take reads only registers on which they agree. Removing dead
instructions makes no register live, so that what labels declare stays right.
-/

namespace W16Compiler

open List MachineState Instr Code Bool

/-! ## States that agree -/

/-- The same memory and stack pointer, and the same contents of some registers. -/
structure MachineState.Agree (S : Reg → Prop) (st st' : MachineState) : Prop where
  mem : st.mem = st'.mem
  sp : st.sp = st'.sp
  regs : ∀ r, S r → st.regs r = st'.regs r

inductive MachineMove.Agree (S : Reg → Prop) : MachineMove → MachineMove → Prop
  | next {st st' : MachineState} (h : st.Agree S st') : Agree S (.next st) (.next st')
  | goto (l : Label) {st st' : MachineState} (h : st.Agree S st') : Agree S (.goto l st) (.goto l st')
  | finish (o : MachineOutcome) : Agree S (.finish o) (.finish o)

namespace MachineState.Agree

variable {S T : Reg → Prop} {st st' : MachineState}

lemma mono (h : st.Agree T st') (hS : ∀ r, S r → T r) : st.Agree S st' := ⟨h.mem, h.sp, fun r hr ↦ h.regs r (hS r hr)⟩

variable (h : st.Agree S st') {i : Instr}

include h

lemma address (E : Surroundings) (hb : S base) (d : Disp) : st.address E base d = st'.address E base d := by
  rw [MachineState.address, MachineState.address, h.regs base hb, h.sp]

attribute [local simp] reads

lemma value (E : Surroundings) (hr : ∀ r, i.reads.contains r → S r) : i.value E st = i.value E st' := by
  have hreg : ∀ r, i.reads.contains r → st.regs r = st'.regs r := fun r hc ↦ h.regs r (hr r hc)
  cases i with
  | alu op rd ra rb =>
    simp only [Instr.value]
    rw [hreg ra (by simp), hreg rb (by simp)]
  | unary op rd ra =>
    simp only [Instr.value]
    rw [hreg ra (by simp)]
  | addImm rd ra imm => exact h.address E (hr ra (by simp)) imm
  | load rd base d =>
    simp only [Instr.value]
    rw [h.address E (hr base (by simp)) d, h.mem]
  | _ => rfl

lemma set (rd : Reg) (v : Word) : (st.set rd v).Agree (fun r ↦ S r ∨ r = rd) (st'.set rd v) where
  mem := h.mem
  sp := by
    by_cases hrd : rd = .sp
    · rw [hrd, set_sp_self, set_sp_self]
    · rw [set_sp_of_ne st v hrd, set_sp_of_ne st' v hrd, h.sp]
  regs r hr := by
    by_cases hrd : r = rd
    · rw [hrd, set_regs_self, set_regs_self]
    · rw [set_regs_of_ne st v hrd, set_regs_of_ne st' v hrd]
      exact h.regs r (hr.resolve_right hrd)

omit h in
lemma set_left (h : st.Agree T st') (v : Word) (hsp : rd ≠ .sp)
    (hS : ∀ r, S r → T r ∧ r ≠ rd) : (st.set rd v).Agree S st' where
  mem := h.mem
  sp := by rw [set_sp_of_ne st v hsp, h.sp]
  regs r hr := by
    obtain ⟨hT, hne⟩ := hS r hr
    rw [MachineState.set_regs_of_ne st v hne]
    exact h.regs r hT

lemma callEvent (target : String ⊕ Word)
    (hr : ∀ r ∈ [Reg.r0, Reg.r1, Reg.r2], S r) : st.callEvent target = st'.callEvent target := by
  rw [MachineState.callEvent, MachineState.callEvent, h.regs .r0 (hr _ (by simp)),
    h.regs .r1 (hr _ (by simp)), h.regs .r2 (hr _ (by simp)), h.sp, h.mem]

lemma afterCall (T : Reg → Prop) (reply : Reply) :
    MachineMove.Agree T (st.afterCall reply) (st'.afterCall reply) := by
  have hreg : ∀ (w : Word), (MachineState.mk (Function.update reply.regs .sp w) reply.mem).Agree T
      (MachineState.mk (Function.update reply.regs .sp w) reply.mem) := fun w ↦ ⟨rfl, rfl, fun _ _ ↦ rfl⟩
  rw [MachineState.afterCall, MachineState.afterCall]
  cases reply.exit with
  | returns =>
    simp only [h.sp]
    exact .next (hreg _)
  | caught l sp => exact .goto l (hreg sp)
  | unwinds => exact .finish _

lemma act (hr : ∀ r, i.reads.contains r → S r) (E : Surroundings) (entry : Label → Bool) (past : List MachineEvent) :
    (i.act E entry past st).1 = (i.act E entry past st').1 ∧
      MachineMove.Agree (fun r ↦ S r ∨ i.overwrites.contains r) (i.act E entry past st).2
        (i.act E entry past st').2 := by
  have hreg : ∀ r, i.reads.contains r → st.regs r = st'.regs r := fun r hc ↦ h.regs r (hr r hc)
  obtain hres | ⟨rd, hrd⟩ := i.result.eq_none_or_eq_some
  swap
  · rw [act_of_result hrd, act_of_result hrd, h.value E hr, overwrites_of_result hrd]
    exact ⟨rfl, .next ((h.set rd _).mono fun r hr ↦ by simpa using hr)⟩
  have hnone : i.overwrites = .empty → st.Agree (fun r ↦ S r ∨ i.overwrites.contains r) st' := by
    intro hw
    exact h.mono fun r hr ↦ by simpa [hw] using hr
  cases i with
  | alu | unary | addImm | loadImm | loadSymbol | loadLabel | load => cases hres
  | label l liveIn => exact ⟨rfl, .next (hnone rfl)⟩
  | store rs base d =>
    simp only [Instr.act]
    rw [h.address E (hr base (by simp)) d, hreg rs (by simp)]
    exact ⟨rfl, .next ⟨by rw [h.mem], h.sp, (hnone rfl).regs⟩⟩
  | branch cond ra rb target short =>
    simp only [Instr.act]
    rw [hreg ra (by simp), hreg rb (by simp)]
    refine ⟨trivial, ?_⟩
    split
    · exact .goto target (hnone rfl)
    · exact .next (hnone rfl)
  | branchZero nonzero ra target short =>
    simp only [Instr.act]
    rw [hreg ra (by simp)]
    refine ⟨trivial, ?_⟩
    split
    · exact .goto target (hnone rfl)
    · exact .next (hnone rfl)
  | jump target short => exact ⟨rfl, .goto target (hnone rfl)⟩
  | jumpSymbol symbol =>
    have hregs : st.regs = st'.regs := by
      funext r
      by_cases hsp : r = .sp
      · rw [hsp]
        exact h.sp
      · exact hreg r (by simp [reads, RegSet.contains_callerSaved, hsp])
    simp only [Instr.act, hregs, h.mem]
    exact ⟨trivial, .finish _⟩
  | call symbol =>
    simp only [Instr.act]
    rw [h.callEvent (.inl symbol) fun r hm ↦ hr r (by simpa [reads] using hm)]
    exact ⟨rfl, h.afterCall _ _⟩
  | callReg ra =>
    simp only [Instr.act]
    rw [hreg ra (by simp), h.callEvent _ fun r hm ↦ hr r (by simp at hm ⊢; exact .inr hm)]
    exact ⟨rfl, h.afterCall _ _⟩
  | jumpReg ra targets =>
    simp only [Instr.act]
    rw [hreg ra (by simp), hreg .r0 (by simp), h.sp, h.mem]
    refine ⟨trivial, ?_⟩
    split
    · split
      · exact .goto _ (hnone rfl)
      · exact .finish _
    · exact .finish _
  | ret wide =>
    have hr0 : st.regs .r0 = st'.regs .r0 := hreg .r0 (by cases wide <;> simp [reads])
    have hr1 : (if wide then some (st.regs .r1) else none) = if wide then some (st'.regs .r1) else none := by
      cases wide with
      | false => rfl
      | true => exact congrArg some (hreg .r1 (by simp))
    simp only [Instr.act, hr0, hr1, h.sp, h.mem]
    exact ⟨trivial, .finish _⟩

end MachineState.Agree

/-- Control goes on behind an instruction only where the flow of the code says so. -/
lemma Instr.fallsThrough_of_act {i : Instr} {entry : Label → Bool}
    {st st1 : MachineState} (h : (i.act E entry past st).2 = .next st1) : i.fallsThrough := by
  cases i with
  | jump target short => cases h
  | jumpSymbol symbol => cases h
  | jumpReg ra targets =>
    simp only [act] at h
    split at h
    · split at h <;> cases h
    · cases h
  | ret wide => cases h
  | _ => rfl

/-- Where a jump may go: to a label that the instruction names, to one that an exception enters, or
from a call that changes all registers. -/
lemma Instr.goto_of_act {i : Instr} {entry : Label → Bool}
    {st st1 : MachineState} {l : Label} (h : (i.act E entry past st).2 = .goto l st1) :
    l ∈ i.successors ∨ (entry l ∧ i.reads.contains .r0) ∨ ∀ r, r ≠ .sp → i.overwrites.contains r := by
  cases i with
  | branch cond ra rb target short | branchZero nonzero ra target short =>
    simp only [act] at h
    split at h <;> cases h
    exact .inl (mem_singleton_self l)
  | jump target short =>
    cases h
    exact .inl (mem_singleton_self l)
  | jumpReg ra targets =>
    simp only [act] at h
    split at h
    · split at h
      · rename_i hl
        cases h
        rcases or_eq_true_iff.mp hl with hl | hl
        · exact .inl (by simpa [successors] using hl)
        · exact .inr (.inl ⟨hl, by simp [reads]⟩)
      · cases h
    · cases h
  | call symbol | callReg ra =>
    exact .inr (.inr fun r hr ↦ by simp [overwrites, writes, RegSet.contains_callerSaved, hr])
  | _ => cases h

variable {code : Code} {entry : Label → Bool}

namespace Liveness

variable {rest found rest' : Code} {live : LabelLive} {out : RegSet}

def strip (live : LabelLive) : Code → Code
  | [] => []
  | i :: rest => if isDead i.value (behind live i rest) then strip live rest else i :: strip live rest

lemma removeOnce_eq_strip (code : Code) : removeOnce code = strip (atAllLabels code) code := by
  have hstrip : ∀ (live : LabelLive) (rest : Code),
      ((rest.zip ((sweep live rest).map (·.2))).filter fun x ↦ !isDead x.1.value x.2).map (·.1) = strip live rest := by
    intro live rest
    induction rest with
    | nil => rfl
    | cons i rest ih =>
      rw [sweep_cons, map_cons, zip_cons_cons, filter_cons, strip]
      cases hdead : isDead i.value (behind live i rest) <;> simpa [hdead] using ih
  exact hstrip _ _

lemma isDead_result {i : Instr} (h : isDead i out) :
    ∃ rd, i.result = some rd ∧ rd ≠ .sp ∧ i.overwrites = .ofList [rd] ∧ out.contains rd = false := by
  rw [isDead, and_eq_true, isRemovable] at h
  obtain ⟨hrem, hdead⟩ := h
  cases hr : i.result with
  | none => simp [hr] at hrem
  | some rd =>
    have hsp : rd ≠ .sp := by simpa [hr] using hrem
    have hw := overwrites_of_result hr
    have hrd : i.writes.contains rd := i.overwrites_subset_writes rd (by simp [hw])
    exact ⟨rd, rfl, hsp, hw, RegSet.intersects_eq_false_iff.mp (by simpa using hdead) rd hrd⟩

lemma isDead_mono {i : Instr} (h : out.Subset out') (hdead : isDead i out') : isDead i out := by
  simp only [isDead, and_eq_true, not_eq_true', RegSet.intersects_eq_false_iff] at hdead ⊢
  refine hdead.imp_right fun hdead r hr ↦ eq_false_iff.mpr fun hout ↦ ?_
  exact eq_false_iff.mp (hdead r hr) (h r hout)

variable {l : Label} {liveIn : RegSet} {i : Item Instr} {r : Reg}

lemma isDead_label {i : Instr} (h : i = .label l liveIn) : isDead i out = false := by
  rw [h]
  rfl

lemma strip_cons_of_label (h : i.value = .label l liveIn) (rest : Code) :
    strip live (i :: rest) = i :: strip live rest := by
  rw [strip, isDead_label h]
  rfl

lemma seek_strip (l : Label) (live : LabelLive) (code : Code) :
    seek l (strip live code) = (code.seek l).map (strip live) := by
  induction code with
  | nil => rfl
  | cons i rest ih =>
    rw [strip, seek_cons]
    cases hdead : isDead i.value (behind live i rest) with
    | true =>
      obtain ⟨_, hr, -⟩ := isDead_result hdead
      simp [ih, definedLabel_of_result hr]
    | false =>
      rw [if_neg (by simp), seek_cons, ih]
      cases seek l rest with
      | some found => rfl
      | none => by_cases hl : i.value.definedLabel = some l <;> simp [hl, strip, hdead]

/-! ## Runs -/

lemma Needed.of_next (hf : i.value.fallsThrough) (hg : rest.Guarded true) (h : Needed live r rest) :
    Needed live r (i :: rest) ∨ i.value.overwrites.contains r := by
  cases hw : i.value.overwrites.contains r with
  | true => exact .inr rfl
  | false => exact .inl (.inr ⟨contains_behind.mpr (.inl ⟨hf, h.atStart_of_guarded hg⟩), hw⟩)

lemma Needed.of_jump (hd : code.Declared entry) (hi : i ∈ code) (hl : l ∈ i.value.successors)
    (hs : code.seek l = some found) (h : Needed (atAllLabels code) r found) :
    Needed (atAllLabels code) r (i :: rest) ∨ i.value.overwrites.contains r := by
  obtain ⟨j, liveIn, tail, rfl, hj, hdef⟩ := defines_of_seek hs
  have hempty : liveIn = .empty := hd.jumps i hi l hl liveIn tail hdef
  have hlive : (Liveness.atStart (atAllLabels code) (j :: tail)).contains r := by
    refine h.atStart fun j' _ l' _ heq hj' ↦ ?_
    cases heq
    rw [hj] at hj'
    cases hj'
    exact hempty
  cases hw : i.value.overwrites.contains r with
  | true => exact .inr rfl
  | false =>
    refine .inl (.inr ⟨contains_behind.mpr (.inr ⟨l, hl, ?_⟩), hw⟩)
    rw [lookup_atAllLabels, hs]
    exact hlive

lemma Needed.of_caught (hd : code.Declared entry) (hl : entry l) (hs : code.seek l = some found)
    (h : Needed (atAllLabels code) r found) : r = .sp ∨ r = .r0 := by
  obtain ⟨j, liveIn, tail, rfl, hj, hdef⟩ := defines_of_seek hs
  have hlive : LiveAt code r tail := by
    rcases h with h | ⟨h, -⟩
    · simp [hj, reads] at h
    · rw [contains_behind] at h
      rcases h with ⟨-, h⟩ | ⟨m, hm, -⟩
      · exact (atAllLabels_sound code).atStart h
      · simp [hj, successors] at hm
  exact (hd.reads l liveIn tail hl hdef r hlive).imp_right (hd.passes l liveIn tail hl hdef r)

/-- Two runs are at the same place, one of them in code without dead instructions, in states that
agree on what is needed there. -/
structure Stripped (code : Code) (past : List MachineEvent) (a b : Code × MachineState) : Prop where
  here : a.1 <:+ code
  rest : b.1 = strip (atAllLabels code) a.1
  state : a.2.Agree (Needed (atAllLabels code) · a.1) b.2

lemma Stripped.follow (hd : code.Declared entry) {st : MachineState} (hs : i :: rest <:+ code)
    (hm : MachineMove.Agree (fun r ↦ Needed (atAllLabels code) r (i :: rest) ∨ i.value.overwrites.contains r)
      (i.value.act E entry past st).2 m') :
    Process.Matches (Stripped code past') (code.follow rest (i.value.act E entry past st).2)
      ((strip (atAllLabels code) code).follow (strip (atAllLabels code) rest) m') := by
  obtain ⟨b, hg⟩ := hd.falls.of_suffix hs
  cases hact : (i.value.act E entry past st).2 with
  | next st1 =>
    rw [hact] at hm
    cases hm with
    | next h =>
      have hf := fallsThrough_of_act hact
      have hnext : rest.Guarded true := hf ▸ hg.2
      exact .running ⟨(suffix_cons i rest).trans hs, rfl, h.mono fun r hr ↦ hr.of_next hf hnext⟩
  | goto l st1 =>
    rw [hact] at hm
    cases hm with
    | goto _ h =>
      simp only [Code.follow, seek_strip]
      cases hseek : code.seek l with
      | none => exact .ended _
      | some found =>
        refine .running ⟨seek_suffix hseek, rfl, h.mem, h.sp, fun r hr ↦ ?_⟩
        rcases goto_of_act hact with hl | ⟨hl, h0⟩ | hall
        · exact h.regs r (hr.of_jump hd (hs.subset mem_cons_self) hl hseek)
        · rcases hr.of_caught hd hl hseek with rfl | rfl
          · exact h.sp
          · exact h.regs .r0 (.inl (.inl h0))
        · by_cases hsp : r = .sp
          · rw [hsp]
            exact h.sp
          · exact h.regs r (.inr (hall r hsp))
  | finish o =>
    rw [hact] at hm
    cases hm with
    | finish => exact .ended o

lemma removeOnce_alike (E : Surroundings) (hd : code.Declared entry) (st : MachineState) :
    (code.process E entry).Alike ((removeOnce code).process E entry) (code, st) (removeOnce code, st) := by
  rw [removeOnce_eq_strip]
  have hsim : Process.Simulation (code.process E entry)
      ((strip (atAllLabels code) code).process E entry) (·.1.length) (Stripped code) := by
    constructor
    rintro past ⟨rest, st⟩ ⟨_, _⟩ ⟨hs, rfl, hst⟩
    cases rest with
    | nil => exact .inr ⟨rfl, .ended _⟩
    | cons i rest =>
      cases hdead : isDead i.value (behind (atAllLabels code) i rest) with
      | true =>
        obtain ⟨rd, hr, hsp, hw, hout⟩ := isDead_result hdead
        have hact := act_of_result hr E entry past st
        have hf := fallsThrough_of_act (congrArg Prod.snd hact)
        obtain ⟨b, hg⟩ := hd.falls.of_suffix hs
        have hnext : Guarded true rest := hf ▸ hg.2
        refine .inl ⟨(rest, st.set rd (i.value.value E st)), ?_, ?_, Nat.lt_succ_self _⟩
        · simp [process, hact, follow]
        · refine ⟨(suffix_cons i rest).trans hs, by simp [strip, hdead], ?_⟩
          refine hst.set_left _ hsp fun r hneed ↦ ?_
          have hbehind : (behind (atAllLabels code) i rest).contains r :=
            contains_behind.mpr (.inl ⟨hf, hneed.atStart_of_guarded hnext⟩)
          have hne : r ≠ rd := by
            rintro rfl
            rw [hout] at hbehind
            cases hbehind
          exact ⟨.inr ⟨hbehind, by simp [hw, hne]⟩, hne⟩
      | false =>
        obtain ⟨hev, hm⟩ := hst.act (fun r hr ↦ .inl hr) E entry past
        simp only [strip, hdead, process]
        exact .inr ⟨hev, Stripped.follow hd hs hm⟩
  exact hsim.alike ⟨suffix_rfl, rfl, rfl, rfl, fun _ _ ↦ rfl⟩

/-! ## What labels declare -/

lemma guarded_strip (h : code.Guarded b) (live : LabelLive) : (strip live code).Guarded b := by
  induction code generalizing b with
  | nil => trivial
  | cons i rest ih =>
    rw [strip]
    split
    · rename_i hdead
      obtain ⟨rd, hr, -⟩ := isDead_result hdead
      have hf : i.value.fallsThrough := fallsThrough_of_result hr
      have hrest : Guarded true rest := hf ▸ h.2
      exact ih hrest.of_true
    · exact ⟨h.1, ih h.2⟩

lemma strip_sublist (live : LabelLive) (code : Code) : (strip live code).Sublist code := by
  induction code with
  | nil => exact .slnil
  | cons j rest ih =>
    rw [strip]
    split
    · exact ih.cons j
    · exact ih.cons_cons j

lemma defines_of_strip (h : (strip live code).Defines l liveIn rest') :
    ∃ rest, code.Defines l liveIn rest ∧ rest' = strip live rest :=
  h.of_map (seek_strip l live code) fun _ rest _ hi ↦ strip_cons_of_label hi rest

variable (hd : code.Declared entry)

include hd

lemma liveAt_of_dead (hs : i :: rest <:+ code)
    (hdead : isDead i.value (behind (atAllLabels code) i rest)) (h : LiveAt code r rest) :
    LiveAt code r (i :: rest) := by
  obtain ⟨rd, hr, -, hw, hout⟩ := isDead_result hdead
  have hf : i.value.fallsThrough := fallsThrough_of_result hr
  obtain ⟨b, hg⟩ := hd.falls.of_suffix hs
  have hnext : rest.Guarded true := hf ▸ hg.2
  have hneed := needed_of_liveAt hd h ((suffix_cons i rest).trans hs)
  have hne : r ≠ rd := by
    rintro rfl
    have hbehind := contains_behind.mpr (.inl ⟨hf, hneed.atStart_of_guarded hnext⟩)
    rw [hout] at hbehind
    cases hbehind
  exact .falls hf (by simp [hw, hne]) h

lemma strip_eq_cons (hs : rest <:+ code) (h : j :: tail' = strip (atAllLabels code) rest) :
    ∃ tail, j :: tail <:+ code ∧ tail' = strip (atAllLabels code) tail ∧
      ∀ r, LiveAt code r (j :: tail) → LiveAt code r rest := by
  induction rest with
  | nil => cases h
  | cons i rest ih =>
    rw [strip] at h
    split at h
    · rename_i hdead
      obtain ⟨tail, htail, rfl, hlive⟩ := ih ((suffix_cons i rest).trans hs) h
      exact ⟨tail, htail, rfl, fun r hr ↦ liveAt_of_dead hd hs hdead (hlive r hr)⟩
    · cases h
      exact ⟨rest, hs, rfl, fun _ hr ↦ hr⟩

lemma liveAt_of_strip (h : LiveAt (strip (atAllLabels code) code) r rest') (hs : rest <:+ code)
    (hrest : rest' = strip (atAllLabels code) rest) : LiveAt code r rest := by
  induction h generalizing rest with
  | reads h =>
    obtain ⟨tail, -, -, hlive⟩ := strip_eq_cons hd hs hrest
    exact hlive r (.reads h)
  | falls hf hw h ih =>
    obtain ⟨tail, htail, heq, hlive⟩ := strip_eq_cons hd hs hrest
    exact hlive r (.falls hf hw (ih ((suffix_cons _ tail).trans htail) heq))
  | jumps hl hw hseek h ih =>
    obtain ⟨_, -, -, hlive⟩ := strip_eq_cons hd hs hrest
    rw [seek_strip] at hseek
    obtain ⟨_, hfound, heq⟩ := Option.map_eq_some_iff.mp hseek
    exact hlive r (.jumps hl hw hfound (ih (seek_suffix hfound) heq.symm))

lemma removeOnce_declared : (removeOnce code).Declared entry := by
  rw [removeOnce_eq_strip]
  constructor
  case falls => exact guarded_strip hd.falls _
  case jumps =>
    intro i hi l hl liveIn _ hdef
    obtain ⟨rest, hdef, -⟩ := defines_of_strip hdef
    exact hd.jumps i ((strip_sublist _ code).subset hi) l hl liveIn rest hdef
  case reads =>
    intro l liveIn _ hl hstrip r hlive
    obtain ⟨rest, hdef, rfl⟩ := defines_of_strip hstrip
    exact hd.reads l liveIn rest hl hdef r (liveAt_of_strip hd hlive hdef.suffix rfl)
  case passes =>
    intro l liveIn _ hl hdef
    obtain ⟨rest, hdef, -⟩ := defines_of_strip hdef
    exact hd.passes l liveIn rest hl hdef

end Liveness

namespace Code

lemma removeDead_declared (hd : code.Declared entry) : code.removeDead.Declared entry := by
  fun_induction removeDead code with
  | case1 code next hlt ih => exact ih (Liveness.removeOnce_declared hd)
  | case2 code next hlt => exact hd

lemma removeDead_alike (E : Surroundings) (hd : code.Declared entry) (st : MachineState) :
    (code.process E entry).Alike (code.removeDead.process E entry) (code, st) (code.removeDead, st) := by
  fun_induction removeDead code with
  | case1 code next hlt ih => exact (Liveness.removeOnce_alike E hd st).trans (ih (Liveness.removeOnce_declared hd))
  | case2 code next hlt => exact .refl _ _

end Code

end W16Compiler
