import W16Compiler.Proofs.Select.Results

/-!
# Branches and conversions

A comparison branches on two words, or on the result of a helper and zero; the operands change places
where the machine has no condition for them. A test puts all words of a value together.

Between integers the low word is extended again or the sign fills the high word. Conversions from and
to floating numbers are done by helpers, which know bytes only as words, so that a byte is extended once
more behind the call.
-/

namespace W16Compiler.Select

open List MachineState Prim Rep

variable {F : FrameMap} {E : Surroundings} {A : Arithmetic} {top : Word} {live : Cell → Prop} {st : PrimState Word}
  {ms ms' : MachineState} {dst : Place} {value : Nat → Word} {rep srcRep : Rep} {src : Operand}
  {slots slots' : Array Slot} {code : Instrs}

/-- Control goes to the label if the condition holds, and on otherwise, and the state is the same. -/
def Branches (F : FrameMap) (E : Surroundings) (top : Word) (live : Cell → Prop) (st : PrimState Word)
    (taken : Bool) (target : Label) (m : MachineMove) : Prop :=
  ∃ ms', F.Represents E top live st ms' ∧ m = if taken then .goto target ms' else .next ms'

def branchInstr (cond : Cond) (signed : Bool) (target : Label) : Instr :=
  let c := branchCond cond signed
  let regs := if c.2 then (Reg.r1, Reg.r0) else (Reg.r0, Reg.r1)
  .branch c.1 regs.1 regs.2 target false

variable (past : List MachineEvent) {target : Label}

lemma leads_branchInstr (hrep : F.Represents E top live st ms) (cond : Cond) (signed : Bool) (target : Label) :
    Leads E past ms [branchInstr cond signed target] (Branches F E top live st
      (BranchCond.taken (branchCond cond signed) (ms.regs .r0) (ms.regs .r1)) target) := by
  refine .singleton ⟨ms, hrep, ?_⟩
  rw [branchInstr, Instr.act, BranchCond.taken]
  cases (branchCond cond signed).2 <;> rfl

lemma leads_compare (hF : F.Fits E) (hhelp : E.Helps F A)
    (hrep : F.Represents E top live st ms) {cond : Cond} (hb : rep.isBlock = false)
    {lhs rhs : Operand} (hlhs : Readable (F.model E A) live st rep lhs)
    (hrhs : Readable (F.model E A) live st rep rhs) {slots slots' : Array Slot} (hspills : F.Spills slots slots')
    (h : selectCompare cond rep lhs rhs target slots = .ok (code, slots')) :
    Leads E past ms code (Branches F E top live st (cond.holds ((F.model E A).order rep
      (lhs.words (F.model E A) st rep) (rhs.words (F.model E A) st rep))) target) := by
  unfold selectCompare at h
  by_cases hword : rep.isWord
  · rw [if_pos hword] at h
    obtain ⟨_, _, hleft, h1⟩ := bindState_eq_ok.mp h
    obtain ⟨_, _, hright, h2⟩ := bindState_eq_ok.mp h1
    simp only [pure_bind] at h2
    cases h2
    have hrun := perform_loadWord past hF hrep lhs (hlhs.first hb) (lift_eq_ok.mp hleft).1 (by decide) (by decide)
    have hrep1 := hrep.set hF (r := .r0) (lhs.word (F.model E A) st rep 0) (by decide)
    have hrun1 := perform_loadWord past hF hrep1 rhs (hrhs.first hb) (lift_eq_ok.mp hright).1 (by decide) (by decide)
    have htaken := taken_branchCond A hword cond (lhs.word (F.model E A) st rep 0) (rhs.word (F.model E A) st rep 0)
    rw [append_assoc, words_eq_singleton hword, words_eq_singleton hword]
    refine .append_of_perform hrun (.append_of_perform hrun1 ?_)
    have hbranch := leads_branchInstr past (hrep1.set hF (r := .r1)
      (rhs.word (F.model E A) st rep 0) (by decide)) cond rep.isSigned target
    rw [set_regs_self, set_regs_of_ne _ _ (by decide), set_regs_self, htaken] at hbranch
    have hsigned : (rep.isSigned || !rep.isWord) = rep.isSigned := by simp [hword]
    rw [hsigned]
    exact hbranch
  · rw [if_neg hword, if_neg (by simp [hb])] at h
    obtain ⟨_, _, hleft, h1⟩ := bindState_eq_ok.mp h
    obtain ⟨_, _, hright, h2⟩ := bindState_eq_ok.mp h1
    simp only [pure_bind] at h2
    cases h2
    rw [Bool.not_eq_true] at hword
    rw [append_assoc]
    refine (runs_operandAddresses past hF hrep (words_pos hb) (words_le hb) (words_pos hb)
      (words_le hb) (by decide) (by decide) (by decide) hlhs hrhs hspills hleft hright).leads ?_
    rintro past1 ms1 ⟨hrep1, -, hheld, hheld'⟩
    have hcall : ∀ reply, E.answer (ms1.callEvent (.inl ("__cmp_" ++ helperSuffix rep)) :: past1) = reply →
        reply.Leaves F ms1.sp ms1.mem ∧ reply.regs .r0 =
          orderWord (A.order rep (wordsAt ms1.mem (ms1.regs .r0) rep.words)
            (wordsAt ms1.mem (ms1.regs .r1) rep.words)) := by
      rintro _ rfl
      exact hhelp _ _ (name_compare hword hb) past1 _ _ _ _ _
    have hsigned : (rep.isSigned || !rep.isWord) = true := by simp [hword]
    rw [hsigned]
    change Leads E past1 ms1 ([_] ++ [.loadImm .r1 0, branchInstr cond true target]) _
    refine (runs_call past1 hF hrep1 _ hcall).leads ?_
    rintro past2 _ ⟨hrep2, hr0⟩
    refine .cons_result rfl ?_
    have hbranch := leads_branchInstr past2 (hrep2.set hF (r := .r1) 0 (by decide)) cond true target
    rw [set_regs_self, set_regs_of_ne _ _ (by decide), hr0, hheld.wordsAt, hheld'.wordsAt, taken_orderWord] at hbranch
    have horder : (F.model E A).order rep (lhs.words (F.model E A) st rep) (rhs.words (F.model E A) st rep) =
        A.order rep (lhs.words (F.model E A) st rep) (rhs.words (F.model E A) st rep) :=
      if_neg (by simp [hword])
    rw [horder]
    exact hbranch

/-- The words of a value are put together by `or`, the sign of a floating number apart. -/
def gathered (rep : Rep) (w : Nat → Word) (n : Nat) : Word :=
  (List.range n).foldl (fun acc k ↦ acc ||| rep.tested (k + 1) (w (k + 1))) (w 0)

lemma gathered_succ (rep : Rep) (w : Nat → Word) (n : Nat) :
    gathered rep w (n + 1) = gathered rep w n ||| rep.tested (n + 1) (w (n + 1)) := by
  rw [gathered, range_succ, foldl_append]
  rfl

def maskSign (rep : Rep) (i : Nat) : Instrs :=
  if rep.isFloat && i + 1 == rep.words then [.loadImm .r2 0x7fff, .alu .and .r1 .r1 .r2] else []

lemma runs_maskSign (hF : F.Fits E) (hrep : F.Represents E top live st ms) (rep : Rep) (i : Nat) :
    Runs E past ms (maskSign rep i) fun ms' ↦ F.Represents E top live st ms' ∧
      ms'.regs .r0 = ms.regs .r0 ∧ ms'.regs .r1 = rep.tested i (ms.regs .r1) := by
  rw [maskSign, tested]
  split
  · refine .cons_result rfl (.cons_result rfl (.nil ⟨(hrep.set hF _ (by decide)).set hF _ (by decide), ?_, ?_⟩))
    · rw [set_regs_of_ne _ _ (by decide), set_regs_of_ne _ _ (by decide)]
    · rw [set_regs_self, Instr.value, set_regs_self, set_regs_of_ne _ _ (by decide)]
      rfl
  · exact .nil ⟨hrep, rfl, rfl⟩

lemma leads_test (hF : F.Fits E) (hrep : F.Represents E top live st ms) (hb : rep.isBlock = false)
    (hop : Readable (F.model E A) live st rep op) (h : selectTest nonzero rep op target = .ok code) :
    Leads E past ms code (Branches F E top live st
      (((F.model E A).isZero rep (op.words (F.model E A) st rep)) != nonzero) target) := by
  rw [selectTest] at h
  obtain ⟨first, hfirst, h1⟩ := bind_eq_ok.mp h
  obtain ⟨_, hothers, hcode⟩ := bind_eq_ok.mp h1
  cases hcode
  have hrun := perform_loadWord past hF hrep op (hop.first hb) hfirst (by decide) (by decide)
  rw [append_assoc]
  refine .append_of_perform hrun ?_
  refine Runs.leads (Runs.flatten_range hothers (fun k ms ↦ F.Represents E top live st ms ∧
    ms.regs .r0 = gathered rep (fun i ↦ op.word (F.model E A) st rep i) k)
    ⟨hrep.set hF _ (by decide), set_regs_self _ _ _⟩ ?_) ?_
  rotate_left
  · rintro past1 ms1 ⟨hrep1, hr0⟩
    refine .singleton ⟨ms1, hrep1, ?_⟩
    have hzero : (F.model E A).isZero rep (op.words (F.model E A) st rep) = (ms1.regs .r0 == 0) := by
      rw [hr0]
      exact isZero_eq rep hb _
    rw [Instr.act, hzero, bne]
    generalize (ms1.regs .r0 == 0) = zero
    cases zero <;> cases nonzero <;> rfl
  · rintro k _ _ hcode past1 _ ⟨hrep1, hr0⟩
    obtain ⟨_, hload, hpiece⟩ := bind_eq_ok.mp hcode
    cases hpiece
    have hk4 := words_le hb
    have hrun1 := perform_loadWord past1 hF hrep1 op (hop.reads (k + 1) (by omega)) hload (by omega) (by decide)
    rw [append_assoc]
    refine .append_of_perform hrun1 ?_
    have hmask := runs_maskSign past1 hF (hrep1.set hF (r := .r1)
      (op.word (F.model E A) st rep (k + 1)) (by decide)) rep (k + 1)
    refine hmask.append ?_
    rintro _ _ ⟨hrep2, hr0₂, hr1₂⟩
    rw [set_regs_of_ne _ _ (by decide)] at hr0₂
    rw [set_regs_self] at hr1₂
    refine .cons_result rfl (.nil ⟨hrep2.set hF _ (by decide), ?_⟩)
    rw [set_regs_self, Instr.value, hr0₂, hr1₂, hr0, gathered_succ]
    rfl

/-! ## Conversions -/

lemma words_eq_cons (h : 0 < rep.words) (M : Model Word) (st : PrimState Word) (op : Operand) :
    ∃ ws, op.words M st rep = op.word M st rep 0 :: ws := by
  obtain ⟨n, hn⟩ : ∃ n, rep.words = n + 1 := ⟨rep.words - 1, by omega⟩
  rw [Operand.words, hn, range_succ_eq_map, map_cons]
  exact ⟨_, rfl⟩

def highWord (signed : Bool) : Instrs :=
  if signed then [.loadImm .r1 15, .alu .sar .r1 .r0 .r1] else [.loadImm .r1 0]

lemma perform_highWord (signed : Bool) : perform E past ms (highWord signed) = (past, .next (ms.set .r1
      (if signed then (ms.regs .r0).sshiftRight 15 else 0))) := by
  cases signed with
  | true =>
    have hcount : (BitVec.ofInt 16 15 &&& 0xf : Word).toNat = 15 := by decide
    rw [highWord, if_pos rfl, perform_cons_result rfl, perform_cons_result rfl, perform_nil, Instr.value,
      MachineState.set_set, MachineState.set_regs_self, MachineState.set_regs_of_ne _ _ (by decide),
      if_pos rfl]
    simp [Instr.value, AluOp.apply]
  | false =>
    rw [highWord, if_neg Bool.false_ne_true, perform_cons_result rfl, perform_nil, if_neg Bool.false_ne_true]
    rfl

lemma inRegister_words (rep : Rep) : rep.inRegister.words = rep.words := by
  cases rep <;> rfl

lemma integer_cases (hb : rep.isBlock = false) (hf : rep.isFloat = false) :
    (rep.isWord ∧ rep.words = 1) ∨ ∃ signed, rep = .long signed := by
  cases rep with
  | byte signed | word signed => exact .inl ⟨rfl, rfl⟩
  | long signed => exact .inr ⟨signed, rfl⟩
  | float => cases hf
  | double => cases hf
  | block n => cases hb

/-- What follows the call of a conversion: a byte is extended again. -/
inductive FixesByte (dst : Place) : Rep → Instrs → Prop where
  | none {rep : Rep} (h : ∀ w, rep.extended w = w) : FixesByte dst rep []
  | byte {rep : Rep} {access store : Instrs} {base : Reg} {disp : Disp} (h1 : rep.words = 1)
    (haccess : placeAccess dst .r5 = .ok (access, base, disp)) (hstore : storeWord dst .r0 0 = .ok store) :
    FixesByte dst rep (access ++ [.load .r0 base disp] ++ normalize rep .r0 ++ store)

lemma selectCast_float (hf : (rep.isFloat || srcRep.isFloat) = true)
    (h : selectCast dst rep src srcRep slots = .ok (code, slots')) :
    ∃ address source fix, addressOfPlace dst .r0 = .ok address ∧
      operandAddress src srcRep .r1 slots = .ok (source, slots') ∧ FixesByte dst rep fix ∧
      code = address ++ (source ++ (.call ("__cvt_" ++ helperSuffix srcRep ++ "_" ++ helperSuffix rep) :: fix)) := by
  unfold selectCast at h
  rw [if_pos hf] at h
  obtain ⟨address, _, haddress, h1⟩ := bindState_eq_ok.mp h
  obtain ⟨hplace, rfl⟩ := lift_eq_ok.mp haddress
  obtain ⟨source, _, hsource, h2⟩ := bindState_eq_ok.mp h1
  refine ⟨address, source, ?_⟩
  cases rep with
  | byte signed =>
    obtain ⟨⟨_, _, _⟩, _, haccess, h3⟩ := bindState_eq_ok.mp h2
    obtain ⟨_, _, hstore, hcode⟩ := bindState_eq_ok.mp h3
    cases hcode
    obtain ⟨hreach, rfl⟩ := lift_eq_ok.mp haccess
    obtain ⟨hput, rfl⟩ := lift_eq_ok.mp hstore
    refine ⟨_, hplace, hsource, .byte rfl hreach hput, ?_⟩
    simp [append_assoc]
  | _ =>
    cases h2
    refine ⟨[], hplace, hsource, .none fun _ ↦ rfl, ?_⟩
    simp [append_assoc, append_nil]

variable (hF : F.Fits E) (hhelp : E.Helps F A) (hrep : F.Represents E top live st ms)

include hF

lemma address_plus_zero (ms : MachineState) (base : Reg) (d : Disp) :
    ms.address E base (d.plus 0) = ms.address E base d := by
  rw [address, address, hF.displacement, hF.displacement]
  cases d <;> simp [Disp.plus, FrameMap.displacement, ofInt_wrap32]

lemma runs_fixByte (hkept : ∀ c, live c → ¬ F.free st.sp (F.address c)) (hw : Writable F E A live st 1 dst)
    (h : Stored F E A top live st dst value 1 ms) (rep : Rep)
    (haccess : placeAccess dst .r5 = .ok (access, base, disp)) (hstore : storeWord dst .r0 0 = .ok store) :
    Runs E past ms (access ++ [.load .r0 base disp] ++ normalize rep .r0 ++ store)
      (Stored F E A top live st dst (fun i ↦ rep.extended (value i)) 1) := by
  obtain ⟨hcell, hreads⟩ := hw.cell_write le_rfl value 0
  have hlive : ∀ c ∈ dst.reads (F.model E A) (st.write (F.model E A) dst 1 value),
      F.after live (dst.Covers (F.model E A) st 1) st.sp c := by
    intro c hc
    rw [hreads] at hc
    exact ⟨.inl (hw.reads c hc), hkept c (hw.reads c hc)⟩
  obtain ⟨ms1, hrun, hmem, hregs, haddress⟩ := perform_placeAccess past hF h (by decide) dst hlive haccess
  have hcell1 := haddress 0
  rw [hcell] at hcell1
  have hrep1 := FrameMap.Represents.congr hF h (hregs .sp (by decide)) hmem
  have hload : (Instr.load .r0 base disp).value E ms1 = value 0 := by
    rw [Instr.value, ← address_plus_zero hF]
    calc ms1.mem (ms1.address E base (disp.plus 0))
        = ms1.mem (F.address (dst.cell (F.model E A) st 0)) := congrArg ms1.mem hcell1
      _ = (st.write (F.model E A) dst 1 value).mem (dst.cell (F.model E A) st 0) :=
        hrep1.mem _ ⟨.inr ⟨0, one_pos, rfl⟩, hw.kept 0 one_pos⟩
      _ = value 0 := Function.update_self _ _ _
  simp only [append_assoc, singleton_append]
  refine .append_of_perform hrun (.cons_result rfl (.append_of_perform (perform_normalize past rep .r0) ?_))
  rw [hload, MachineState.set_regs_self, MachineState.set_set]
  have hdata := hw.data 0 one_pos
  rw [← hcell] at hdata
  refine (runs_storeWord (A := A) past hF (hrep1.set hF _ (by decide)) (by decide) hlive hdata hstore).mono ?_
  rintro _ ⟨hrep2, -⟩
  rw [hcell, set_regs_self] at hrep2
  have hmem2 : Function.update (st.write (F.model E A) dst 1 value).mem (dst.cell (F.model E A) st 0)
      (rep.extended (value 0)) =
        (st.write (F.model E A) dst 1 fun i ↦ rep.extended (value i)).mem := Function.update_idem _ _ _
  rw [hmem2] at hrep2
  refine hrep2.mono fun c hc ↦ ⟨.inl hc, hc.2⟩

include hrep

lemma runs_castWord (hb : srcRep.isBlock = false) (hf : (rep.isFloat || srcRep.isFloat) = false) (h1 : rep.words = 1)
    (hsrc : Readable (F.model E A) live st srcRep src) (hw : Writable F E A live st rep.words dst)
    (hload : loadWord src srcRep 0 .r0 = .ok load) (hstore : storeWord dst .r0 0 = .ok store) :
    Runs E past ms (load ++ normalize rep .r0 ++ store) (Stored F E A top live st dst
      ((cast dst rep src srcRep).value (F.model E A) st) rep.words) := by
  have hrun := perform_loadWord past hF hrep src (hsrc.first hb) hload (by decide) (by decide)
  rw [append_assoc]
  refine .append_of_perform hrun ?_
  refine runs_storeResult past hF (hrep.set hF _ (by decide)) h1 hw ?_ hstore
  obtain ⟨ws, hws⟩ := words_eq_cons (words_pos hb) (F.model E A) st src
  rw [value, hws, set_regs_self]
  exact A.castWord_zero hf (words_pos hb) _ ws

lemma runs_castLong
    (hword : srcRep.isWord) (hsrc : Readable (F.model E A) live st srcRep src) (hw : Writable F E A live st 2 dst)
    (hload : loadWord src srcRep 0 .r0 = .ok load) (hlow : storeWord dst .r0 0 = .ok low)
    (hhigh : storeWord dst .r1 1 = .ok high) :
    Runs E past ms (load ++ highWord srcRep.isSigned ++ low ++ high) (Stored F E A top live st dst
      ((cast dst (.long signed) src srcRep).value (F.model E A) st) 2) := by
  have hb : srcRep.isBlock = false := by cases srcRep <;> first | rfl | cases hword
  have hf : ((long signed).isFloat || srcRep.isFloat) = false := by
    cases srcRep <;> first | rfl | cases hword
  have hrun := perform_loadWord past hF hrep src (hsrc.first hb) hload (by decide) (by decide)
  have hrep1 := hrep.set hF (r := .r0) (src.word (F.model E A) st srcRep 0) (by decide)
  simp only [append_assoc]
  refine .append_of_perform hrun (.append_of_perform (perform_highWord past _) ?_)
  have hvalue : (cast dst (.long signed) src srcRep).value (F.model E A) st =
      A.castWord srcRep (.long signed) [src.word (F.model E A) st srcRep 0] := by
    rw [value, words_eq_singleton hword]
    rfl
  rw [hvalue]
  have hstart := Stored.start (hrep1.set hF (r := .r1)
    (if srcRep.isSigned then ((ms.set .r0 (src.word (F.model E A) st srcRep 0)).regs .r0).sshiftRight 15
      else 0) (by decide)) A dst (A.castWord srcRep (.long signed) [src.word (F.model E A) st srcRep 0])
  refine (runs_storeNext past hF hrep.kept hw (by decide) hstart (by decide) ?_ hlow).append ?_
  · rw [A.castWord_zero hf (words_pos hb), set_regs_of_ne _ _ (by decide), set_regs_self]
    rfl
  · rintro past1 _ ⟨hstored, hregs⟩
    refine (runs_storeNext past1 hF hrep.kept hw (by decide) hstored (by decide) ?_ hhigh).mono fun _ hms ↦ hms.1
    rw [hregs .r1 (by decide), set_regs_self, set_regs_self, A.castWord_high hword]

lemma runs_copyLong (hsrc : Readable (F.model E A) live st (.long signed') src)
    (hw : Writable F E A live st 2 dst) (hcopy : Copyable (F.model E A) st 2 dst src)
    (h : selectAssign (.long signed) dst src = .ok code) : Runs E past ms code (Stored F E A top live st dst
      ((cast dst (.long signed) src (.long signed')).value (F.model E A) st) 2) := by
  have hrun := runs_assignWords past hF hrep (show (long signed).isBlock = false from rfl)
    ⟨hsrc.reads, hsrc.words⟩ hw hcopy h
  refine hrun.mono fun _ hms ↦ hms.congr fun i hi ↦ ?_
  have hwords : (cast dst (.long signed) src (.long signed')).value (F.model E A) st i =
      [src.word (F.model E A) st (.long signed') 0, src.word (F.model E A) st (.long signed') 1].getD i 0 :=
    A.castWord_long signed' signed _ _ hi
  have hcases : i = 0 ∨ i = 1 := by
    have : (long signed).words = 2 := rfl
    omega
  rw [hwords]
  rcases hcases with rfl | rfl
  · exact word_eq_of_ne_float (by simp) (by simp) _ _ _ _
  · exact word_eq_of_ne_float (by simp) (by simp) _ _ _ _

include hhelp

variable (hb : rep.isBlock = false) (hb' : srcRep.isBlock = false) (hsrc : Readable (F.model E A) live st srcRep src)
  (hw : Writable F E A live st rep.words dst) (hspills : F.Spills slots slots')
  (h : selectCast dst rep src srcRep slots = .ok (code, slots'))

include hb hb' hsrc hw hspills h

lemma runs_castFloat (hf : (rep.isFloat || srcRep.isFloat) = true) : Runs E past ms code (Stored F E A top live st dst
      ((cast dst rep src srcRep).value (F.model E A) st) rep.words) := by
  obtain ⟨_, _, _, hplace, hsource, hfix, rfl⟩ := selectCast_float hf h
  refine .append_of_perform (perform_addressOfPlace past hF hrep (by decide) hw.reads hplace) ?_
  refine (runs_operandAddress past hF (hrep.set hF _ (by decide)) (words_pos hb') (words_le hb')
    (by decide) hsrc hspills hsource).append ?_
  rintro past1 ms1 ⟨hrep1, hspilled, hheld⟩
  have hr0 := hspilled.regs .r0 (by decide)
  rw [set_regs_self] at hr0
  have hwords : wordsAt ms1.mem (ms1.regs .r1) srcRep.inRegister.words = src.words (F.model E A) st srcRep := by
    rw [inRegister_words]
    exact hheld.wordsAt
  have hcall : Runs E past1 ms1 [.call ("__cvt_" ++ helperSuffix srcRep ++ "_" ++ helperSuffix rep)]
      (Stored F E A top live st dst
        (A.cast srcRep.inRegister rep.inRegister (src.words (F.model E A) st srcRep)) rep.words) := by
    refine runs_helper past1 hF hhelp hrep1 (.convert srcRep.inRegister rep.inRegister) (name_convert hb' hb) hw ?_
    intro _ hobeyed
    rw [Helper.Obeyed, hwords, inRegister_words, hr0] at hobeyed
    exact hobeyed
  have hvalue : ∀ i, (cast dst rep src srcRep).value (F.model E A) st i =
      rep.extended (A.cast srcRep.inRegister rep.inRegister (src.words (F.model E A) st srcRep) i) :=
    fun i ↦ if_pos hf
  rw [← singleton_append]
  refine hcall.append fun past2 ms2 hstored ↦ ?_
  cases hfix with
  | none hid => exact .nil (hstored.congr fun i _ ↦ by rw [hvalue, hid])
  | byte h1 haccess hstore =>
    rw [h1] at hw hstored ⊢
    have hfixed := runs_fixByte past2 hF hrep.kept hw hstored rep haccess hstore
    exact hfixed.mono fun _ hms ↦ hms.congr fun i _ ↦ (hvalue i).symm

lemma runs_cast (hcopy : srcRep.words = rep.words → Copyable (F.model E A) st rep.words dst src) :
    Runs E past ms code (Stored F E A top live st dst
      ((cast dst rep src srcRep).value (F.model E A) st) rep.words) := by
  cases hf : (rep.isFloat || srcRep.isFloat) with
  | true => exact runs_castFloat past hF hhelp hrep hb hb' hsrc hw hspills h hf
  | false =>
    obtain ⟨hf1, hf2⟩ := Bool.or_eq_false_iff.mp hf
    unfold selectCast at h
    rw [if_neg (by simp [hf])] at h
    have hnarrow : rep.words = 1 → (do
        return (← loadWord src srcRep 0 .r0) ++ normalize rep .r0 ++ (← storeWord dst .r0 0) :
          SelectM Instrs) slots = .ok (code, slots') →
        Runs E past ms code (Stored F E A top live st dst
          ((cast dst rep src srcRep).value (F.model E A) st) rep.words) := by
      intro h1 hrun
      obtain ⟨_, _, hload, h₁⟩ := bindState_eq_ok.mp hrun
      obtain ⟨_, _, hstore, hcode⟩ := bindState_eq_ok.mp h₁
      cases hcode
      exact runs_castWord past hF hrep hb' hf h1 hsrc hw (lift_eq_ok.mp hload).1 (lift_eq_ok.mp hstore).1
    have h2 : ∀ signed, (long signed).words = 2 := fun _ ↦ rfl
    rcases integer_cases hb hf1 with ⟨-, h1⟩ | ⟨_, rfl⟩ <;> rcases integer_cases hb' hf2 with ⟨hword, h1'⟩ | ⟨_, rfl⟩
    · simp only [h1, h1'] at h
      exact hnarrow h1 h
    · simp only [h1, h2] at h
      exact hnarrow h1 h
    · simp only [h1', h2] at h
      obtain ⟨_, _, hload, h₁⟩ := bindState_eq_ok.mp h
      obtain ⟨_, _, hlow, h₂⟩ := bindState_eq_ok.mp h₁
      obtain ⟨_, _, hhigh, hcode⟩ := bindState_eq_ok.mp h₂
      cases hcode
      exact runs_castLong past hF hrep hword hsrc hw (lift_eq_ok.mp hload).1 (lift_eq_ok.mp hlow).1
        (lift_eq_ok.mp hhigh).1
    · exact runs_copyLong past hF hrep hsrc hw (hcopy rfl) (lift_eq_ok.mp h).1

end W16Compiler.Select
