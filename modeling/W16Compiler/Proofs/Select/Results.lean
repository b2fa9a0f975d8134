import W16Compiler.Proofs.Select.Helpers

/-!
# Nodes that compute

The code of an assignment, a conversion or an operation leaves the words of the result in the place
where the node stores them. A value of several words is stored word by word; the words that are still
to be read stay what they were, because the place is apart from what leads to it and to the source,
and because the source is the place itself or apart from it.
-/

namespace W16Compiler

open BitVec MachineState Operand Prim

namespace Select

variable {F : FrameMap} {E : Surroundings} {A : Arithmetic} {top : Word} {live : Cell → Prop}
  {st : PrimState Word} {ms ms' : MachineState} {reg : Reg} {dst : Place} {words : Nat}

/-- Words can be stored in a place: what leads to it is known and not among them, and they are not below
the stack pointer. -/
structure Writable (F : FrameMap) (E : Surroundings) (A : Arithmetic) (live : Cell → Prop)
    (st : PrimState Word) (words : Nat) (dst : Place) : Prop where
  reads : ∀ c ∈ dst.reads (F.model E A) st, live c
  data : ∀ j, j < words → F.Data E (dst.cell (F.model E A) st j)
  kept : ∀ j, j < words → ¬ F.free st.sp (F.address (dst.cell (F.model E A) st j))
  apart : ∀ j, j < words → ∀ c ∈ dst.reads (F.model E A) st, dst.cell (F.model E A) st j ≠ c

def EqualOrDisjoint (words : Nat) (a b : Nat → Cell) : Prop :=
  (∀ i, i < words → a i = b i) ∨ ∀ i j, i < words → j < words → a i ≠ b j

/-- What leads to the source of a copy is not written, and the source is the destination or apart from
it. -/
def Copyable (M : Model Word) (st : PrimState Word) (words : Nat) (dst : Place) (src : Operand) : Prop :=
  ∀ place, src = .load place →
    (∀ j, j < words → ∀ c ∈ place.reads M st, dst.cell M st j ≠ c) ∧
      EqualOrDisjoint words (fun i ↦ place.cell M st i) fun i ↦ dst.cell M st i

variable {i j n : Nat} {code : Instrs} {rep : Rep} {src : Operand} {slots slots' : Array Slot} {op : BinaryOp}
  {value value' : Nat → Word}
  {k : Nat} {M : Model Word} {c : Cell}

/-! ## Places and representations -/

lemma cell_ne_cell (hwords : words ≤ 2 ^ 16) (hi : i < words) (hj : j < words) (hne : i ≠ j) :
    dst.cell (F.model E A) st i ≠ dst.cell (F.model E A) st j := by
  intro heq
  have haddress := congrArg F.address heq
  rw [address_cell_add dst st i, address_cell_add dst st j, BitVec.add_right_inj] at haddress
  have hnat := congrArg BitVec.toNat haddress
  rw [BitVec.toNat_ofNat, BitVec.toNat_ofNat, Nat.mod_eq_of_lt (by omega), Nat.mod_eq_of_lt (by omega)] at hnat
  exact hne hnat

lemma write_mem_of_ne (h : ∀ j, j < k → dst.cell M st j ≠ c) : (st.write M dst k value).mem c = st.mem c :=
  writeWords_of_ne fun j hj ↦ (h j hj).symm

lemma Writable.cell_write (hw : Writable F E A live st words dst) (hk : k ≤ words) (value : Nat → Word) (i : Nat) :
    dst.cell (F.model E A) (st.write (F.model E A) dst k value) i = dst.cell (F.model E A) st i ∧
      dst.reads (F.model E A) (st.write (F.model E A) dst k value) = dst.reads (F.model E A) st := by
  refine Place.cell_congr ?_ i dst fun c hc ↦ ?_
  · rfl
  · exact write_mem_of_ne fun j hj ↦ hw.apart j (lt_of_lt_of_le hj hk) c hc

lemma putWords_congr (mem : Word → Word) (a : Word) {value : Nat → Word} (h : ∀ i, i < n → value i = value' i)
    : putWords mem a n value = putWords mem a n value' :=
  funext fun _ ↦ writeWords_congr rfl (fun _ _ ↦ rfl) h

lemma toNat_ofInt_wrap32 (h : n < 2 ^ 16) : (BitVec.ofInt 16 (wrap32 n)).toNat = n := by
  rw [ofInt_wrap32, ofInt_natCast, toNat_ofNat, Nat.mod_eq_of_lt h]

lemma words_eq_singleton (h : rep.isWord) (M : Model Word) (st : PrimState Word) (op : Operand) :
    op.words M st rep = [op.word M st rep 0] := by
  rw [words, Rep.words_of_isWord h]
  rfl

lemma Readable.first {op : Operand} (h : Readable M live st rep op) (hb : rep.isBlock = false) :
    ∀ c ∈ op.reads M st 0, live c :=
  h.reads 0 (Rep.words_pos hb)

lemma rightRep_isBlock (op : BinaryOp) (hb : rep.isBlock = false) : (rightRep op rep).isBlock = false := by
  rw [rightRep]
  split
  · rfl
  · exact hb

lemma rightRep_isWord (op : BinaryOp) (h : rep.isWord) : (rightRep op rep).isWord := by
  rw [rightRep]
  split
  · rfl
  · exact h

lemma word_eq_of_ne_float (h : rep ≠ .float) (h' : rep' ≠ .float) (M : Model Word) (st : PrimState Word)
    (i : Nat) (op : Operand) : op.word M st rep i = op.word M st rep' i := by
  cases op with
  | float x => rw [word, word, Binary64.bitsAs, Binary64.bitsAs, if_neg h, if_neg h']
  | _ => simp [word]

lemma ne_float_of_isWord (h : rep.isWord) : rep ≠ .float := by
  rintro rfl
  cases h

/-! ## What is selected -/

lemma selectAssign_words (hb : rep.isBlock = false) (h : selectAssign rep dst src = .ok code) :
    ∃ pieces, (List.range rep.words).mapM (fun i ↦ do
        return (← loadWord src rep i .r0) ++ (← storeWord dst .r0 i)) = .ok pieces ∧
      code = pieces.flatten := by
  cases rep with
  | block n => cases hb
  | _ =>
    obtain ⟨pieces, hpieces, hcode⟩ := bind_eq_ok.mp h
    exact ⟨pieces, hpieces, pure_eq_ok.mp hcode⟩

def ComputesWord (op : BinaryOp) (signed : Bool) (compute : Instr) : Prop :=
  (∃ alu, aluOp? op signed = some alu ∧ compute = .alu alu .r0 .r0 .r1) ∨
  ∃ name, aluOp? op signed = none ∧ wordHelper op signed = .ok name ∧ compute = .call name

lemma selectBinary_word (hword : rep.isWord) (h : selectBinary op rep dst lhs rhs slots = .ok (code, slots')) :
    ∃ left right compute store, loadWord lhs rep 0 .r0 = .ok left ∧ loadWord rhs rep 0 .r1 = .ok right ∧
      ComputesWord op rep.isSigned compute ∧ storeWord dst .r0 0 = .ok store ∧
      code = left ++ (right ++ ([compute] ++ (normalize rep .r0 ++ store))) := by
  unfold selectBinary at h
  rw [if_pos hword] at h
  obtain ⟨left, _, hleft, h1⟩ := bindState_eq_ok.mp h
  obtain ⟨right, _, hright, h2⟩ := bindState_eq_ok.mp h1
  refine ⟨left, right, ?_⟩
  have hstore : ∀ {compute : Instr} {s : Array Slot}, (do
      return left ++ right ++ [compute] ++ normalize rep .r0 ++ (← storeWord dst .r0 0) :
        SelectM Instrs) s = .ok (code, slots') →
      ∃ store, storeWord dst .r0 0 = .ok store ∧
        code = left ++ (right ++ ([compute] ++ (normalize rep .r0 ++ store))) := by
    intro _ s hrun
    obtain ⟨store, _, hs, hcode⟩ := bindState_eq_ok.mp hrun
    cases hcode
    exact ⟨store, (lift_eq_ok.mp hs).1, by simp [List.append_assoc]⟩
  cases halu : aluOp? op rep.isSigned with
  | some alu =>
    simp only [halu] at h2
    obtain ⟨store, hs, hcode⟩ := hstore h2
    exact ⟨_, store, (lift_eq_ok.mp hleft).1, (lift_eq_ok.mp hright).1, .inl ⟨alu, halu, rfl⟩, hs, hcode⟩
  | none =>
    simp only [halu] at h2
    obtain ⟨name, s, hname, h3⟩ := bindState_eq_ok.mp h2
    obtain ⟨store, hs, hcode⟩ := hstore h3
    exact ⟨_, store, (lift_eq_ok.mp hleft).1, (lift_eq_ok.mp hright).1,
      .inr ⟨name, halu, (lift_eq_ok.mp hname).1, rfl⟩, hs, hcode⟩

/-! ## Words stored one after another -/

def Stored (F : FrameMap) (E : Surroundings) (A : Arithmetic) (top : Word) (live : Cell → Prop)
    (st : PrimState Word) (dst : Place) (value : Nat → Word) (k : Nat) (ms : MachineState) : Prop :=
  F.Represents E top (F.after live (dst.Covers (F.model E A) st k) st.sp)
    (st.write (F.model E A) dst k value) ms

lemma Stored.start (h : F.Represents E top live st ms) (A : Arithmetic) (dst : Place)
    (value : Nat → Word) : Stored F E A top live st dst value 0 ms :=
  h.mono fun _ hc ↦ hc.1.resolve_right fun ⟨j, hj, _⟩ ↦ absurd hj (Nat.not_lt_zero j)

lemma Stored.congr (h : Stored F E A top live st dst value k ms)
    (hvalue : ∀ i, i < k → value i = value' i) : Stored F E A top live st dst value' k ms := by
  have hwrite : st.write (F.model E A) dst k value = st.write (F.model E A) dst k value' := by
    unfold PrimState.write
    congr 1
    funext c
    exact writeWords_congr rfl (fun _ _ ↦ rfl) hvalue
  unfold Stored at h ⊢
  rwa [hwrite] at h

/-- A block of words can be copied from an address: it is known, and it is the destination or apart
from it. -/
structure BlockSource (M : Model Word) (live : Cell → Prop) (st : PrimState Word) (words : Nat)
    (dst : Place) (src : Operand) : Prop where
  reads : ∀ c ∈ src.reads M st 0, live c
  cells : ∀ i : Nat, i < words → live (M.locate (src.pointer M st) i)
  apart : EqualOrDisjoint words (fun i ↦ M.locate (src.pointer M st) i) fun i ↦ dst.cell M st i

lemma BlockSource.mem (hsrc : BlockSource (F.model E A) live st words dst src) (hrep : F.Represents E top live st ms)
    (hi : i < words) : ms.mem (src.pointer (F.model E A) st + .ofNat 16 i) =
      st.mem ((F.model E A).locate (src.pointer (F.model E A) st) i) := by
  rw [← hrep.mem _ (hsrc.cells i hi), ← ofInt_natCast]
  exact congrArg ms.mem (F.address_cell _).symm

variable (past : List MachineEvent) (hF : F.Fits E) {pieces : List Instrs}

lemma perform_normalize (rep : Rep) (reg : Reg) :
    perform E past ms (normalize rep reg) = (past, .next (ms.set reg (rep.extended (ms.regs reg)))) := by
  cases rep with
  | byte signed =>
    rw [normalize, perform_cons_result rfl, perform_nil]
    cases signed <;> rfl
  | _ => exact congrArg (fun m ↦ (past, MachineMove.next m)) (set_eq_self rfl).symm

include hF

lemma words_lt_of_data (hdata : ∀ j, j < words → F.Data E (dst.cell (F.model E A) st j)) : words < 2 ^ 16 := by
  by_contra hge
  have hfar : (E.symbol tryMark - F.address (dst.cell (F.model E A) st 0)).toNat < words :=
    lt_of_lt_of_le (isLt _) (not_lt.mp hge)
  refine (hdata _ hfar).mark_ne_address hF ?_
  rw [address_cell_add, ofNat_toNat, setWidth_eq, word_add_sub_cancel]

lemma EqualOrDisjoint.not_written (hdata : ∀ j, j < words → F.Data E (dst.cell (F.model E A) st j))
    {cell : Nat → Cell} (h : EqualOrDisjoint words cell fun i ↦ dst.cell (F.model E A) st i) (hj : j < i)
    (hi : i < words) : dst.cell (F.model E A) st j ≠ cell i := by
  rcases h with heq | hdisj
  · rw [heq i hi]
    exact cell_ne_cell (le_of_lt (words_lt_of_data hF hdata)) (by omega) hi (by omega)
  · exact (hdisj i j hi (by omega)).symm

lemma Stored.set (h : Stored F E A top live st dst value k ms) (v : Word)
    (hreg : reg ≠ .sp) : Stored F E A top live st dst value k (ms.set reg v) :=
  FrameMap.Represents.set hF h v hreg

section

variable (hkept : ∀ c, live c → ¬ F.free st.sp (F.address c)) (hw : Writable F E A live st words dst)

include hkept

lemma perform_loadNext (h : Stored F E A top live st dst value k ms) (hi : i < 4) (hreg : reg ≠ .sp)
    (hreads : ∀ c ∈ src.reads (F.model E A) st i, live c)
    (hapart : ∀ j, j < k → ∀ c ∈ src.reads (F.model E A) st i, dst.cell (F.model E A) st j ≠ c)
    (hcode : loadWord src rep i reg = .ok code) :
    perform E past ms code = (past, .next (ms.set reg (src.word (F.model E A) st rep i))) := by
  have hsame : src.word (F.model E A) (st.write (F.model E A) dst k value) rep i = src.word (F.model E A) st rep i ∧
      src.reads (F.model E A) (st.write (F.model E A) dst k value) i = src.reads (F.model E A) st i := by
    refine word_congr ?_ rep i src fun c hc ↦ ?_
    · rfl
    · exact write_mem_of_ne fun j hj ↦ hapart j hj c hc
  rw [← hsame.1]
  refine perform_loadWord past hF h src (fun c hc ↦ ?_) hcode hi hreg
  rw [hsame.2] at hc
  exact ⟨.inl (hreads c hc), hkept c (hreads c hc)⟩

include hw

lemma runs_storeNext (hk : k < words) (h : Stored F E A top live st dst value k ms)
    (hrs : rs ≠ .r5) (hv : ms.regs rs = value k) (hcode : storeWord dst rs k = .ok code) :
    Runs E past ms code fun ms' ↦ Stored F E A top live st dst value (k + 1) ms' ∧
      ∀ r, r ≠ .r5 → ms'.regs r = ms.regs r := by
  obtain ⟨hcell, hreads⟩ := hw.cell_write (le_of_lt hk) value k
  have hstore := runs_storeWord (A := A) (i := k) past hF h hrs
    (fun c hc ↦ ⟨.inl (hw.reads c (hreads ▸ hc)), hkept c (hw.reads c (hreads ▸ hc))⟩)
    (hcell ▸ hw.data k hk) hcode
  refine hstore.mono fun ms' ⟨hrep, hregs⟩ ↦ ⟨?_, hregs⟩
  rw [hcell, hv] at hrep
  refine hrep.mono fun c hc ↦ ⟨?_, hc.2⟩
  rcases hc.1 with hlive | ⟨j, hj, rfl⟩
  · exact .inl ⟨.inl hlive, hc.2⟩
  · rcases Nat.lt_succ_iff_lt_or_eq.mp hj with hj | rfl
    · exact .inl ⟨.inr ⟨j, hj, rfl⟩, hc.2⟩
    · exact .inr rfl

lemma runs_clearWords (h : Stored F E A top live st dst (fun _ ↦ 0) 0 ms) (hr0 : ms.regs .r0 = 0)
    (hpieces : (List.range words).mapM (fun i ↦ do
      return [] ++ (← storeWord dst .r0 i)) = .ok pieces) :
    Runs E past ms pieces.flatten (Stored F E A top live st dst (fun _ ↦ 0) words) := by
  refine (Runs.flatten_range hpieces (fun k ms ↦ Stored F E A top live st dst (fun _ ↦ 0) k ms ∧
    ms.regs .r0 = 0) ⟨h, hr0⟩ ?_).mono fun _ hms ↦ hms.1
  intro k hk _ hcode past1 ms1 hms1
  obtain ⟨_, hstore, hpiece⟩ := bind_eq_ok.mp hcode
  cases hpiece
  refine (runs_storeNext past1 hF hkept hw hk hms1.1 (by decide) hms1.2 hstore).mono ?_
  exact fun ms2 hms2 ↦ ⟨hms2.1, (hms2.2 .r0 (by decide)).trans hms1.2⟩

lemma Stored.mem_block (hsrc : BlockSource (F.model E A) live st words dst src)
    (h : Stored F E A top live st dst value k ms) (hk : k < words) :
    ms.mem (src.pointer (F.model E A) st + .ofInt 16 k) =
      st.mem ((F.model E A).locate (src.pointer (F.model E A) st) k) := by
  have hlive := hsrc.cells k hk
  calc ms.mem (src.pointer (F.model E A) st + .ofInt 16 k)
      = ms.mem (F.address ((F.model E A).locate (src.pointer (F.model E A) st) k)) :=
        congrArg ms.mem (F.address_cell _).symm
    _ = (st.write (F.model E A) dst k value).mem _ := h.mem _ ⟨.inl hlive, hkept _ hlive⟩
    _ = st.mem _ := write_mem_of_ne fun j hj ↦ hsrc.apart.not_written hF hw.data hj hk

lemma runs_copyWords (hsrc : BlockSource (F.model E A) live st words dst src)
    (hvalue : ∀ i, value i = st.mem ((F.model E A).locate (src.pointer (F.model E A) st) i))
    (h : Stored F E A top live st dst value 0 ms) (hr1 : ms.regs .r1 = src.pointer (F.model E A) st)
    (hpieces : (List.range words).mapM (fun (i : Nat) ↦
      do return [Instr.load .r0 .r1 (.num i)] ++ (← storeWord dst .r0 i)) = .ok pieces) :
    Runs E past ms pieces.flatten (Stored F E A top live st dst value words) := by
  refine (Runs.flatten_range hpieces (fun k ms ↦ Stored F E A top live st dst value k ms ∧
    ms.regs .r1 = src.pointer (F.model E A) st) ⟨h, hr1⟩ ?_).mono fun _ hms ↦ hms.1
  rintro k hk _ hcode past1 ms1 ⟨hstored, hpointer⟩
  obtain ⟨_, hstore, hpiece⟩ := bind_eq_ok.mp hcode
  cases hpiece
  refine .cons_result rfl ?_
  have hfetch : (Instr.load .r0 .r1 (.num k)).value E ms1 = value k := by
    rw [Instr.value, address_num, hpointer, hstored.mem_block hF hkept hw hsrc hk, hvalue]
  rw [hfetch]
  refine (runs_storeNext past1 hF hkept hw hk (hstored.set hF _ (by decide)) (by decide)
    (set_regs_self _ _ _) hstore).mono ?_
  rintro _ ⟨hstored2, hregs⟩
  exact ⟨hstored2, (hregs .r1 (by decide)).trans hpointer⟩

end

/-! ## Assignments -/

lemma Copyable.apart (h : Copyable (F.model E A) st words dst src)
    (hw : Writable F E A live st words dst) (hj : j < i) (hi : i < words)
    (hc : c ∈ src.reads (F.model E A) st i) : dst.cell (F.model E A) st j ≠ c := by
  cases src with
  | load place =>
    obtain ⟨hreads, hsame⟩ := h place rfl
    rw [Operand.reads, List.mem_cons] at hc
    rcases hc with rfl | hc
    · exact hsame.not_written hF hw.data hj hi
    · exact hreads j (by omega) c hc
  | _ => simp [Operand.reads] at hc

variable (hhelp : E.Helps F A) (hrep : F.Represents E top live st ms)

include hrep

lemma runs_assignWords (hb : rep.isBlock = false) (hsrc : Readable (F.model E A) live st rep src)
    (hw : Writable F E A live st rep.words dst) (hcopy : Copyable (F.model E A) st rep.words dst src)
    (h : selectAssign rep dst src = .ok code) :
    Runs E past ms code (Stored F E A top live st dst (fun i ↦ src.word (F.model E A) st rep i) rep.words) := by
  obtain ⟨_, hpieces, rfl⟩ := selectAssign_words hb h
  refine Runs.flatten_range hpieces _ (Stored.start hrep A dst _) ?_
  intro k hk _ hcode past1 ms1 hstored
  obtain ⟨_, hload, hrest⟩ := bind_eq_ok.mp hcode
  obtain ⟨_, hstore, hpiece⟩ := bind_eq_ok.mp hrest
  cases hpiece
  have hk4 : k < 4 := lt_of_lt_of_le hk (Rep.words_le hb)
  have hrun := perform_loadNext past1 hF hrep.kept hstored hk4 (by decide) (hsrc.reads k hk)
    (fun j hj c hc ↦ hcopy.apart hF hw hj hk hc) hload
  refine .append_of_perform hrun ?_
  have hstep := runs_storeNext past1 hF hrep.kept hw hk (hstored.set hF _ (by decide)) (by decide)
    (set_regs_self ms1 .r0 _) hstore
  exact hstep.mono fun _ hms ↦ hms.1

lemma runs_storeResult
    (h1 : rep.words = 1) (hw : Writable F E A live st rep.words dst) (hvalue : value 0 = rep.extended (ms.regs .r0))
    (hstore : storeWord dst .r0 0 = .ok store) :
    Runs E past ms (normalize rep .r0 ++ store) (Stored F E A top live st dst value rep.words) := by
  refine .append_of_perform (perform_normalize past rep .r0) ?_
  rw [h1] at hw ⊢
  have hstep := runs_storeNext past hF hrep.kept hw one_pos (.start (hrep.set hF _ (by decide)) A dst value) (by decide)
    ((set_regs_self _ _ _).trans hvalue.symm) hstore
  exact hstep.mono fun _ hms ↦ hms.1

include hhelp

lemma runs_helper (helper : Helper) (hname : helper.name = some name) (hw : Writable F E A live st words dst)
    (hleaves : ∀ reply, helper.Obeyed F A (ms.regs .r0) (ms.regs .r1) (ms.regs .r2) ms.sp ms.mem reply →
      reply.Leaves F ms.sp (putWords ms.mem (F.address (dst.cell (F.model E A) st 0)) words value)) :
    Runs E past ms [.call name] (Stored F E A top live st dst value words) := by
  have hleaves := hleaves _ (hhelp helper name hname past _ _ _ _ _)
  have hput : putWords ms.mem (F.address (dst.cell (F.model E A) st 0)) words value =
      writeWords (fun j ↦ F.address (dst.cell (F.model E A) st j)) value words ms.mem := by
    rw [putWords]
    congr 1
    funext j
    exact (address_cell_add dst st j).symm
  refine .of_perform (perform_call past name rfl hleaves.exit) ?_
  have hwritten := hrep.writeWords hF (fun j ↦ dst.cell (F.model E A) st j) value words hw.data
  refine hwritten.keep hF (Reply.state_sp _ _) fun a ha ↦ ?_
  have hfree : ¬ F.free ms.sp a := fun hf ↦ ha (.inl (hrep.sp ▸ hf))
  rw [Reply.state_mem]
  exact (hleaves.mem a hfree).trans (congrFun hput a)

lemma runs_assignBlock (hw : Writable F E A live st n dst)
    (hsrc : src ≠ .imm 0 → BlockSource (F.model E A) live st n dst src)
    (h : selectAssign (.block n) dst src = .ok code) :
    Runs E past ms code (Stored F E A top live st dst (assignedWord (F.model E A) st (.block n) src) n) := by
  have hn := words_lt_of_data hF hw.data
  have hclear : src = .imm 0 → assignedWord (F.model E A) st (.block n) src = fun _ ↦ 0 := by
    rintro rfl
    rfl
  have hcopy : src ≠ .imm 0 → ∀ i, assignedWord (F.model E A) st (.block n) src i =
      st.mem ((F.model E A).locate (src.pointer (F.model E A) st) i) := by
    intro hne i
    rw [assignedWord, if_pos (show (Rep.block n).isBlock from rfl), if_neg hne]
  rw [selectAssign] at h
  simp only at h
  split at h
  · split at h
    · rename_i hzero
      obtain ⟨start, hstart, hrest⟩ := bind_eq_ok.mp h
      obtain ⟨pieces, hpieces, hcode⟩ := bind_eq_ok.mp hrest
      cases hstart
      cases hcode
      rw [hclear hzero]
      refine .cons_result rfl ?_
      exact runs_clearWords past hF hrep.kept hw (.start (hrep.set hF _ (by decide)) A dst _)
        (set_regs_self _ _ _) hpieces
    · rename_i hne
      obtain ⟨start, hstart, hrest⟩ := bind_eq_ok.mp h
      obtain ⟨pieces, hpieces, hcode⟩ := bind_eq_ok.mp hrest
      cases hcode
      have hload := perform_loadWord past hF hrep src (hsrc hne).reads hstart (by decide) (by decide)
      refine .append_of_perform hload ?_
      exact runs_copyWords past hF hrep.kept hw (hsrc hne) (hcopy hne)
        (.start (hrep.set hF _ (by decide)) A dst _) (set_regs_self _ _ _) hpieces
  · obtain ⟨address, haddress, hrest⟩ := bind_eq_ok.mp h
    have hrun := perform_addressOfPlace past hF hrep (by decide) hw.reads haddress
    have hrep1 := hrep.set hF (r := .r0) (F.address (dst.cell (F.model E A) st 0)) (by decide)
    split at hrest
    · rename_i hzero
      cases hrest
      rw [hclear hzero]
      refine .append_of_perform hrun (.cons_result rfl ?_)
      refine runs_helper past hF hhelp (hrep1.set hF _ (by decide)) .clear rfl hw ?_
      intro reply hobeyed
      simpa [Helper.Obeyed, Instr.value, toNat_ofInt_wrap32 hn] using hobeyed
    · rename_i hne
      obtain ⟨source, hsource, hcode⟩ := bind_eq_ok.mp hrest
      cases hcode
      have hload := perform_loadWord past hF hrep1 src (hsrc hne).reads hsource (by decide) (by decide)
      rw [List.append_assoc]
      refine .append_of_perform hrun (.append_of_perform hload (.cons_result rfl ?_))
      refine runs_helper past hF hhelp ((hrep1.set hF _ (by decide)).set hF _ (by decide)) .copy rfl hw ?_
      intro reply hobeyed
      simp only [set_mem]
      rw [← putWords_congr ms.mem _ fun i hi ↦ ((hsrc hne).mem hrep hi).trans (hcopy hne i).symm]
      simpa [Helper.Obeyed, Instr.value, pointer, toNat_ofInt_wrap32 hn] using hobeyed

/-! ## Operations -/

lemma runs_unary {op : PrimUnary} (hb : rep.isBlock = false)
    (hsrc : Readable (F.model E A) live st rep src) (hw : Writable F E A live st rep.words dst)
    (hspills : F.Spills slots slots') (h : selectUnary op rep dst src slots = .ok (code, slots')) :
    Runs E past ms code (Stored F E A top live st dst ((unary op rep dst src).value (F.model E A) st) rep.words) := by
  by_cases hword : rep.isWord
  · unfold selectUnary at h
    rw [if_pos hword] at h
    obtain ⟨_, _, hload, hrest⟩ := bindState_eq_ok.mp h
    obtain ⟨_, _, hstore, hcode⟩ := bindState_eq_ok.mp hrest
    cases hcode
    have hrun := perform_loadWord past hF hrep src (hsrc.first hb) (lift_eq_ok.mp hload).1 (by decide) (by decide)
    rw [List.append_assoc, List.append_assoc]
    refine .append_of_perform hrun (.cons_result rfl ?_)
    refine runs_storeResult past hF ((hrep.set hF _ (by decide)).set hF _ (by decide))
      (Rep.words_of_isWord hword) hw ?_ (lift_eq_ok.mp hstore).1
    rw [value, words_eq_singleton hword, set_regs_self, Instr.value, set_regs_self]
    exact A.unaryWord_of_isWord op hword _
  · unfold selectUnary at h
    rw [if_neg hword] at h
    obtain ⟨_, _, haddress, hrest⟩ := bindState_eq_ok.mp h
    obtain ⟨_, _, hsource, hcode⟩ := bindState_eq_ok.mp hrest
    cases hcode
    obtain ⟨hplace, rfl⟩ := lift_eq_ok.mp haddress
    rw [Bool.not_eq_true] at hword
    rw [List.append_assoc]
    refine .append_of_perform (perform_addressOfPlace past hF hrep (by decide) hw.reads hplace) ?_
    refine (runs_operandAddress past hF (hrep.set hF _ (by decide)) (Rep.words_pos hb) (Rep.words_le hb)
      (by decide) hsrc hspills hsource).append ?_
    rintro past1 ms1 ⟨hrep1, hspilled, hheld⟩
    refine runs_helper past1 hF hhelp hrep1 (.unary op rep) (name_unary op hword hb) hw ?_
    intro _ hobeyed
    have hr0 := hspilled.regs .r0 (by decide)
    have hvalue : (unary op rep dst src).value (F.model E A) st =
        A.unary op rep (wordsAt ms1.mem (ms1.regs .r1) rep.words) := by
      funext i
      rw [hheld.wordsAt]
      exact if_neg (by simp [hword])
    rw [set_regs_self] at hr0
    rw [hvalue, ← hr0]
    exact hobeyed

lemma runs_computesWord (hword : rep.isWord) (h : ComputesWord op rep.isSigned compute) :
    Runs E past ms [compute] fun ms' ↦ F.Represents E top live st ms' ∧
      rep.extended (ms'.regs .r0) = A.binaryWord op rep [ms.regs .r0] [ms.regs .r1] 0 := by
  rcases h with ⟨_, halu, rfl⟩ | ⟨name, halu, hname, rfl⟩
  · refine .cons_result rfl (.nil ⟨hrep.set hF _ (by decide), ?_⟩)
    rw [set_regs_self, Instr.value, A.binaryWord_of_alu hword halu]
  · have hcall : ∀ reply, E.answer (ms.callEvent (.inl name) :: past) = reply → reply.Leaves F ms.sp ms.mem ∧
          reply.regs .r0 = A.binary op (.word rep.isSigned) [ms.regs .r0] [ms.regs .r1] 0 := by
      rintro _ rfl
      exact hhelp _ name (name_word hname) past _ _ _ _ _
    refine (runs_call past hF hrep name hcall).mono fun ms' ⟨hrep', hr0⟩ ↦ ⟨hrep', ?_⟩
    rw [hr0, A.binaryWord_of_helper hword halu]

lemma runs_binary (hb : rep.isBlock = false)
    (hlhs : Readable (F.model E A) live st rep lhs) (hrhs : Readable (F.model E A) live st (rightRep op rep) rhs)
    (hw : Writable F E A live st rep.words dst) (hspills : F.Spills slots slots')
    (h : selectBinary op rep dst lhs rhs slots = .ok (code, slots')) :
    Runs E past ms code (Stored F E A top live st dst
      ((binary op rep dst lhs rhs).value (F.model E A) st) rep.words) := by
  by_cases hword : rep.isWord
  · obtain ⟨_, _, _, _, hleft, hright, hcompute, hstore, rfl⟩ := selectBinary_word hword h
    have hrun := perform_loadWord past hF hrep lhs (hlhs.first hb) hleft (by decide) (by decide)
    have hrep1 := hrep.set hF (r := .r0) (lhs.word (F.model E A) st rep 0) (by decide)
    have hrun1 := perform_loadWord past hF hrep1 rhs
      (hrhs.first (rightRep_isBlock op hb)) hright (by decide) (by decide)
    refine .append_of_perform hrun (.append_of_perform hrun1 ?_)
    refine (runs_computesWord past hF hhelp (hrep1.set hF _ (by decide)) hword hcompute).append ?_
    rintro past2 _ ⟨hrep2, hr0⟩
    refine runs_storeResult past2 hF hrep2 (Rep.words_of_isWord hword) hw ?_ hstore
    rw [hr0, value, words_eq_singleton hword, words_eq_singleton (rightRep_isWord op hword),
      set_regs_self, set_regs_of_ne _ _ (by decide), set_regs_self,
      word_eq_of_ne_float (ne_float_of_isWord (rightRep_isWord op hword)) (ne_float_of_isWord hword)]
    rfl
  · unfold selectBinary at h
    rw [if_neg hword] at h
    obtain ⟨address, _, haddress, h1⟩ := bindState_eq_ok.mp h
    obtain ⟨_, _, hleft, h2⟩ := bindState_eq_ok.mp h1
    obtain ⟨_, _, hright, h3⟩ := bindState_eq_ok.mp h2
    obtain ⟨_, _, hname, hcode⟩ := bindState_eq_ok.mp h3
    cases hcode
    obtain ⟨hplace, rfl⟩ := lift_eq_ok.mp haddress
    obtain ⟨hop, rfl⟩ := lift_eq_ok.mp hname
    rw [Bool.not_eq_true] at hword
    rw [List.append_assoc address, List.append_assoc address]
    refine .append_of_perform (perform_addressOfPlace past hF hrep (by decide) hw.reads hplace) ?_
    have hb' := rightRep_isBlock op hb
    refine (runs_operandAddresses past hF (hrep.set hF _ (by decide)) (Rep.words_pos hb)
      (Rep.words_le hb) (Rep.words_pos hb') (Rep.words_le hb') (by decide) (by decide) (by decide)
      hlhs hrhs hspills hleft hright).append ?_
    rintro past1 ms1 ⟨hrep1, hregs, hheld, hheld'⟩
    refine runs_helper past1 hF hhelp hrep1 (.binary op rep) (name_binary hop hword hb) hw ?_
    intro _ hobeyed
    have hr0 := hregs .r0 (by decide) (by decide)
    have hvalue : (binary op rep dst lhs rhs).value (F.model E A) st =
        A.binary op rep (wordsAt ms1.mem (ms1.regs .r1) rep.words)
          (wordsAt ms1.mem (ms1.regs .r2) (rightRep op rep).words) := by
      funext i
      rw [hheld.wordsAt, hheld'.wordsAt]
      exact if_neg (by simp [hword])
    rw [set_regs_self] at hr0
    rw [hvalue, ← hr0]
    exact hobeyed

end Select

end W16Compiler
