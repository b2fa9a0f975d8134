import W16Compiler.Proofs.Select.Conversions

/-!
# Exception records and calls

A record is pushed by filling in its slot and pointing the mark to it, and popped by pointing the mark
to the record before. A throw pops the innermost record and goes to its handler with the stack pointer
of the record. The link of a cleanup holds the address of the label where it goes on.

A call is made with the stack pointer at the argument words and with the target that the node names.
What the callee leaves behind is assumed to stand for the answer that the flow list gets. The argument
words are released, and the registers of the result are stored.
-/

namespace W16Compiler

open Function MachineState Instr

variable {F : FrameMap} {E : Surroundings} {A : Arithmetic} {top : Word} {live : Cell → Prop} {st : PrimState Word}
  {ms ms' : MachineState}

namespace FrameMap

variable {r s : SlotId}

/-! ## Words set aside -/

lemma Fits.slot_ne_mark (hF : F.Fits E) (hk : k < F.words s) : F.slot s + .ofNat 16 k ≠ E.symbol Select.tryMark := by
  intro heq
  have hcell := F.cell_slot s k hk
  rw [heq, hF.mark] at hcell
  cases hcell

lemma slot_ne_slot (hk : k < F.words r) (hj : j < F.words s) (hne : r ≠ s) :
    F.slot r + .ofNat 16 k ≠ F.slot s + .ofNat 16 j := by
  intro heq
  have hcell := F.cell_slot r k hk
  rw [heq, F.cell_slot s j hj] at hcell
  cases hcell
  exact hne rfl

lemma slot_zero (s : SlotId) : F.slot s + .ofNat 16 0 = F.slot s := by simp

lemma Represents.setSp (h : F.Represents E top live st ms) {sp : Word} (hroom : F.Room E sp)
    (hsp : ms'.sp = sp) (hmem : ms'.mem = ms.mem) :
    F.Represents E top (F.after live (fun _ ↦ False) sp) { st with sp } ms' where
  mem c hc := by rw [hmem, h.mem c (hc.1.resolve_right id)]
  data c hc := h.data c (hc.1.resolve_right id)
  kept _ hc := hc.2
  sp := hsp
  room := hroom
  mark := by rw [hmem, h.mark]
  records := hmem ▸ h.records
  links := hmem ▸ h.links

variable (hF : F.Fits E) (h : F.Represents E top live st ms)

include hF h

lemma Represents.setMark (mark : Option SlotId) (hsp : ms'.sp = ms.sp)
    (hmem : ms'.mem = update ms.mem (E.symbol Select.tryMark) (F.markAddress top mark)) :
    F.Represents E top live { st with mark } ms' where
  mem c hc := by rw [hmem, update_of_ne ((h.data c hc).mark_ne_address hF).symm, h.mem c hc]
  data := h.data
  kept := h.kept
  sp := hsp.trans h.sp
  room := h.room
  mark := by rw [hmem, update_self]
  records r record hr := by
    have hrec := h.records r record hr
    refine hrec.congr fun k hk ↦ ?_
    rw [hmem, update_of_ne (hF.slot_ne_mark (lt_of_lt_of_le hk hrec.words))]
  links s l hs := by
    have hlink := h.links s l hs
    have h0 := hF.slot_ne_mark hlink.words
    rw [slot_zero] at h0
    exact hlink.congr (by rw [hmem, update_of_ne h0])

lemma Represents.setRecord (hsp : ms'.sp = ms.sp) {record : TryRecord} (hheld : F.HoldsRecord E top ms'.mem r record)
    (hmem : ∀ a, (∀ k, k < 3 → a ≠ F.slot r + .ofNat 16 k) → ms'.mem a = ms.mem a) :
    F.Represents E top live { st with records := update st.records r (some record) } ms' where
  mem c hc := by
    refine (hmem _ fun k hk heq ↦ ?_).trans (h.mem c hc)
    exact (h.data c hc).slot_ne_address (lt_of_lt_of_le hk hheld.words) (by simp [hheld.use]) heq.symm
  data := h.data
  kept := h.kept
  sp := hsp.trans h.sp
  room := h.room
  mark := by
    refine (hmem _ fun k hk heq ↦ ?_).trans h.mark
    exact hF.slot_ne_mark (lt_of_lt_of_le hk hheld.words) heq.symm
  records q old hq := by
    by_cases hqr : q = r
    · rw [hqr] at hq ⊢
      have heq : record = old := by
        have := (update_self r (some record) st.records).symm.trans hq
        cases this
        rfl
      rw [← heq]
      exact hheld
    · have hold : st.records q = some old := (update_of_ne hqr _ _).symm.trans hq
      have hrec := h.records q old hold
      exact hrec.congr fun k hk ↦ hmem _ fun j hj ↦
        slot_ne_slot (lt_of_lt_of_le hk hrec.words) (lt_of_lt_of_le hj hheld.words) hqr
  links s l hs := by
    have hlink := h.links s l hs
    refine hlink.congr (hmem _ fun j hj ↦ ?_)
    have hne : s ≠ r := by
      rintro rfl
      have huse := hlink.use
      rw [hheld.use] at huse
      cases huse
    rw [← slot_zero s]
    exact slot_ne_slot hlink.words (lt_of_lt_of_le hj hheld.words) hne

lemma Represents.fillRecord (hu : F.use r = .record) (hw : 3 ≤ F.words r) (hplaced : E.Placed handler) :
    F.Represents E top live { st with records := update st.records r (some ⟨st.mark, handler, st.sp⟩) }
      (((ms.put (F.slot r) (F.markAddress top st.mark)).put (F.slot r + 1) (E.label handler)).put
        (F.slot r + 2) st.sp) := by
  have h01 : F.slot r ≠ F.slot r + 1 := by simp
  have h02 : F.slot r ≠ F.slot r + 2 := by simp
  have h12 : F.slot r + 1 ≠ F.slot r + 2 := by simp
  have hheld : F.HoldsRecord E top (((ms.put (F.slot r) (F.markAddress top st.mark)).put (F.slot r + 1)
      (E.label handler)).put (F.slot r + 2) st.sp).mem r ⟨st.mark, handler, st.sp⟩ := by
    refine ⟨hu, hw, h.room, ?_, ?_, hplaced, ?_⟩
    · simp only [put_mem, update_of_ne h02, update_of_ne h01, update_self]
    · simp only [put_mem, update_of_ne h12, update_self]
    · simp only [put_mem, update_self]
  refine h.setRecord hF ?_ hheld fun a ha ↦ ?_
  · rfl
  have h0 := ha 0 (by decide)
  have h1 : a ≠ F.slot r + 1 := ha 1 (by decide)
  have h2 : a ≠ F.slot r + 2 := ha 2 (by decide)
  rw [slot_zero] at h0
  simp only [put_mem, update_of_ne h2, update_of_ne h1, update_of_ne h0]

lemma Represents.setLink (hu : F.use s = .link) (hw : 1 ≤ F.words s) (hplaced : E.Placed l) (hsp : ms'.sp = ms.sp)
    (hmem : ms'.mem = update ms.mem (F.slot s) (E.label l)) :
    F.Represents E top live { st with links := update st.links s (some l) } ms' where
  mem c hc := by
    have hne := (h.data c hc).slot_ne_address hw (by simp [hu])
    rw [slot_zero] at hne
    rw [hmem, update_of_ne hne.symm, h.mem c hc]
  data := h.data
  kept := h.kept
  sp := hsp.trans h.sp
  room := h.room
  mark := by
    have hne := hF.slot_ne_mark hw
    rw [slot_zero] at hne
    rw [hmem, update_of_ne hne.symm, h.mark]
  records r record hr := by
    have hrec := h.records r record hr
    have hne : r ≠ s := by
      rintro rfl
      have huse := hrec.use
      rw [hu] at huse
      cases huse
    refine hrec.congr fun k hk ↦ ?_
    have hword := slot_ne_slot (lt_of_lt_of_le hk hrec.words) hw hne
    rw [slot_zero] at hword
    rw [hmem, update_of_ne hword]
  links q old hq := by
    by_cases hqs : q = s
    · rw [hqs] at hq ⊢
      have hl : old = l := by
        have := (update_self s (some l) st.links).symm.trans hq
        cases this
        rfl
      rw [hl]
      exact ⟨hu, hw, by rw [hmem, update_self], hplaced⟩
    · have hold : st.links q = some old := (update_of_ne hqs _ _).symm.trans hq
      have hlink := h.links q old hold
      have hword := slot_ne_slot hlink.words hw hqs
      rw [slot_zero, slot_zero] at hword
      exact hlink.congr (by rw [hmem, update_of_ne hword])

end FrameMap

namespace Select

/-! ## Code -/

/-- The record at an address is off the chain, and its handler and stack pointer are in place. -/
structure Popped (E : Surroundings) (a value : Word) (ms ms' : MachineState) : Prop where
  value : ms'.regs .r0 = value
  mem : ms'.mem = Function.update ms.mem (E.symbol tryMark) (ms.mem a)
  target : ms'.regs .r1 = ms'.mem (a + 1)
  sp : ms'.sp = ms'.mem (a + 2)

variable (past : List MachineEvent)

lemma act_jumpReg {past : List MachineEvent} (hplaced : E.Placed l)
    (h : ms.regs reg = E.label l) (targets : List Label) :
    (jumpReg reg targets).act E (fun _ ↦ true) past ms = (none, .goto l ms) := by
  rw [Surroundings.Placed] at hplaced
  simp [act, h, hplaced]

lemma address_slot_zero (hF : F.Fits E) (ms : MachineState) (s : SlotId) :
    ms.address E .sp (.slot s 0) = F.slot s := by
  rw [address_sp hF, FrameMap.displacement, word_add_sub_cancel]
  simp

variable (hF : F.Fits E) (hrep : F.Represents E top live st ms) {record : SlotId}

include hF hrep

lemma leads_throw (hop : ∀ c ∈ op.reads (F.model E A) st 0, live c) {code : Instrs} (h : selectThrow op = .ok code) :
    Leads E past ms code fun m ↦ ∃ past' ms',
      Popped E (F.markAddress top st.mark) (op.word (F.model E A) st (.word true) 0) ms ms' ∧
        m = ((jumpReg .r1 []).act E (fun _ ↦ true) past' ms').2 := by
  rw [selectThrow] at h
  obtain ⟨_, hload, hcode⟩ := bind_eq_ok.mp h
  cases hcode
  have hrun := perform_loadWord past hF hrep op hop hload (by decide) (by decide)
  refine .append_of_perform hrun ?_
  refine .cons_result rfl (.cons_result rfl (.cons_result rfl (.cons_result rfl (.cons_store
    (.cons_result rfl (.cons_result rfl (.singleton ⟨_, _, ⟨?_, ?_, ?_, ?_⟩, rfl⟩)))))))
  all_goals simp [value, address, Surroundings.displacement, hrep.mark]

lemma Popped.represents {r : SlotId}
    (hmark : st.mark = some r) {record : TryRecord} (hrecord : st.records r = some record)
    (h : Popped E (F.markAddress top st.mark) v ms ms') : F.Represents E top (F.after live (fun _ ↦ False) record.sp)
      { st with mark := record.outer, sp := record.sp } ms' ∧ ms'.regs .r1 = E.label record.handler := by
  have hheld := hrep.records r record hrecord
  rw [hmark] at h
  have hmem : ms'.mem = update ms.mem (E.symbol tryMark) (F.markAddress top record.outer) := by
    rw [h.mem, ← hheld.outer]
    rfl
  have hword : ∀ k, k < 3 → ms'.mem (F.slot r + .ofNat 16 k) = ms.mem (F.slot r + .ofNat 16 k) := by
    intro k hk
    rw [hmem, update_of_ne (hF.slot_ne_mark (lt_of_lt_of_le hk hheld.words))]
  have hsp : ms'.sp = record.sp := h.sp.trans ((hword 2 (by decide)).trans hheld.sp)
  constructor
  · exact (hrep.setMark hF record.outer (put_sp ms _ _) rfl).setSp hheld.room hsp hmem
  · exact h.target.trans ((hword 1 (by decide)).trans hheld.handler)

lemma runs_tryBegin (hu : F.use record = .record) (hw : 3 ≤ F.words record) (hplaced : E.Placed handler) :
    Runs E past ms (selectTryBegin record handler) (F.Represents E top live { st with
        mark := some record
        records := update st.records record (some ⟨st.mark, handler, st.sp⟩) }) := by
  refine .cons_result rfl (.cons_result rfl (.cons_result rfl (.cons_store (.cons_result rfl (.cons_store
    (.cons_store (.cons_store (.nil ?_))))))))
  have hfilled := hrep.fillRecord hF hu hw hplaced
  refine hfilled.setMark hF (some record) ?_ ?_
  · simp
  · have hsp : ms.regs .sp = st.sp := hrep.sp
    simp [value, address_slot_zero hF, address_num, hrep.mark, hsp, FrameMap.markAddress]

lemma runs_tryEnd {r : TryRecord} (hr : st.records record = some r) :
    Runs E past ms (selectTryEnd record) (F.Represents E top live { st with mark := r.outer }) := by
  have hheld := hrep.records record r hr
  refine .cons_result rfl (.cons_result rfl (.cons_store (.nil ?_)))
  refine hrep.setMark hF r.outer ?_ ?_
  · simp
  · simp [value, address_slot_zero hF, address_num, hheld.outer]

lemma runs_setLink (hu : F.use link = .link) (hw : 1 ≤ F.words link) (hplaced : E.Placed resume) :
    Runs E past ms [.loadLabel .r0 resume false, .store .r0 .sp (.slot link 0)] (F.Represents E top live
      { st with links := update st.links link (some resume) }) := by
  refine .cons_result rfl (.cons_store (.nil (hrep.setLink hF hu hw hplaced ?_ ?_)))
  · simp
  · simp [value, address_slot_zero hF]

end Select

def resultWords (result : Option (Place × Rep)) : Nat := (result.map (·.2.words)).getD 0

def CallTarget.shown (M : Model Word) (st : PrimState Word) : CallTarget → String ⊕ Word
  | .direct symbol => .inl symbol
  | .indirect pointer => .inr (pointer.pointer M st)

/-- What a callee leaves behind stands for the answer to a call that was made in a state. Words that
are in `left` are known afterwards. -/
def FrameMap.Answers (F : FrameMap) (E : Surroundings) (top : Word) (left : Cell → Prop)
    (st : PrimState Word) (result : Option (Place × Rep)) (reply : Reply) : CallAnswer Word → Prop
  | .returns change values =>
    reply.exit = .returns ∧ F.Represents E top left (st.changed change) (reply.state st.sp) ∧
      (1 ≤ resultWords result → reply.regs .r0 = values 0) ∧
      (2 ≤ resultWords result → reply.regs .r1 = values 1)
  | .throws change value =>
    match st.mark with
    | none =>
      reply.exit = .unwinds ∧ ∀ c, left c → reply.mem (F.address c) = (st.changed change).mem c
    | some r => ∀ record, st.records r = some record →
      reply.exit = .caught record.handler record.sp ∧ reply.regs .r0 = value ∧
        F.Represents E top left { st.changed change with mark := record.outer, sp := record.sp }
          (reply.state record.sp)

namespace Select

variable {left : Cell → Prop}

/-! ## The stack pointer -/

variable (past : List MachineEvent)

lemma runs_entry (hF : F.Fits E) (hrep : F.Represents E top live st (ms.set .sp (ms.sp - F.size))) :
    Runs E past ms [.addImm .sp .sp (.frame (-1))] (F.Represents E top live st) := by
  refine .cons_result rfl (.nil (hrep.congr hF ?_ rfl))
  have hminus : BitVec.ofInt 16 (-1) = -1 := rfl
  rw [set_sp_self, set_sp_self, value, address_sp hF, FrameMap.displacement, hminus]
  grind

/-- The stack pointer goes down before the arguments of a call, and up again behind it. -/
lemma runs_moveSp (hrep : F.Represents E top live st ms) (n : Nat) {sp : Word} (hk : n = 0 → k = 0)
    (hsp : sp = st.sp + .ofInt 16 k) (hroom : F.Room E sp) :
    Runs E past ms (if n > 0 then [.addImm .sp .sp (.num (wrap32 k))] else []) fun ms' ↦
      F.Represents E top (F.after live (fun _ ↦ False) sp) { st with sp } ms' ∧
        ∀ r, r ≠ .sp → ms'.regs r = ms.regs r := by
  have hold : ms.regs .sp = st.sp := hrep.sp
  split
  · refine .cons_result rfl (.nil ⟨hrep.setSp hroom ?_ rfl, fun r hr ↦ set_regs_of_ne ms _ hr⟩)
    rw [set_sp_self, value, address_num, ofInt_wrap32, hold, hsp]
  · refine .nil ⟨hrep.setSp hroom ?_ rfl, fun _ _ ↦ rfl⟩
    rw [hrep.sp, hsp, hk (by omega)]
    exact (BitVec.add_zero st.sp).symm

/-! ## Results of calls -/

inductive StoresResult : Option (Place × Rep) → Instrs → Prop where
  | none : StoresResult none []
  | one {dst : Place} {rep : Rep} {store : Instrs} (h1 : rep.words = 1)
    (hstore : storeWord dst .r0 0 = .ok store) : StoresResult (some (dst, rep)) store
  | two {dst : Place} {rep : Rep} {low high : Instrs} (h2 : rep.words = 2)
    (hlow : storeWord dst .r0 0 = .ok low) (hhigh : storeWord dst .r1 1 = .ok high) :
    StoresResult (some (dst, rep)) (low ++ high)

def resultCells (M : Model Word) (st : PrimState Word) (result : Option (Place × Rep)) (c : Cell) : Prop :=
  ∃ dst rep, result = some (dst, rep) ∧ dst.Covers M st rep.words c

variable {result : Option (Place × Rep)} {code load : Instrs} {value : Option (Operand × Rep)} {target : CallTarget}
  {words : Nat}

/-! ## Calls and returns -/

inductive CallsTarget : CallTarget → Instrs → Instr → Prop where
  | direct (symbol : String) : CallsTarget (.direct symbol) [] (.call symbol)
  | indirect {pointer : Operand} {load : Instrs} (hload : loadWord pointer (.word false) 0 .r4 = .ok load) :
    CallsTarget (.indirect pointer) load (.callReg .r4)

def targetReads (M : Model Word) (st : PrimState Word) : CallTarget → List Cell
  | .direct _ => []
  | .indirect pointer => pointer.reads M st 0

def callBy (call : Instrs) (words : Nat) (result : Option (Place × Rep)) : Except InternalFault Instrs := do
  let store ← match result with
    | none => pure []
    | some (dst, rep) =>
      match rep.words with
      | 1 => storeWord dst .r0 0
      | 2 => do pure ((← storeWord dst .r0 0) ++ (← storeWord dst .r1 1))
      | n => throw (.resultWords n)
  return call ++ (if words > 0 then [.addImm .sp .sp (.num (wrap32 words))] else []) ++ store

lemma callBy_cases {call : Instrs} (h : callBy call words result = .ok code) : ∃ store, StoresResult result store ∧
      code = call ++ ((if words > 0 then [.addImm .sp .sp (.num (wrap32 words))] else []) ++ store) := by
  unfold callBy at h
  cases result with
  | none =>
    cases h
    exact ⟨[], .none, List.append_assoc _ _ _⟩
  | some pair =>
    obtain ⟨dst, rep⟩ := pair
    simp only at h
    split at h
    · rename_i h1
      obtain ⟨store, hs, hcode⟩ := bind_eq_ok.mp h
      cases hcode
      exact ⟨store, .one h1 hs, List.append_assoc _ _ _⟩
    · rename_i h2
      obtain ⟨low, hlow, hrest⟩ := bind_eq_ok.mp h
      obtain ⟨high, hhigh, hcode⟩ := bind_eq_ok.mp hrest
      cases hcode
      exact ⟨low ++ high, .two h2 hlow hhigh, List.append_assoc _ _ _⟩
    · cases h

lemma selectCall_cases (h : selectCall target words result = .ok code) :
    ∃ load call store, CallsTarget target load call ∧ StoresResult result store ∧
      code = load ++ (call :: ((if words > 0 then [.addImm .sp .sp (.num (wrap32 words))] else []) ++ store)) := by
  cases target with
  | direct symbol =>
    have hby : callBy [.call symbol] words result = .ok code := h
    obtain ⟨store, hs, rfl⟩ := callBy_cases hby
    exact ⟨[], _, store, .direct symbol, hs, rfl⟩
  | indirect pointer =>
    obtain ⟨load, hload, hrest⟩ := bind_eq_ok.mp h
    have hby : callBy (load ++ [.callReg .r4]) words result = .ok code := hrest
    obtain ⟨store, hs, rfl⟩ := callBy_cases hby
    refine ⟨load, _, store, .indirect hload, hs, ?_⟩
    rw [List.append_assoc]
    rfl

def returnedWords (M : Model Word) (st : PrimState Word) (value : Option (Operand × Rep)) : List Word :=
  (value.map fun (op, rep) ↦ op.words M st rep).getD []

inductive LoadsResult : Option (Operand × Rep) → Instrs → Prop where
  | none : LoadsResult none []
  | one {op : Operand} {rep : Rep} {load : Instrs} (h1 : rep.words = 1)
    (hload : loadWord op rep 0 .r0 = .ok load) : LoadsResult (some (op, rep)) load
  | two {op : Operand} {rep : Rep} {low high : Instrs} (h2 : rep.words = 2)
    (hlow : loadWord op rep 0 .r0 = .ok low) (hhigh : loadWord op rep 1 .r1 = .ok high) :
    LoadsResult (some (op, rep)) (low ++ high)

lemma selectReturn_cases (h : selectReturn value = .ok code) : ∃ load, LoadsResult value load ∧ code = load ++
      [.addImm .sp .sp (.frame 1), .ret ((value.map fun v ↦ v.2.words == 2).getD false)] := by
  unfold selectReturn at h
  cases value with
  | none =>
    cases h
    exact ⟨[], .none, rfl⟩
  | some pair =>
    obtain ⟨op, rep⟩ := pair
    simp only at h
    split at h
    · rename_i h1
      obtain ⟨load, hload, hcode⟩ := bind_eq_ok.mp h
      cases hcode
      exact ⟨load, .one h1 hload, rfl⟩
    · rename_i h2
      obtain ⟨low, hlow, hrest⟩ := bind_eq_ok.mp h
      obtain ⟨high, hhigh, hcode⟩ := bind_eq_ok.mp hrest
      cases hcode
      exact ⟨low ++ high, .two h2 hlow hhigh, rfl⟩
    · cases h

structure Returning (M : Model Word) (st : PrimState Word) (value : Option (Operand × Rep))
    (ms : MachineState) : Prop where
  low : ∀ v, (returnedWords M st value)[0]? = some v → ms.regs .r0 = v
  high : (returnedWords M st value)[1]? =
    if (value.map fun v ↦ v.2.words == 2).getD false then some (ms.regs .r1) else none

variable (hF : F.Fits E) (hrep : F.Represents E top live st ms)

include hF hrep

lemma runs_storesResult {store : Instrs} (h : StoresResult result store)
    (hr0 : 1 ≤ resultWords result → ms.regs .r0 = values 0) (hr1 : 2 ≤ resultWords result → ms.regs .r1 = values 1)
    (hw : ∀ dst rep, result = some (dst, rep) → Writable F E A live st rep.words dst) :
    Runs E past ms store (F.Represents E top
      (F.after live (resultCells (F.model E A) st result) st.sp) (st.store (F.model E A) result values)) := by
  have hcells : ∀ dst rep c, F.after live (resultCells (F.model E A) st (some (dst, rep))) st.sp c →
      F.after live (dst.Covers (F.model E A) st rep.words) st.sp c := by
    rintro dst rep c ⟨hlive | ⟨_, _, heq, hcovers⟩, hfree⟩
    · exact ⟨.inl hlive, hfree⟩
    · cases heq
      exact ⟨.inr hcovers, hfree⟩
  cases h with
  | none =>
    refine .nil (hrep.mono fun c hc ↦ hc.1.resolve_right ?_)
    rintro ⟨_, _, heq, -⟩
    cases heq
  | @one dst rep store h1 hstore =>
    have hwrite := hw dst rep rfl
    have hwords : resultWords (some (dst, rep)) = 1 := h1
    rw [h1] at hwrite
    refine (runs_storeNext past hF hrep.kept hwrite one_pos (.start hrep A dst values) (by decide)
      (hr0 (by omega)) hstore).mono fun ms' hms ↦ ?_
    rw [PrimState.store, h1]
    refine FrameMap.Represents.mono hms.1 fun c hc ↦ ?_
    have hcovered := hcells dst rep c hc
    rwa [h1] at hcovered
  | @two dst rep _ _ h2 hlow hhigh =>
    have hwrite := hw dst rep rfl
    have hwords : resultWords (some (dst, rep)) = 2 := h2
    rw [h2] at hwrite
    refine (runs_storeNext past hF hrep.kept hwrite (by decide) (.start hrep A dst values) (by decide)
      (hr0 (by omega)) hlow).append ?_
    rintro past1 _ ⟨hstored, hregs⟩
    refine (runs_storeNext past1 hF hrep.kept hwrite (by decide) hstored (by decide)
      ((hregs .r1 (by decide)).trans (hr1 (by omega))) hhigh).mono fun ms' hms ↦ ?_
    rw [PrimState.store, h2]
    refine FrameMap.Represents.mono hms.1 fun c hc ↦ ?_
    have hcovered := hcells dst rep c hc
    rwa [h2] at hcovered

lemma leads_callInstr {call : Instr} (h : CallsTarget target load call)
    (hreads : ∀ c ∈ targetReads (F.model E A) st target, live c)
    (hgoal : ∀ ms' reply, F.Represents E top live st ms' →
      E.answer (ms'.callEvent (target.shown (F.model E A) st) :: past) = reply →
      (reply.exit = .returns → ∀ past', Leads E past' (reply.state ms'.sp) rest goal) ∧
        (reply.exit ≠ .returns → goal (ms'.afterCall reply))) : Leads E past ms (load ++ (call :: rest)) goal := by
  have hcall : ∀ ms', F.Represents E top live st ms' → ∀ i : Instr, i.act E (fun _ ↦ true) past ms' =
        (some (ms'.callEvent (target.shown (F.model E A) st)),
          ms'.afterCall (E.answer (ms'.callEvent (target.shown (F.model E A) st) :: past))) →
      Leads E past ms' (i :: rest) goal := by
    intro ms' hrep' i hact
    obtain ⟨hreturns, hleaves⟩ := hgoal ms' _ hrep' rfl
    generalize E.answer (ms'.callEvent (target.shown (F.model E A) st) :: past) = reply at *
    rw [Leads, perform, hact]
    cases hexit : reply.exit with
    | returns =>
      rw [MachineState.afterCall, hexit]
      exact hreturns hexit _
    | caught l sp | unwinds =>
      have hmove := hleaves (by simp [hexit])
      rw [MachineState.afterCall, hexit] at hmove ⊢
      exact hmove
  cases h with
  | direct symbol => exact hcall ms hrep _ rfl
  | @indirect pointer _ hload =>
    have hrun := perform_loadWord past hF hrep pointer hreads hload (by decide) (by decide)
    refine .append_of_perform hrun (hcall _ (hrep.set hF _ (by decide)) _ ?_)
    rw [act, set_regs_self]
    rfl

lemma runs_loadsResult (h : LoadsResult value load)
    (hreads : ∀ op rep, value = some (op, rep) → ∀ i, i < rep.words → ∀ c ∈ op.reads (F.model E A) st i, live c) :
    Runs E past ms load fun ms' ↦ F.Represents E top live st ms' ∧ Returning (F.model E A) st value ms' := by
  cases h with
  | none => exact .nil ⟨hrep, by constructor <;> simp [returnedWords]⟩
  | @one op rep _ h1 hload =>
    have hrun := perform_loadWord past hF hrep op (hreads op rep rfl 0 (by omega)) hload (by decide) (by decide)
    have hwords : returnedWords (F.model E A) st (some (op, rep)) = [op.word (F.model E A) st rep 0] := by
      simp [returnedWords, Operand.words, h1]
    refine .of_perform hrun ⟨hrep.set hF _ (by decide), ?_⟩
    constructor <;> simp [hwords, h1]
  | @two op rep _ _ h2 hlow hhigh =>
    have hrun := perform_loadWord past hF hrep op (hreads op rep rfl 0 (by omega)) hlow (by decide) (by decide)
    have hrep1 := hrep.set hF (r := .r0) (op.word (F.model E A) st rep 0) (by decide)
    have hrun1 := perform_loadWord past hF hrep1 op (hreads op rep rfl 1 (by omega)) hhigh (by decide) (by decide)
    have hwords : returnedWords (F.model E A) st (some (op, rep)) =
        [op.word (F.model E A) st rep 0, op.word (F.model E A) st rep 1] := by
      simp [returnedWords, Operand.words, h2, List.range_succ]
    refine .append_of_perform hrun (.of_perform hrun1 ⟨hrep1.set hF _ (by decide), ?_⟩)
    constructor <;> simp [hwords, h2]

end Select

end W16Compiler
