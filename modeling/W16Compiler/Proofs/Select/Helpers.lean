import W16Compiler.Proofs.Select.Operands

/-!
# Helpers

Helpers take operands by address. The address of a place is loaded; a constant goes to a slot that
selection adds for it. Such slots hold nothing else, so that one operand stays where it is while the
next one is spilled.

Multiplication, division and everything on values of more than one word is done by helpers. They take
words or addresses in the first registers, read their operands, write their result and leave all other
memory above the stack pointer as it is. What they compute is the arithmetic of the model.
-/

namespace W16Compiler

open Function MachineState List

variable {F : FrameMap} {E : Surroundings} {A : Arithmetic} {top : Word} {live : Cell → Prop} {st : PrimState Word}
  {ms ms' : MachineState} {n : Nat} {reg : Reg} {rep : Rep}

namespace Select

/-- The words that a node reads of an operand are known, and there are no more of an address than it
has. -/
structure Readable (M : Model Word) (live : Cell → Prop) (st : PrimState Word) (rep : Rep)
    (op : Operand) : Prop where
  reads : ∀ i, i < rep.words → ∀ c ∈ op.reads M st i, live c
  words : ∀ base offset, op = .address base offset → rep.words = 1

/-- A register holds an address where the words of a value stand, apart from slots that are added
from number `n` on. -/
def HeldAt (F : FrameMap) (n : Nat) (ms : MachineState) (a : Word) (words : Nat) (value : Nat → Word) : Prop :=
  ∀ i, i < words → F.Settled n (a + .ofNat 16 i) ∧ ms.mem (a + .ofNat 16 i) = value i

/-- What changes when constants are spilled: slots from number `n` on and one register. -/
structure Spilled (F : FrameMap) (n : Nat) (reg : Reg) (ms ms' : MachineState) : Prop where
  regs : ∀ r, r ≠ reg → ms'.regs r = ms.regs r
  mem : ∀ a, F.Settled n a → ms'.mem a = ms.mem a

variable (past : List MachineEvent)

lemma perform_storeSlot (hF : F.Fits E) (rs : Reg) (s : SlotId) (k : Nat) :
    perform E past ms [.store rs .sp (.slot s k)] = (.stored (F.slot s + .ofNat 16 k) (ms.regs rs) :: past,
        .next { ms with mem := update ms.mem (F.slot s + .ofNat 16 k) (ms.regs rs) }) := by
  rw [perform_singleton, Instr.act, address_sp hF, FrameMap.displacement, word_add_sub_cancel, BitVec.ofInt_natCast]
  rfl

variable {op : Operand} {code : Instrs} {slots slots' slots1 slots2 : Array Slot}

def spillWord (op : Operand) (rep : Rep) (reg : Reg) (s : SlotId) (i : Nat) : Except InternalFault Instrs := do
  return (← loadWord op rep i reg) ++ [.store reg .sp (.slot s i)]

lemma Spilled.set_reg (h : Spilled F n reg ms ms') (v : Word) : Spilled F n reg ms (ms'.set reg v) :=
  ⟨fun r hr ↦ by rw [set_regs_of_ne _ _ hr, h.regs r hr], h.mem⟩

def spilledWords (rep : Rep) : Operand → Nat
  | .address .. => 1
  | _ => rep.words

lemma operandAddress_cases (h : operandAddress op rep reg slots = .ok (code, slots')) :
    (∃ place, op = .load place ∧ addressOfPlace place reg = .ok code ∧ slots' = slots) ∨
    ∃ pieces, (range (spilledWords rep op)).mapM (spillWord op rep reg ⟨slots.size⟩) = .ok pieces ∧
      code = pieces.flatten ++ [addressOfBase (.slot ⟨slots.size⟩) 0 reg] ∧
      slots' = slots.push (.sized (spilledWords rep op) true) := by
  have hconst : (do
      let stores ← (range rep.words).mapM fun i ↦ do
        return (← loadWord op rep i reg) ++ [Instr.store reg .sp (.slot ⟨slots.size⟩ i)]
      return stores.flatten ++ [addressOfBase (.slot ⟨slots.size⟩) 0 reg] : SelectM Instrs)
        (slots.push (.sized rep.words true)) = .ok (code, slots') →
      ∃ pieces, (range rep.words).mapM (spillWord op rep reg ⟨slots.size⟩) = .ok pieces ∧
        code = pieces.flatten ++ [addressOfBase (.slot ⟨slots.size⟩) 0 reg] ∧
        slots' = slots.push (.sized rep.words true) := by
    intro hrun
    obtain ⟨pieces, _, hpieces, hcode⟩ := bindState_eq_ok.mp hrun
    cases hcode
    obtain ⟨hpieces', hslots⟩ := (mapMState_eq_ok fun i s r ↦ liftBind_eq_ok).mp hpieces
    exact ⟨pieces, hpieces', rfl, hslots⟩
  cases op with
  | load place =>
    obtain ⟨hcode, hslots⟩ := lift_eq_ok.mp h
    exact .inl ⟨place, rfl, hcode, hslots⟩
  | imm value | float x => exact .inr (hconst h)
  | address base offset =>
    cases h
    exact .inr ⟨[[addressOfBase base offset reg, .store reg .sp (.slot ⟨slots.size⟩ 0)]], rfl, rfl, rfl⟩

lemma Readable.spilledWords_eq (h : Readable M live st rep op) : spilledWords rep op = rep.words := by
  cases op with
  | address base offset => exact (h.words base offset rfl).symm
  | _ => rfl

lemma HeldAt.spilled {words : Nat} {value : Nat → Word} (h : HeldAt F n ms a words value)
    (hs : Spilled F n reg ms ms') (hnm : n ≤ m) : HeldAt F m ms' a words value := by
  intro i hi
  obtain ⟨hset, hmem⟩ := h i hi
  exact ⟨hset.mono hnm, by rw [hs.mem _ hset, hmem]⟩

def Grows (slots slots' : Array Slot) : Prop :=
  ∀ (k : Nat) slot, slots[k]? = some slot → slots'[k]? = some slot

lemma Grows.size_le (h : Grows slots slots') : slots.size ≤ slots'.size := by
  rcases Nat.eq_zero_or_pos slots.size with h0 | hpos
  · omega
  · have hlast := h (slots.size - 1) _ (Array.getElem?_eq_getElem (by omega))
    obtain ⟨_, -⟩ := Array.getElem?_eq_some_iff.mp hlast
    omega

lemma Grows.refl (slots : Array Slot) : Grows slots slots := fun _ _ h ↦ h

lemma Grows.trans (h : Grows slots slots1) (h' : Grows slots1 slots2) :
    Grows slots slots2 := fun k slot hk ↦ h' k slot (h k slot hk)

lemma operandAddress_grows (h : operandAddress op rep reg slots = .ok (code, slots')) : Grows slots slots' := by
  rcases operandAddress_cases h with ⟨_, -, -, rfl⟩ | ⟨_, -, -, rfl⟩
  · exact .refl _
  · intro k _ hk
    obtain ⟨hlt, -⟩ := Array.getElem?_eq_some_iff.mp hk
    rw [Array.getElem?_push_lt hlt, ← Array.getElem?_eq_getElem hlt, hk]

lemma spills_split (h : Grows slots slots1) (h' : Grows slots1 slots2) (hs : F.Spills slots slots2) :
    F.Spills slots slots1 ∧ F.Spills slots1 slots2 := by
  refine ⟨fun k slot hk hk' ↦ hs k slot hk (h' k slot hk'), fun k slot hk hk' ↦ hs k slot ?_ hk'⟩
  cases hslot : slots[k]? with
  | none => rfl
  | some old =>
    rw [h k old hslot] at hk
    cases hk

variable (hF : F.Fits E) (hrep : F.Represents E top live st ms) {s : SlotId}

include hF hrep

lemma runs_spillWord (hi : i < 4) {reg : Reg} (hreg : reg ≠ .sp) (hreads : ∀ c ∈ op.reads (F.model E A) st i, live c)
    (h : loadWord op rep i reg = .ok code) (hu : F.use s = .spill) (hs : i < F.words s) :
    Runs E past ms (code ++ [.store reg .sp (.slot s i)]) fun ms' ↦
      F.Represents E top live st ms' ∧ (∀ r, r ≠ reg → ms'.regs r = ms.regs r) ∧
      ms'.mem = update ms.mem (F.slot s + .ofNat 16 i) (op.word (F.model E A) st rep i) := by
  have hload := perform_loadWord past hF hrep op hreads h hi hreg
  refine .append_of_perform hload (.of_perform (perform_storeSlot past hF reg s i) ⟨?_, ?_, ?_⟩)
  · refine (hrep.set hF _ hreg).keep hF rfl fun a ha ↦ update_of_ne ?_ _ _
    rintro rfl
    exact ha (.inr ⟨s, i, F.cell_slot s i hs, hu⟩)
  · exact fun r hr ↦ set_regs_of_ne ms _ hr
  · rw [set_regs_self, set_mem]

lemma runs_spillWords (hrep4 : rep.words ≤ 4) {reg : Reg} (hreg : reg ≠ .sp)
    (hreads : ∀ i, i < rep.words → ∀ c ∈ op.reads (F.model E A) st i, live c) (hu : F.use s = .spill)
    {n : Nat} (hn : n ≤ rep.words) (hs : n ≤ F.words s) (h : (range n).mapM (spillWord op rep reg s) = .ok pieces) :
    Runs E past ms pieces.flatten fun ms' ↦ F.Represents E top live st ms' ∧ Spilled F s.index reg ms ms' ∧
      ∀ i, i < n → ms'.mem (F.slot s + .ofNat 16 i) = op.word (F.model E A) st rep i := by
  refine Runs.flatten_range h (fun k ms' ↦ F.Represents E top live st ms' ∧ Spilled F s.index reg ms ms' ∧
    ∀ i, i < k → ms'.mem (F.slot s + .ofNat 16 i) = op.word (F.model E A) st rep i) ?_ ?_
  · exact ⟨hrep, ⟨fun _ _ ↦ rfl, fun _ _ ↦ rfl⟩, fun i hi ↦ absurd hi (Nat.not_lt_zero i)⟩
  · rintro k hk _ hcode past1 _ ⟨hrep1, hspilled, hwords⟩
    obtain ⟨_, hload, hpiece⟩ := bind_eq_ok.mp hcode
    cases hpiece
    have hks : k < F.words s := lt_of_lt_of_le hk hs
    refine (runs_spillWord past1 hF hrep1 (by omega) hreg (hreads k (by omega)) hload hu hks).mono ?_
    rintro _ ⟨hrep2, hregs, hmem⟩
    refine ⟨hrep2, ⟨fun r hr ↦ ?_, fun a ha ↦ ?_⟩, fun i hi ↦ ?_⟩
    · rw [hregs r hr, hspilled.regs r hr]
    · rw [hmem, update_of_ne (ha.ne_slot hks hu le_rfl), hspilled.mem a ha]
    · rw [hmem]
      by_cases hik : i = k
      · rw [hik, update_self]
      · have hlt : i < k := by omega
        have hne : F.slot s + BitVec.ofNat 16 i ≠ F.slot s + .ofNat 16 k := by
          intro heq
          have hcell := F.cell_slot s i (by omega)
          rw [heq, F.cell_slot s k hks] at hcell
          cases hcell
          exact hik rfl
        rw [update_of_ne hne, hwords i hlt]

lemma runs_operandAddress
    (hpos : 0 < rep.words) (hmax : rep.words ≤ 4) (hreg : reg ≠ .sp) (hop : Readable (F.model E A) live st rep op)
    (hspills : F.Spills slots slots') (h : operandAddress op rep reg slots = .ok (code, slots')) :
    Runs E past ms code fun ms' ↦ F.Represents E top live st ms' ∧ Spilled F slots.size reg ms ms' ∧
      HeldAt F slots'.size ms' (ms'.regs reg) rep.words (op.word (F.model E A) st rep) := by
  rcases operandAddress_cases h with ⟨place, rfl, hcode, rfl⟩ | ⟨_, hpieces, rfl, rfl⟩
  · have hreads : ∀ i, i < rep.words → live (place.cell (F.model E A) st i) ∧
        ∀ c ∈ place.reads (F.model E A) st, live c := by
      intro i hi
      have hall := hop.reads i hi
      rw [Operand.reads] at hall
      exact ⟨hall _ mem_cons_self, fun c hc ↦ hall c (mem_cons_of_mem _ hc)⟩
    have hrun := perform_addressOfPlace past hF hrep hreg (hreads 0 hpos).2 hcode
    refine .of_perform hrun ⟨hrep.set hF _ hreg, ⟨fun r hr ↦ set_regs_of_ne ms _ hr, fun _ _ ↦ rfl⟩, fun i hi ↦ ?_⟩
    have hlive := (hreads i hi).1
    rw [set_regs_self, ← address_cell_add, set_mem, hrep.mem _ hlive]
    exact ⟨(hrep.data _ hlive).settled _, by simp [Operand.word]⟩
  · rw [hop.spilledWords_eq] at hpieces hspills ⊢
    obtain ⟨hu, hwords⟩ := hspills slots.size (.sized rep.words true) (by simp) (by simp)
    have hle : rep.words ≤ F.words ⟨slots.size⟩ := le_trans (Nat.le_max_left _ _) hwords
    refine (runs_spillWords past hF hrep hmax hreg hop.reads hu le_rfl hle hpieces).append ?_
    rintro past1 _ ⟨hrep1, hspilled, hheld⟩
    refine .of_perform (perform_addressOfBase (A := A) past1 hF _ _ _) ⟨hrep1.set hF _ hreg,
      hspilled.set_reg _, fun i hi ↦ ?_⟩
    have haddress : (F.model E A).address (.slot ⟨slots.size⟩) 0 = F.slot ⟨slots.size⟩ := BitVec.add_zero _
    rw [set_regs_self, haddress, set_mem, hheld i hi, Array.size_push]
    exact ⟨FrameMap.settled_slot (lt_of_lt_of_le hi hle), rfl⟩

lemma runs_operandAddresses
    (hpos : 0 < rep.words) (hmax : rep.words ≤ 4) (hpos' : 0 < rep'.words) (hmax' : rep'.words ≤ 4)
    {reg reg' : Reg} (hreg : reg ≠ .sp) (hreg' : reg' ≠ .sp) (hne : reg ≠ reg')
    (hop : Readable (F.model E A) live st rep op) (hop' : Readable (F.model E A) live st rep' op')
    (hspills : F.Spills slots slots2) (h : operandAddress op rep reg slots = .ok (code, slots1))
    (h' : operandAddress op' rep' reg' slots1 = .ok (code', slots2)) :
    Runs E past ms (code ++ code') fun ms' ↦ F.Represents E top live st ms' ∧
      (∀ r, r ≠ reg → r ≠ reg' → ms'.regs r = ms.regs r) ∧
      HeldAt F slots2.size ms' (ms'.regs reg) rep.words (op.word (F.model E A) st rep) ∧
      HeldAt F slots2.size ms' (ms'.regs reg') rep'.words (op'.word (F.model E A) st rep') := by
  have hgrows := operandAddress_grows h
  have hgrows' := operandAddress_grows h'
  obtain ⟨hs, hs'⟩ := spills_split hgrows hgrows' hspills
  refine (runs_operandAddress past hF hrep hpos hmax hreg hop hs h).append ?_
  rintro past1 _ ⟨hrep1, hspilled1, hheld1⟩
  refine (runs_operandAddress past1 hF hrep1 hpos' hmax' hreg' hop' hs' h').mono ?_
  rintro _ ⟨hrep2, hspilled2, hheld2⟩
  refine ⟨hrep2, fun r hr hr' ↦ ?_, ?_, hheld2⟩
  · rw [hspilled2.regs r hr', hspilled1.regs r hr]
  · rw [hspilled2.regs reg hne]
    exact hheld1.spilled hspilled2 hgrows'.size_le

end Select

/-! ## Helpers -/

inductive Helper where
  | word (op : BinaryOp) (signed : Bool)
  | unary (op : PrimUnary) (rep : Rep)
  | binary (op : BinaryOp) (rep : Rep)
  | compare (rep : Rep)
  | convert (srcRep rep : Rep)
  | copy
  | clear
  deriving DecidableEq

namespace Helper

/-- How names of helpers spell a representation of more than one word. -/
def wideName : Rep → Option String
  | .long true => some "l"
  | .long false => some "ul"
  | .float => some "f"
  | .double => some "d"
  | _ => none

def repName : Rep → Option String
  | .word true => some "i"
  | .word false => some "u"
  | rep => wideName rep

def opName : BinaryOp → Option String
  | .add => some "add"
  | .sub => some "sub"
  | .mul => some "mul"
  | .div => some "div"
  | .mod => some "mod"
  | .and => some "and"
  | .or => some "or"
  | .xor => some "xor"
  | .shl => some "shl"
  | .shr => some "shr"
  | _ => none

def name : Helper → Option String
  | word .mul _ => some "__mul"
  | word .div signed => some (if signed then "__div" else "__divu")
  | word .mod signed => some (if signed then "__mod" else "__modu")
  | word _ _ => none
  | unary .neg rep => (wideName rep).map fun r ↦ "__neg_" ++ r
  | unary .not rep => (wideName rep).map fun r ↦ "__not_" ++ r
  | binary op rep => do return "__" ++ (← opName op) ++ "_" ++ (← wideName rep)
  | compare rep => (wideName rep).map fun r ↦ "__cmp_" ++ r
  | convert srcRep rep => do return "__cvt_" ++ (← repName srcRep) ++ "_" ++ (← repName rep)
  | copy => some "__blkcpy"
  | clear => some "__blkclr"

end Helper

def wordsAt (mem : Word → Word) (a : Word) (n : Nat) : List Word :=
  (List.range n).map fun i ↦ mem (a + .ofNat 16 i)

def putWords (mem : Word → Word) (a : Word) (n : Nat) (value : Nat → Word) : Word → Word :=
  writeWords (fun i ↦ a + .ofNat 16 i) value n mem

/-- The call returns and leaves memory as given, what is below the stack pointer apart. -/
structure Reply.Leaves (F : FrameMap) (sp : Word) (mem : Word → Word) (reply : Reply) : Prop where
  exit : reply.exit = .returns
  mem : ∀ a, ¬ F.free sp a → reply.mem a = mem a

/-- What a helper does, given the registers of its arguments, the stack pointer and memory. All
operands are read before the result is written. -/
def Helper.Obeyed (F : FrameMap) (A : Arithmetic) (r0 r1 r2 sp : Word) (mem : Word → Word)
    (reply : Reply) : Helper → Prop
  | word op signed =>
    reply.Leaves F sp mem ∧ reply.regs .r0 = A.binary op (.word signed) [r0] [r1] 0
  | unary op rep =>
    reply.Leaves F sp (putWords mem r0 rep.words (A.unary op rep (wordsAt mem r1 rep.words)))
  | binary op rep =>
    reply.Leaves F sp (putWords mem r0 rep.words
      (A.binary op rep (wordsAt mem r1 rep.words) (wordsAt mem r2 (rightRep op rep).words)))
  | compare rep =>
    reply.Leaves F sp mem ∧
      reply.regs .r0 = orderWord (A.order rep (wordsAt mem r0 rep.words) (wordsAt mem r1 rep.words))
  | convert srcRep rep =>
    reply.Leaves F sp (putWords mem r0 rep.words (A.cast srcRep rep (wordsAt mem r1 srcRep.words)))
  | copy => reply.Leaves F sp (putWords mem r0 r2.toNat fun i ↦ mem (r1 + .ofNat 16 i))
  | clear => reply.Leaves F sp (putWords mem r0 r1.toNat fun _ ↦ 0)

/-- Every named helper leaves what its operation gives. -/
def Surroundings.Helps (E : Surroundings) (F : FrameMap) (A : Arithmetic) : Prop :=
  ∀ (h : Helper) (name : String), h.name = some name → ∀ past r0 r1 r2 sp mem,
    h.Obeyed F A r0 r1 r2 sp mem (E.answer (.called (.inl name) r0 r1 r2 sp mem :: past))

namespace Select

/-! ## Names -/

variable {words : Nat} {op : BinaryOp} {name : String} {value : Nat → Word}

lemma wideName_eq (hw : rep.isWord = false) (hb : rep.isBlock = false) :
    Helper.wideName rep = some (helperSuffix rep) := by
  cases rep with
  | long signed => cases signed <;> rfl
  | float => rfl
  | double => rfl
  | byte signed => cases hw
  | word signed => cases hw
  | block n => cases hb

lemma repName_eq (hb : rep.isBlock = false) : Helper.repName rep.inRegister = some (helperSuffix rep) := by
  cases rep with
  | byte signed | word signed | long signed => cases signed <;> rfl
  | float => rfl
  | double => rfl
  | block n => cases hb

lemma opName_eq (h : helperOp op = .ok name) : Helper.opName op = some name := by
  cases op <;> cases h <;> rfl

attribute [local simp] Helper.name

lemma name_word (h : wordHelper op signed = .ok name) : (Helper.word op signed).name = some name := by
  cases op <;> cases h <;> rfl

lemma name_unary (op : PrimUnary) (hw : rep.isWord = false) (hb : rep.isBlock = false) : (Helper.unary op rep).name =
      some ((match op with | .neg => "__neg_" | .not => "__not_") ++ helperSuffix rep) := by
  cases op <;> rw [Helper.name, wideName_eq hw hb] <;> rfl

lemma name_binary (h : helperOp op = .ok name) (hw : rep.isWord = false) (hb : rep.isBlock = false) :
    (Helper.binary op rep).name = some ("__" ++ name ++ "_" ++ helperSuffix rep) := by
  simp [opName_eq h, wideName_eq hw hb]

lemma name_compare (hw : rep.isWord = false) (hb : rep.isBlock = false) :
    (Helper.compare rep).name = some ("__cmp_" ++ helperSuffix rep) := by
  simp [wideName_eq hw hb]

lemma name_convert (hb : srcRep.isBlock = false) (hb' : rep.isBlock = false) :
    (Helper.convert srcRep.inRegister rep.inRegister).name =
      some ("__cvt_" ++ helperSuffix srcRep ++ "_" ++ helperSuffix rep) := by
  simp [repName_eq hb, repName_eq hb']

/-! ## Calls -/

lemma HeldAt.wordsAt (h : HeldAt F n ms a words value) : wordsAt ms.mem a words = (List.range words).map value := by
  refine List.map_congr_left fun i hi ↦ ?_
  exact (h i (List.mem_range.mp hi)).2

variable (past : List MachineEvent)

lemma perform_call (name : String)
    (h : E.answer (ms.callEvent (.inl name) :: past) = reply) (hexit : reply.exit = .returns) :
    perform E past ms [.call name] = (ms.callEvent (.inl name) :: past, .next (reply.state ms.sp)) := by
  rw [perform_singleton, Instr.act, h, MachineState.afterCall, hexit]
  rfl

lemma runs_call (hF : F.Fits E) (hrep : F.Represents E top live st ms) (name : String)
    (h : ∀ reply, E.answer (ms.callEvent (.inl name) :: past) = reply →
      reply.Leaves F ms.sp ms.mem ∧ reply.regs .r0 = r0) :
    Runs E past ms [.call name] fun ms' ↦ F.Represents E top live st ms' ∧ ms'.regs .r0 = r0 := by
  obtain ⟨hleaves, hr0⟩ := h _ rfl
  refine .of_perform (perform_call past name rfl hleaves.exit) ⟨?_, ?_⟩
  · refine hrep.keep hF (Reply.state_sp _ _) fun a ha ↦ hleaves.mem a fun _ ↦ ha (.inl ?_)
    rwa [← hrep.sp]
  · rw [Reply.state_regs_of_ne _ _ (by decide), hr0]

end Select

end W16Compiler
