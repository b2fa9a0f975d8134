import W16Compiler.Proofs.Machine.Straight
import W16Compiler.Proofs.Select.Arithmetic

/-!
# States and operands on the machine

The words of a function stand at addresses: those of slots in the frame, all others where they are. A
machine state represents a state of a flow list if memory holds the words that are live, the stack
pointer is the same, and the chain of exception records and the links of cleanups are in the slots that
are set aside for them. Words below the stack pointer belong to whoever is called.

The code that loads a word of an operand puts it into one register and changes nothing else. The code
that reaches a place leaves its address as a displacement from a register, and a word is stored there.
For operands that are passed by address the code leaves an address at which their words stand.
-/

namespace W16Compiler

open Function BitVec MachineState

inductive SlotUse where
  | data
  | record
  | link
  /-- A constant whose address is needed. -/
  | spill
  deriving DecidableEq

def Cell.address (slot : SlotId → Word) : Cell → Word
  | .slot s k => slot s + .ofInt 16 k
  | .outer a => a

/-- Where the words of a function stand while it runs. -/
structure FrameMap where
  slot : SlotId → Word
  words : SlotId → Nat
  use : SlotId → SlotUse
  param : Word
  size : Word
  cell : Word → Cell
  /-- The words that a callee may use for itself, given the stack pointer. -/
  free : Word → Word → Prop
  address_cell : ∀ a, (cell a).address slot = a
  cell_slot : ∀ s k, k < words s → cell (slot s + .ofNat 16 k) = .slot s k

/-- The label stands at an address of its own. -/
def Surroundings.Placed (E : Surroundings) (l : Label) : Prop := E.labelAt (E.label l) = some l

namespace FrameMap

variable (F : FrameMap)

def address (c : Cell) : Word := c.address F.slot

def displacement (sp : Word) : Disp → Word
  | .num v => .ofInt 16 v
  | .slot s offset => F.slot s + .ofInt 16 offset - sp
  | .param offset => F.param + .ofInt 16 offset - sp
  | .frame factor => .ofInt 16 factor * F.size

def model (E : Surroundings) (A : Arithmetic) : Model Word where
  constant := id
  slotAddress s offset := F.slot s + .ofInt 16 offset
  param := F.param
  symbol := E.symbol
  locate w offset := F.cell (w + .ofInt 16 offset)
  unary := A.unaryWord
  binary := A.binaryWord
  cast := A.castWord
  order := A.compareWords
  isZero := Rep.isZero

/-- The machine has the frame where the map says, and the head of the chain of records outside of it. -/
structure Fits (E : Surroundings) : Prop where
  displacement : ∀ sp d, E.displacement sp d = F.displacement sp d
  mark : F.cell (E.symbol Select.tryMark) = .outer (E.symbol Select.tryMark)

/-- A word of the function's own data: no part of an exception record, a link or a spilled constant. -/
structure Data (E : Surroundings) (c : Cell) : Prop where
  cell_address : F.cell (F.address c) = c
  ne_mark : c ≠ .outer (E.symbol Select.tryMark)
  use : ∀ s k, c = .slot s k → F.use s = .data

/-- The words of the frame are not below the stack pointer. -/
structure Room (E : Surroundings) (sp : Word) : Prop where
  mark : ¬ F.free sp (E.symbol Select.tryMark)
  slot : ∀ s k, k < F.words s → ¬ F.free sp (F.slot s + .ofNat 16 k)

def markAddress (top : Word) : Option SlotId → Word
  | none => top
  | some r => F.slot r

/-- The words of an exception record: the record before, the handler and the stack pointer. -/
structure HoldsRecord (E : Surroundings) (top : Word) (mem : Word → Word) (r : SlotId)
    (record : TryRecord) : Prop where
  use : F.use r = .record
  words : 3 ≤ F.words r
  room : F.Room E record.sp
  outer : mem (F.slot r) = F.markAddress top record.outer
  handler : mem (F.slot r + 1) = E.label record.handler
  placed : E.Placed record.handler
  sp : mem (F.slot r + 2) = record.sp

structure HoldsLink (E : Surroundings) (mem : Word → Word) (s : SlotId) (l : Label) : Prop where
  use : F.use s = .link
  words : 1 ≤ F.words s
  label : mem (F.slot s) = E.label l
  placed : E.Placed l

/-- A machine state stands for a state of the flow list, as far as its words are live. -/
structure Represents (E : Surroundings) (top : Word) (live : Cell → Prop) (st : PrimState Word)
    (ms : MachineState) : Prop where
  mem : ∀ c, live c → ms.mem (F.address c) = st.mem c
  data : ∀ c, live c → F.Data E c
  kept : ∀ c, live c → ¬ F.free st.sp (F.address c)
  sp : ms.sp = st.sp
  room : F.Room E st.sp
  mark : ms.mem (E.symbol Select.tryMark) = F.markAddress top st.mark
  records : ∀ r record, st.records r = some record → F.HoldsRecord E top ms.mem r record
  links : ∀ s l, st.links s = some l → F.HoldsLink E ms.mem s l

variable {F} {E : Surroundings} {top : Word} {live live' : Cell → Prop} {st : PrimState Word} {ms ms' : MachineState}

/-! ## Addresses -/

/-- Words that have nothing to do with a state: spilled constants and what is below the stack pointer. -/
def Loose (F : FrameMap) (sp a : Word) : Prop :=
  F.free sp a ∨ ∃ s k, F.cell a = .slot s k ∧ F.use s = .spill

variable {c : Cell} {sp a : Word} {k n : Nat}

lemma Data.not_loose (h : F.Data E c) (hfree : ¬ F.free sp (F.address c)) : ¬ F.Loose sp (F.address c) := by
  rintro (hf | ⟨s, k, hc, hu⟩)
  · exact hfree hf
  · rw [h.cell_address] at hc
    rw [h.use s k hc] at hu
    cases hu

lemma Fits.mark_not_loose (hF : F.Fits E) (hroom : F.Room E sp) : ¬ F.Loose sp (E.symbol Select.tryMark) := by
  rintro (hf | ⟨s, k, hc, -⟩)
  · exact hroom.mark hf
  · rw [hF.mark] at hc
    cases hc

lemma Room.slot_not_loose (hroom : F.Room E sp) {s : SlotId} (hk : k < F.words s) (hu : F.use s ≠ .spill) :
    ¬ F.Loose sp (F.slot s + .ofNat 16 k) := by
  rintro (hf | ⟨_, _, hc, hu'⟩)
  · exact hroom.slot s k hk hf
  · rw [F.cell_slot s k hk] at hc
    cases hc
    exact hu hu'

/-- The slots that selection adds to others are for spilled constants. -/
def Spills (F : FrameMap) (slots slots' : Array Slot) : Prop :=
  ∀ k slot, slots[k]? = none → slots'[k]? = some slot → F.use ⟨k⟩ = .spill ∧ slot.words ≤ F.words ⟨k⟩

def Settled (F : FrameMap) (n : Nat) (a : Word) : Prop :=
  ∀ s k, F.cell a = .slot s k → F.use s = .spill → s.index < n

lemma Settled.mono (hnm : n ≤ m) (h : F.Settled n a) : F.Settled m a :=
  fun s k hc hu ↦ lt_of_lt_of_le (h s k hc hu) hnm

lemma Data.settled (h : F.Data E c) (n : Nat) : F.Settled n (F.address c) := by
  intro s k hc hu
  rw [h.cell_address] at hc
  rw [h.use s k hc] at hu
  cases hu

lemma settled_slot {s : SlotId} (hk : k < F.words s) : F.Settled (s.index + 1) (F.slot s + .ofNat 16 k) := by
  intro s' k' hc _
  rw [F.cell_slot s k hk] at hc
  cases hc
  exact lt_add_one s.index

lemma Settled.ne_slot (h : F.Settled n a) {s : SlotId} (hk : k < F.words s)
    (hu : F.use s = .spill) (hn : n ≤ s.index) : a ≠ F.slot s + .ofNat 16 k := by
  rintro rfl
  exact absurd (h s k (F.cell_slot s k hk) hu) (not_lt.mpr hn)

/-! ## Changes of the machine state -/

variable {mem mem' : Word → Word} {r s : SlotId}

lemma HoldsRecord.congr (h : F.HoldsRecord E top mem r record)
    (hmem : ∀ k, k < 3 → mem' (F.slot r + .ofNat 16 k) = mem (F.slot r + .ofNat 16 k)) :
    F.HoldsRecord E top mem' r record := by
  have h0 : mem' (F.slot r) = mem (F.slot r) := by simpa using hmem 0 (by decide)
  exact { h with
    outer := by rw [h0, h.outer]
    handler := (hmem 1 (by decide)).trans h.handler
    sp := (hmem 2 (by decide)).trans h.sp }

lemma HoldsLink.congr (h : F.HoldsLink E mem s l) (hmem : mem' (F.slot s) = mem (F.slot s)) :
    F.HoldsLink E mem' s l :=
  { h with label := by rw [hmem, h.label] }

lemma Represents.mono (h : F.Represents E top live st ms) (hlive : ∀ c, live' c → live c) :
    F.Represents E top live' st ms :=
  { h with
    mem := fun c hc ↦ h.mem c (hlive c hc)
    data := fun c hc ↦ h.data c (hlive c hc)
    kept := fun c hc ↦ h.kept c (hlive c hc) }

/-- The live words after some more have been written, as far as they are not below the stack pointer. -/
def after (F : FrameMap) (live written : Cell → Prop) (sp : Word) : Cell → Prop :=
  fun c ↦ (live c ∨ written c) ∧ ¬ F.free sp (F.address c)

lemma Data.address_ne (h : F.Data E c) (h' : F.Data E c') (hne : c' ≠ c) : F.address c' ≠ F.address c :=
  fun heq ↦ hne (by rw [← h'.cell_address, heq, h.cell_address])

lemma Data.mark_ne_address (hF : F.Fits E) (h : F.Data E c) : E.symbol Select.tryMark ≠ F.address c := by
  intro heq
  have hc := h.cell_address
  rw [← heq, hF.mark] at hc
  exact h.ne_mark hc.symm

lemma Data.slot_ne_address (h : F.Data E c) {s : SlotId} (hk : k < F.words s) (hu : F.use s ≠ .data) :
    F.slot s + .ofNat 16 k ≠ F.address c := by
  intro heq
  have hc := h.cell_address
  rw [← heq, F.cell_slot s k hk] at hc
  exact hu (h.use s k hc.symm)

variable (hF : F.Fits E) (h : F.Represents E top live st ms)

include hF h

lemma Represents.keep (hsp : ms'.sp = ms.sp)
    (hmem : ∀ a, ¬ F.Loose st.sp a → ms'.mem a = ms.mem a) : F.Represents E top live st ms' where
  mem c hc := by rw [hmem _ ((h.data c hc).not_loose (h.kept c hc)), h.mem c hc]
  data := h.data
  kept := h.kept
  sp := by rw [hsp, h.sp]
  room := h.room
  mark := by rw [hmem _ (hF.mark_not_loose h.room), h.mark]
  records r record hr := by
    have hrec := h.records r record hr
    exact hrec.congr fun k hk ↦ hmem _ (h.room.slot_not_loose (lt_of_lt_of_le hk hrec.words) (by simp [hrec.use]))
  links s l hs := by
    have hlink := h.links s l hs
    have h0 := h.room.slot_not_loose hlink.words (by simp [hlink.use])
    rw [show F.slot s + BitVec.ofNat 16 0 = F.slot s by simp] at h0
    exact hlink.congr (hmem _ h0)

lemma Represents.congr (hsp : ms'.sp = ms.sp) (hmem : ms'.mem = ms.mem) : F.Represents E top live st ms' :=
  h.keep hF hsp fun a _ ↦ by rw [hmem]

lemma Represents.set {r : Reg} (v : Word) (hr : r ≠ .sp) : F.Represents E top live st (ms.set r v) :=
  h.congr hF (MachineState.set_sp_of_ne ms v hr) rfl

/-! ## Writing data -/

lemma Represents.write (hc : F.Data E c) (v : Word) :
    F.Represents E top (F.after live (· = c) st.sp) { st with mem := update st.mem c v }
      { ms with mem := update ms.mem (F.address c) v } where
  mem c' hc' := by
    by_cases heq : c' = c
    · rw [heq]
      simp
    · have hlive : live c' := hc'.1.resolve_right heq
      calc update ms.mem (F.address c) v (F.address c') = ms.mem (F.address c') :=
            update_of_ne (hc.address_ne (h.data c' hlive) heq) _ _
        _ = st.mem c' := h.mem c' hlive
        _ = update st.mem c v c' := (update_of_ne heq _ _).symm
  data c' hc' := hc'.1.elim (h.data c') (fun heq ↦ heq ▸ hc)
  kept c' hc' := hc'.2
  sp := h.sp
  room := h.room
  mark := (update_of_ne (hc.mark_ne_address hF) _ _).trans h.mark
  records r record hr := by
    have hrec := h.records r record hr
    exact hrec.congr fun k hk ↦ update_of_ne
      (hc.slot_ne_address (lt_of_lt_of_le hk hrec.words) (by simp [hrec.use])) _ _
  links s l hs := by
    have hlink := h.links s l hs
    have h0 : F.slot s ≠ F.address c := by
      simpa using hc.slot_ne_address (k := 0) hlink.words (by simp [hlink.use])
    exact hlink.congr (update_of_ne h0 _ _)

lemma Represents.writeWords (cell : Nat → Cell) (v : Nat → Word) (n : Nat) (hdata : ∀ j, j < n → F.Data E (cell j)) :
    F.Represents E top (F.after live (fun c ↦ ∃ j, j < n ∧ c = cell j) st.sp)
      { st with mem := W16Compiler.writeWords cell v n st.mem }
      { ms with mem := W16Compiler.writeWords (fun j ↦ F.address (cell j)) v n ms.mem } := by
  induction n with
  | zero => exact h.mono fun c hc ↦ hc.1.resolve_right fun ⟨j, hj, _⟩ ↦ absurd hj (Nat.not_lt_zero j)
  | succ n ih =>
    have hlast := (ih fun j hj ↦ hdata j (Nat.lt_succ_of_lt hj)).write hF (hdata n (lt_add_one n)) (v n)
    refine hlast.mono fun c hc ↦ ⟨?_, hc.2⟩
    rcases hc.1 with hc' | ⟨j, hj, rfl⟩
    · exact .inl ⟨.inl hc', hc.2⟩
    · rcases Nat.lt_succ_iff_lt_or_eq.mp hj with hj | rfl
      · exact .inl ⟨.inr ⟨j, hj, rfl⟩, hc.2⟩
      · exact .inr rfl

end FrameMap

variable {V : Type} {place : Place} {op : Operand} {M : Model V}

/-! ## Words that are read -/

mutual

def Operand.reads (M : Model V) (st : PrimState V) (i : Nat) : Operand → List Cell
  | .load place => place.cell M st i :: place.reads M st
  | _ => []

def Place.reads (M : Model V) (st : PrimState V) : Place → List Cell
  | .indirect pointer _ => pointer.reads M st 0
  | _ => []

end

def Place.Covers (M : Model V) (st : PrimState V) (words : Nat) (place : Place) (c : Cell) : Prop :=
  ∃ j, j < words ∧ c = place.cell M st j

mutual

theorem Operand.word_congr {st st' : PrimState V} (hsp : st'.sp = st.sp) (rep : Rep) (i : Nat)
    (op : Operand) (h : ∀ c ∈ op.reads M st i, st'.mem c = st.mem c) :
    op.word M st' rep i = op.word M st rep i ∧ op.reads M st' i = op.reads M st i := by
  match op with
  | .imm value | .float x | .address base offset => exact ⟨rfl, rfl⟩
  | .load place =>
    rw [Operand.reads] at h
    obtain ⟨hcell, hreads⟩ := Place.cell_congr hsp i place fun c hc ↦ h c (List.mem_cons_of_mem _ hc)
    rw [Operand.word, Operand.word, Operand.reads, Operand.reads, hcell, hreads]
    exact ⟨h _ List.mem_cons_self, rfl⟩

theorem Place.cell_congr {st st' : PrimState V} (hsp : st'.sp = st.sp) (i : Nat) (place : Place)
    (h : ∀ c ∈ place.reads M st, st'.mem c = st.mem c) :
    place.cell M st' i = place.cell M st i ∧ place.reads M st' = place.reads M st := by
  match place with
  | .slot s offset | .param offset | .global label offset => exact ⟨rfl, rfl⟩
  | .arg word => exact ⟨by rw [Place.cell, Place.cell, hsp], rfl⟩
  | .indirect pointer offset =>
    rw [Place.reads] at h
    obtain ⟨hword, hreads⟩ := Operand.word_congr hsp (.word false) 0 pointer h
    rw [Place.cell, Place.cell, Place.reads, Place.reads, hword, hreads]
    exact ⟨rfl, rfl⟩

end

/-! ## Constants -/

lemma ofInt_bmod_word (x : Int) : BitVec.ofInt 16 (Int.bmod x (twoTo 16)) = .ofInt 16 x := by
  apply eq_of_toInt_eq
  rw [toInt_ofInt, toInt_ofInt]
  exact Int.bmod_bmod

lemma ofInt_immWord (bits : Int) (hi : i < 4) :
    BitVec.ofInt 16 (Int.bmod (bits / twoTo (16 * i)) (twoTo 16)) = constantWord (.ofInt 64 bits) i := by
  rw [ofInt_bmod_word, constantWord_ofInt bits hi, twoTo]
  norm_cast

namespace Select

variable {F : FrameMap} {E : Surroundings} {A : Arithmetic} {top : Word} {live : Cell → Prop}
  {st : PrimState Word} {ms : MachineState}

lemma ofInt_getD_immWord (hi : i < 4)
    (h : immWord op rep i = some v) : BitVec.ofInt 16 v = op.word (F.model E A) st rep i := by
  cases op with
  | imm value =>
    cases h
    have hbits : BitVec.ofInt 64 (value % twoTo 64) = .ofInt 64 value := by
      apply eq_of_toNat_eq
      rw [toNat_ofInt, toNat_ofInt]
      exact congrArg Int.toNat (Int.emod_emod value (twoTo 64))
    rw [ofInt_immWord _ hi, hbits]
    rfl
  | float x =>
    cases h
    have hbits : BitVec.ofInt 64 (if rep = .float then (x.singleBits : Int) else x.bits.toNat) = x.bitsAs rep := by
      rw [Binary64.bitsAs]
      split <;> exact ofInt_natCast ..
    rw [ofInt_immWord _ hi, hbits]
    rfl
  | _ => cases h

lemma ofInt_immWord_getD (hi : i < 4) (h : (∃ value, op = .imm value) ∨ ∃ x, op = .float x) :
    BitVec.ofInt 16 ((immWord op rep i).getD 0) = op.word (F.model E A) st rep i := by
  rcases h with ⟨_, rfl⟩ | ⟨x, rfl⟩
  · exact ofInt_getD_immWord hi rfl
  · exact ofInt_getD_immWord hi rfl

/-! ## Loads -/

lemma address_num (ms : MachineState) (base : Reg) (v : Int) :
    ms.address E base (.num v) = ms.regs base + .ofInt 16 v := rfl

lemma word_add_sub_cancel (a b : Word) : a + (b - a) = b := by
  rw [BitVec.add_comm, BitVec.sub_add_cancel]

lemma address_sp (hF : F.Fits E) (ms : MachineState) (d : Disp) :
    ms.address E .sp d = ms.sp + F.displacement ms.sp d := by
  rw [address, hF.displacement]
  rfl

lemma set_eq_set {ms ms' : MachineState} (hmem : ms'.mem = ms.mem)
    (hregs : ∀ r, r ≠ reg → ms'.regs r = ms.regs r) (v : Word) : ms'.set reg v = ms.set reg v := by
  have hupdate : Function.update ms'.regs reg v = Function.update ms.regs reg v := by
    funext r
    by_cases hr : r = reg
    · simp [hr]
    · simp [hr, hregs r hr]
  rw [MachineState.set, MachineState.set, hupdate, hmem]

lemma perform_addressOfBase (past : List MachineEvent) (hF : F.Fits E) (base : AddressBase)
    (offset : Int) (reg : Reg) : perform E past ms [addressOfBase base offset reg] =
      (past, .next (ms.set reg ((F.model E A).address base offset))) := by
  cases base with
  | slot s | param =>
    rw [addressOfBase, perform_cons_result rfl, perform_nil, Instr.value, address_sp hF, FrameMap.displacement,
      word_add_sub_cancel]
    rfl
  | global label => exact perform_cons_result rfl

mutual

theorem perform_loadWord (past : List MachineEvent) (hF : F.Fits E)
    (hrep : F.Represents E top live st ms) (op : Operand)
    (hreads : ∀ c ∈ op.reads (F.model E A) st i, live c) (h : loadWord op rep i reg = .ok code)
    (hi : i < 4) (hreg : reg ≠ .sp) :
    perform E past ms code = (past, .next (ms.set reg (op.word (F.model E A) st rep i))) := by
  match op with
  | .imm value =>
    rw [loadWord] at h
    cases h
    rw [perform_cons_result rfl, perform_nil, Instr.value, ofInt_immWord_getD hi (.inl ⟨value, rfl⟩)]
  | .float x =>
    rw [loadWord] at h
    cases h
    rw [perform_cons_result rfl, perform_nil, Instr.value, ofInt_immWord_getD hi (.inr ⟨x, rfl⟩)]
  | .address base offset =>
    rw [loadWord] at h
    split at h
    · rename_i h0
      cases h
      rw [perform_addressOfBase past hF, Operand.word, if_pos h0]
    · cases h
  | .load place =>
    rw [loadWord] at h
    obtain ⟨⟨access, base, disp⟩, haccess, hcode⟩ := bind_eq_ok.mp h
    cases hcode
    rw [Operand.reads] at hreads
    obtain ⟨ms', hrun, hmem, hregs, haddress⟩ := perform_placeAccess past hF hrep hreg place
      (fun c hc ↦ hreads c (List.mem_cons_of_mem _ hc)) haccess
    rw [perform_append hrun, perform_cons_result rfl, perform_nil, Instr.value, haddress i, hmem,
      hrep.mem _ (hreads _ List.mem_cons_self), set_eq_set hmem hregs, Operand.word]

theorem perform_placeAccess (past : List MachineEvent) (hF : F.Fits E)
    (hrep : F.Represents E top live st ms) (hscratch : scratch ≠ .sp) (place : Place)
    (hreads : ∀ c ∈ place.reads (F.model E A) st, live c)
    {disp : Disp} (h : placeAccess place scratch = .ok (code, base, disp)) :
    ∃ ms', perform E past ms code = (past, .next ms') ∧ ms'.mem = ms.mem ∧ (∀ r, r ≠ scratch → ms'.regs r = ms.regs r) ∧
      ∀ i : Nat, ms'.address E base (disp.plus i) = F.address (place.cell (F.model E A) st i) := by
  match place with
  | .slot s offset | .param offset =>
    rw [placeAccess] at h
    cases h
    refine ⟨ms, rfl, rfl, fun _ _ ↦ rfl, fun i ↦ ?_⟩
    rw [Disp.plus, address_sp hF, FrameMap.displacement, ofInt_wrap32, word_add_sub_cancel]
    rfl
  | .arg word =>
    rw [placeAccess] at h
    cases h
    refine ⟨ms, rfl, rfl, fun _ _ ↦ rfl, fun i ↦ ?_⟩
    rw [Disp.plus, address_num, ofInt_wrap32, ofInt_add, ofInt_wrap32, ← ofInt_add, Place.cell,
      ← hrep.sp, ← ofInt_natCast, Int.natCast_add]
    rfl
  | .global label offset =>
    rw [placeAccess] at h
    cases h
    refine ⟨_, perform_cons_result rfl, rfl, fun r hr ↦ set_regs_of_ne ms _ hr, fun i ↦ ?_⟩
    rw [Disp.plus, address_num, set_regs_self, ofInt_wrap32, Int.zero_add, Instr.value, Place.cell,
      ofInt_add, ← BitVec.add_assoc]
    rfl
  | .indirect pointer offset =>
    rw [placeAccess] at h
    obtain ⟨_, hload, hcode⟩ := bind_eq_ok.mp h
    cases hcode
    rw [Place.reads] at hreads
    have hrun := perform_loadWord past hF hrep pointer hreads hload (by decide) hscratch
    refine ⟨_, hrun, rfl, fun r hr ↦ set_regs_of_ne ms _ hr, fun i ↦ ?_⟩
    rw [Disp.plus, address_num, set_regs_self, ofInt_wrap32, Place.cell]
    exact (F.address_cell _).symm

end

/-! ## Stores -/

lemma runs_storeWord (past : List MachineEvent) (hF : F.Fits E)
    (hrep : F.Represents E top live st ms) (hrs : rs ≠ .r5) (hreads : ∀ c ∈ place.reads (F.model E A) st, live c)
    (hdata : F.Data E (place.cell (F.model E A) st i)) (h : storeWord place rs i = .ok code) :
    Runs E past ms code fun ms' ↦ F.Represents E top (F.after live (· = place.cell (F.model E A) st i) st.sp)
        { st with mem := Function.update st.mem (place.cell (F.model E A) st i) (ms.regs rs) } ms' ∧
      ∀ r, r ≠ .r5 → ms'.regs r = ms.regs r := by
  rw [storeWord] at h
  obtain ⟨⟨_, _, _⟩, haccess, hcode⟩ := bind_eq_ok.mp h
  cases hcode
  obtain ⟨ms1, hrun, hmem, hregs, haddress⟩ := perform_placeAccess past hF hrep (by decide) place hreads haccess
  have hrep1 : F.Represents E top live st ms1 := hrep.congr hF (hregs .sp (by decide)) hmem
  refine ⟨.stored (F.address (place.cell (F.model E A) st i)) (ms.regs rs) :: past, _, ?_,
    hrep1.write hF hdata (ms.regs rs), hregs⟩
  rw [perform_append hrun, perform_singleton, Instr.act, haddress i, hregs rs hrs]
  rfl

/-! ## Addresses -/

lemma address_cell_add (place : Place) (st : PrimState Word) (i : Nat) :
    F.address (place.cell (F.model E A) st i) = F.address (place.cell (F.model E A) st 0) + .ofNat 16 i := by
  cases place with
  | slot s offset | param offset | global label offset =>
    simp only [Place.cell, FrameMap.address, Cell.address, ofInt_add, ofInt_natCast]
    grind
  | arg word =>
    simp only [Place.cell, FrameMap.address, Cell.address, ofNat_add]
    grind
  | indirect pointer offset =>
    simp only [Place.cell, FrameMap.address, FrameMap.model, F.address_cell, ofInt_add, ofInt_natCast]
    grind

lemma perform_addressOfPlace (past : List MachineEvent) (hF : F.Fits E)
    (hrep : F.Represents E top live st ms) (hreg : reg ≠ .sp)
    (hreads : ∀ c ∈ place.reads (F.model E A) st, live c) (h : addressOfPlace place reg = .ok code) :
    perform E past ms code = (past, .next (ms.set reg (F.address (place.cell (F.model E A) st 0)))) := by
  cases place with
  | slot s offset | param offset | global label offset =>
    rw [addressOfPlace] at h
    cases h
    rw [perform_addressOfBase past hF (A := A)]
    simp [Place.cell, FrameMap.address, Cell.address, Model.address, FrameMap.model]
  | arg word =>
    rw [addressOfPlace] at h
    cases h
    rw [perform_cons_result rfl, perform_nil, Instr.value, address_num, ofInt_wrap32, ofInt_natCast,
      Place.cell, add_zero, ← hrep.sp]
    rfl
  | indirect pointer offset =>
    rw [addressOfPlace] at h
    obtain ⟨load, hload, hcode⟩ := bind_eq_ok.mp h
    rw [Place.reads] at hreads
    have hrun := perform_loadWord past hF hrep pointer hreads hload (by decide) hreg
    have haddress : F.address ((Place.indirect pointer offset).cell (F.model E A) st 0) =
        pointer.word (F.model E A) st (.word false) 0 + .ofInt 16 offset := by
      rw [Place.cell, Int.natCast_zero, Int.add_zero]
      exact F.address_cell _
    rw [haddress]
    cases hcode
    split
    · rename_i h0
      rw [hrun, h0]
      simp
    · rw [perform_append hrun, perform_cons_result rfl, perform_nil, Instr.value, address_num, set_regs_self, set_set]

end Select

end W16Compiler
