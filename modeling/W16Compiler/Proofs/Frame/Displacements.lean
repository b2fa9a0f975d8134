import W16Compiler.Proofs.Machine.Knowledge
import W16Compiler.Proofs.Machine.Straight

/-!
# Slots and displacements in the frame

The slots that the code refers to stand one behind the other from the start of the frame on. So every
word of the frame belongs to exactly one of them.

The frame stands below the stack pointer that the function is entered with: first its slots, then the
return address and the incoming arguments. A displacement that is resolved at the right depth leads to
the word that the symbolic one stands for, and code for one that is too large goes there through `r6`.
-/

namespace W16Compiler

open BitVec MachineState Instr

namespace Frame

/-- Slots from number `index` on whose used ones are put one behind the other, from `next` to `size`. -/
inductive Rows (used : List SlotId) : Nat → Nat → List Slot → List (Option Nat) → Nat → Prop where
  | nil (index next : Nat) : Rows used index next [] [] next
  | used {index next size : Nat} {s : Slot} {slots : List Slot} {offsets : List (Option Nat)}
    (h : ⟨index⟩ ∈ used) (hrest : Rows used (index + 1) (next + s.words) slots offsets size) :
    Rows used index next (s :: slots) (some next :: offsets) size
  | unused {index next size : Nat} {s : Slot} {slots : List Slot} {offsets : List (Option Nat)}
    (h : ⟨index⟩ ∉ used) (hrest : Rows used (index + 1) next slots offsets size) :
    Rows used index next (s :: slots) (none :: offsets) size

variable {used : List SlotId} {index next size o k : Nat} {slots : List Slot} {offsets : List (Option Nat)}

lemma rows_placeSlots (used : List SlotId) (index next : Nat) (slots : List Slot)
    (h : next + total (slots.map (·.words)) < twoTo 32) :
    Rows used index next slots (placeSlots used index next slots).1 (placeSlots used index next slots).2 := by
  induction slots generalizing index next with
  | nil => exact .nil index next
  | cons s slots ih =>
    have hsum : next + s.words + total (slots.map (·.words)) < twoTo 32 := by
      rw [List.map_cons, total, List.foldr_cons, ← Nat.add_assoc] at h
      exact h
    have hadd : addWords next s.words = next + s.words := Nat.mod_eq_of_lt (by omega)
    rw [placeSlots]
    split
    · rename_i hused
      rw [hadd]
      exact .used (List.contains_iff_mem.mp hused) (ih (index + 1) (next + s.words) hsum)
    · rename_i hused
      exact .unused (fun hmem ↦ hused (List.contains_iff_mem.mpr hmem)) (ih (index + 1) next (by omega))

namespace Rows

variable (h : Rows used index next slots offsets size)

include h

lemma next_le : next ≤ size := by
  induction h with
  | nil => exact Nat.le_refl _
  | used _ _ ih => exact Nat.le_trans (Nat.le_add_right _ _) ih
  | unused _ _ ih => exact ih

lemma within (ho : offsets[k]? = some (some o)) : ∃ s, slots[k]? = some s ∧ next ≤ o ∧ o + s.words ≤ size := by
  induction h generalizing k with
  | nil => cases ho
  | @used _ _ _ s _ _ _ hrest ih =>
    cases k with
    | zero =>
      cases ho
      exact ⟨s, rfl, Nat.le_refl _, hrest.next_le⟩
    | succ k =>
      obtain ⟨s', hs', hlow, hhigh⟩ := ih ho
      exact ⟨s', hs', Nat.le_trans (Nat.le_add_right _ _) hlow, hhigh⟩
  | unused _ _ ih =>
    cases k with
    | zero => cases ho
    | succ k => exact ih ho

lemma behind {j o' : Nat} (hjk : j < k)
    (hs : slots[j]? = some s) (ho : offsets[j]? = some (some o)) (ho' : offsets[k]? = some (some o')) :
    o + s.words ≤ o' := by
  induction h generalizing j k with
  | nil => cases ho
  | used _ hrest ih =>
    cases k with
    | zero => omega
    | succ k =>
      cases j with
      | zero =>
        cases hs
        cases ho
        exact (hrest.within ho').choose_spec.2.1
      | succ j => exact ih (by omega) hs ho ho'
  | unused _ _ ih =>
    cases k with
    | zero => omega
    | succ k =>
      cases j with
      | zero => cases ho
      | succ j => exact ih (by omega) hs ho ho'

lemma covers (hlow : next ≤ w) (hhigh : w < size) :
    ∃ (k o : Nat) (s : Slot), offsets[k]? = some (some o) ∧ slots[k]? = some s ∧ o ≤ w ∧ w < o + s.words := by
  induction h with
  | nil => omega
  | @used _ next _ s _ _ _ _ ih =>
    by_cases hw : w < next + s.words
    · exact ⟨0, next, s, rfl, rfl, hlow, hw⟩
    · obtain ⟨k, o, s', ho, hs', hle, hlt⟩ := ih (by omega) hhigh
      exact ⟨k + 1, o, s', ho, hs', hle, hlt⟩
  | unused _ _ ih =>
    obtain ⟨k, o, s', ho, hs', hle, hlt⟩ := ih hlow hhigh
    exact ⟨k + 1, o, s', ho, hs', hle, hlt⟩

lemma placed_iff (k : Nat) : (∃ o, offsets[k]? = some (some o)) ↔ k < slots.length ∧ ⟨index + k⟩ ∈ used := by
  induction h generalizing k with
  | nil => simp
  | used hused _ ih | unused hused _ ih =>
    cases k with
    | zero => simp [hused]
    | succ k => simpa [Nat.add_assoc, Nat.add_comm 1 k] using ih k

end Rows

/-- The slots with an offset take up the frame: each has its words in it, two of them have none in
common, and there is no other word. -/
structure Tiles (slots : Array Slot) (offset : SlotId → Option Nat) (frame : Nat) : Prop where
  within : ∀ s o, offset s = some o → ∃ slot, slots[s.index]? = some slot ∧ o + slot.words ≤ frame
  disjoint : ∀ s s' o o' slot slot', s ≠ s' → offset s = some o → offset s' = some o' →
    slots[s.index]? = some slot → slots[s'.index]? = some slot' →
      o + slot.words ≤ o' ∨ o' + slot'.words ≤ o
  covers : ∀ w, w < frame → ∃ s o slot, offset s = some o ∧ slots[s.index]? = some slot ∧
    o ≤ w ∧ w < o + slot.words

def offsetIn (offsets : List (Option Nat)) (s : SlotId) : Option Nat := (offsets[s.index]?).join

lemma offsetIn_eq_some {offsets : List (Option Nat)} :
    offsetIn offsets s = some o ↔ offsets[s.index]? = some (some o) := by
  rw [offsetIn, Option.join_eq_some_iff]

lemma Rows.tiles {slots : Array Slot} (h : Rows used 0 0 slots.toList offsets size) :
    Tiles slots (offsetIn offsets) size where
  within s o ho := by
    obtain ⟨slot, hslot, -, hle⟩ := h.within (offsetIn_eq_some.mp ho)
    exact ⟨slot, by simpa using hslot, hle⟩
  disjoint s s' o o' slot slot' hne ho ho' hslot hslot' := by
    rw [offsetIn_eq_some] at ho ho'
    have hslot1 : slots.toList[s.index]? = some slot := by simpa using hslot
    have hslot2 : slots.toList[s'.index]? = some slot' := by simpa using hslot'
    rcases Nat.lt_trichotomy s.index s'.index with hlt | heq | hgt
    · exact .inl (h.behind hlt hslot1 ho ho')
    · exact (hne (congrArg SlotId.mk heq)).elim
    · exact .inr (h.behind hgt hslot2 ho' ho)
  covers w hw := by
    obtain ⟨k, o, slot, ho, hslot, hle, hlt⟩ := h.covers (Nat.zero_le w) hw
    exact ⟨⟨k⟩, o, slot, offsetIn_eq_some.mpr ho, by simpa using hslot, hle, hlt⟩

end Frame

def Instr.access : Instr → Option (Reg × Disp)
  | .addImm _ base d | .load _ base d | .store _ base d => some (base, d)
  | _ => none

def Disp.isSymbolic : Disp → Bool
  | .slot .. | .param _ => true
  | .num _ | .frame _ => false

def Instr.leavesScratch : Instr → Bool
  | .addImm _ base _ | .load _ base _ => base != .r6
  | .store rs base _ => rs != .r6 && base != .r6
  | _ => true

namespace Frame

/-- What displacements from the stack pointer mean, if the stack pointer was `top` on entry. -/
def meaning (offset : SlotId → Option Nat) (frame : Nat) (top sp : Word) : Disp → Word
  | .num v => .ofInt 16 v
  | .slot s o => top - .ofNat 16 frame + .ofNat 16 ((offset s).getD 0) + .ofInt 16 o - sp
  | .param o => top + 1 + .ofInt 16 o - sp
  | .frame k => .ofInt 16 k * .ofNat 16 frame

def framed (E : Surroundings) (offset : SlotId → Option Nat) (frame : Nat) (top : Word) : Surroundings :=
  { E with symbolic := meaning offset frame top }

/-- Control goes to the same place, and only `r6` may hold something else. -/
inductive SameMove : MachineMove → MachineMove → Prop where
  | next {ms ms' : MachineState} (hregs : ∀ r, r ≠ .r6 → ms.regs r = ms'.regs r) (hmem : ms.mem = ms'.mem) :
    SameMove (.next ms) (.next ms')
  | same (m : MachineMove) : SameMove m m

def SameEffect (a b : List MachineEvent × MachineMove) : Prop := a.1 = b.1 ∧ SameMove a.2 b.2

lemma SameEffect.refl (a : List MachineEvent × MachineMove) : SameEffect a a := ⟨rfl, .same a.2⟩

lemma displacement_framed (E : Surroundings) (offset : SlotId → Option Nat) (frame : Nat) (top sp : Word)
    (d : Disp) : (framed E offset frame top).displacement sp d = meaning offset frame top sp d := by
  cases d <;> rfl

/-! ## Resolved displacements -/

variable {offsets : List (Option Nat)} {frame : Nat} {depth : Int} {top sp : Word}

lemma meaning_of_resolveDisp (h : resolveDisp offsets frame depth d = .ok d')
    (hsp : d.isSymbolic → sp = top - .ofNat 16 frame - .ofInt 16 depth) :
    ∃ v, d' = .num v ∧ BitVec.ofInt 16 v = meaning (offsetIn offsets) frame top sp d := by
  have hframe : BitVec.ofInt 16 (frame : Int) = BitVec.ofNat 16 frame := BitVec.ofInt_natCast ..
  cases d with
  | num v =>
    cases h
    exact ⟨v, rfl, rfl⟩
  | slot s o =>
    rw [resolveDisp] at h
    split at h
    · rename_i base hbase
      cases h
      refine ⟨_, rfl, ?_⟩
      have hoffset : (offsetIn offsets s).getD 0 = base := by
        rw [offsetIn, hbase]
        rfl
      rw [meaning, hoffset, hsp rfl, ofInt_wrap32, ofInt_add, ofInt_add, ofInt_natCast]
      grind
    · cases h
  | param o =>
    cases h
    refine ⟨_, rfl, ?_⟩
    rw [meaning, hsp rfl, ofInt_wrap32, ofInt_add, ofInt_add, ofInt_add, hframe]
    grind
  | frame k =>
    cases h
    refine ⟨_, rfl, ?_⟩
    rw [meaning, ofInt_wrap32, ofInt_mul, hframe]

/-! ## Displacements that are too large -/

variable {E : Surroundings} {past : List MachineEvent} {ms : MachineState} {rd rs base : Reg} {v : Int} {i j : Instr}

lemma expand_addImm (hbase : base ≠ .r6) (rd : Reg) :
    SameEffect (perform E past ms (expand (.addImm rd base (.num v))))
      (past, .next (ms.set rd (ms.regs base + .ofInt 16 v))) := by
  rw [expand]
  split
  · rename_i h
    simp only [Bool.and_eq_true, decide_eq_true_eq] at h
    obtain ⟨⟨rfl, rfl⟩, rfl⟩ := h
    rw [set_eq_self (by simp)]
    exact .refl _
  · split
    · exact .refl _
    · refine ⟨rfl, .next (fun r hr ↦ ?_) rfl⟩
      by_cases hrd : r = rd
      · subst hrd
        simp [value, AluOp.apply, hbase]
      · simp [hrd, hr]

lemma expand_load (hbase : base ≠ .r6) (rd : Reg) : SameEffect (perform E past ms (expand (.load rd base (.num v))))
      (past, .next (ms.set rd (ms.mem (ms.regs base + .ofInt 16 v)))) := by
  rw [expand]
  split
  · exact .refl _
  · refine ⟨rfl, .next (fun r hr ↦ ?_) rfl⟩
    by_cases hrd : r = rd
    · subst hrd
      simp [value, AluOp.apply, address, Surroundings.displacement, hbase]
    · simp [hrd, hr]

lemma expand_store (hbase : base ≠ .r6) (hrs : rs ≠ .r6) :
    SameEffect (perform E past ms (expand (.store rs base (.num v))))
      (.stored (ms.regs base + .ofInt 16 v) (ms.regs rs) :: past,
        .next (ms.put (ms.regs base + .ofInt 16 v) (ms.regs rs))) := by
  rw [expand]
  split
  · exact .refl _
  · have haddress : ∀ w : Word, address E (ms.set .r6 w) .r6 (.num 0) = w := by
      intro w
      simp [address, Surroundings.displacement]
    refine ⟨?_, ?_⟩
    · simp [perform, act, value, AluOp.apply, haddress, hbase, hrs]
    · simp only [perform, act, value, AluOp.apply]
      refine .next (fun r hr ↦ by simp [hr]) ?_
      simp [haddress, hbase, hrs]

/-! ## Instructions -/

lemma act_framed (h : i.access = none) (E : Surroundings) (entry : Label → Bool)
    (past : List MachineEvent) (ms : MachineState) (offset : SlotId → Option Nat) (frame : Nat) (top : Word) :
    i.act (framed E offset frame top) entry past ms = i.act E entry past ms := by
  cases i <;> first | rfl | cases h

lemma expand_of_access (h : i.access = none) : expand i = [i] := by
  cases i <;> first | rfl | cases h

lemma resolveInstr_of_access (h : i.access = none) (hj : resolveInstr offsets frame depth i = .ok j) : j = i := by
  cases i <;> first | (cases h; done) | (cases hj; rfl)

lemma sameEffect_expand (h : resolveInstr offsets frame depth i = .ok j) (hi : i.leavesScratch)
    (hsp : ∀ r d, i.access = some (r, d) → d.isSymbolic → ms.sp = top - .ofNat 16 frame - .ofInt 16 depth) :
    SameEffect (perform E past ms (expand j)) (perform (framed E (offsetIn offsets) frame top) past ms [i]) := by
  have hresolved : ∀ {f : Disp → Instr} {d}, (do return f (← resolveDisp offsets frame depth d)) = .ok j →
      (d.isSymbolic → ms.sp = top - .ofNat 16 frame - .ofInt 16 depth) → ∃ v, j = f (.num v) ∧
        ∀ base, ms.address (framed E (offsetIn offsets) frame top) base d = ms.regs base + .ofInt 16 v := by
    intro f d h hsp
    obtain ⟨_, hd', hj⟩ := bind_eq_ok.mp h
    cases hj
    obtain ⟨v, rfl, hv⟩ := meaning_of_resolveDisp hd' hsp
    exact ⟨v, rfl, fun base ↦ by rw [address, displacement_framed, hv]⟩
  cases i with
  | addImm rd base d =>
    obtain ⟨v, rfl, haddress⟩ := hresolved h (hsp base d rfl)
    rw [perform_cons_result rfl, value, haddress, perform_nil]
    exact expand_addImm (by simpa [leavesScratch] using hi) rd
  | load rd base d =>
    obtain ⟨v, rfl, haddress⟩ := hresolved h (hsp base d rfl)
    rw [perform_cons_result rfl, value, haddress, perform_nil]
    exact expand_load (by simpa [leavesScratch] using hi) rd
  | store rs base d =>
    obtain ⟨v, rfl, haddress⟩ := hresolved h (hsp base d rfl)
    have heffect : perform (framed E (offsetIn offsets) frame top) past ms [.store rs base d] =
        (.stored (ms.regs base + .ofInt 16 v) (ms.regs rs) :: past,
          .next (ms.put (ms.regs base + .ofInt 16 v) (ms.regs rs))) := by
      simp only [perform, act, haddress, Option.toList_some, List.singleton_append]
      rfl
    rw [heffect]
    simp only [leavesScratch, Bool.and_eq_true, bne_iff_ne] at hi
    exact expand_store hi.2 hi.1
  | _ =>
    rw [resolveInstr_of_access rfl h, expand_of_access rfl, perform_singleton, perform_singleton, act_framed rfl]
    exact .refl _

end Frame

end W16Compiler
