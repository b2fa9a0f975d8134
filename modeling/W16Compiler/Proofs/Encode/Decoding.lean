import W16Compiler.Machine.Frame
import W16Compiler.Machine.Relax
import W16Compiler.Proofs.Encode.Addresses
import W16Compiler.Proofs.Faults
import W16Compiler.Proofs.Machine.RegSet

/-!
# Decoding

The words of code are read back by their bits. The first four bits decide how the others are divided into
fields, and whether a second word follows. Reading the words of encoded code from the start gives the
instructions one after another, with all that their words hold.
-/

namespace W16Compiler

open Int Instr

/-- What an instruction holds beside its mnemonic and its registers. -/
inductive DecodedOperand where
  | nothing
  /-- A signed immediate value or displacement. -/
  | number (v : Int)
  | constant (w : Nat)
  | target (address : Nat)
  | relocated (w : Nat)
  deriving DecidableEq

structure Decoded where
  mnemonic : String
  regs : List Reg := []
  operand : DecodedOperand := .nothing
  deriving DecidableEq

namespace Decode

def reg (w bit : Nat) : Option Reg := Reg.all[w / twoTo bit % 8]?

def shortReg (w bit : Nat) : Option Reg := Reg.all[w / twoTo bit % 4]?

/-- The signed number in the low bits. -/
def signed (w bits : Nat) : Int := Int.bmod w (twoTo bits)

def near (address w bits : Nat) : DecodedOperand :=
  .target ((address + 1 + signed w bits) % twoTo 32).toNat

def aluNames : List String := ["add", "sub", "and", "or", "xor", "shl", "shr", "sar"]

def unaryNames : List String := ["mov", "neg", "not", "sxb", "zxb"]

def branchNames : List String := ["beq", "bne", "blt", "bge", "bltu", "bgeu"]

def one (address w : Nat) : Option Decoded :=
  match w / twoTo 12 with
  | 0 => return { mnemonic := ← aluNames[w % 8]?, regs := [← reg w 9, ← reg w 6, ← reg w 3] }
  | 1 =>
    if w / twoTo 3 % 8 ≠ 0 then none
    else if w % 8 < 5 then return { mnemonic := ← unaryNames[w % 8]?, regs := [← reg w 9, ← reg w 6] }
    else if w / twoTo 9 % 8 ≠ 0 then none
    else if w % 8 = 5 then return { mnemonic := "jr", regs := [← reg w 6] }
    else if w % 8 = 6 then return { mnemonic := "callr", regs := [← reg w 6] }
    else if w / twoTo 6 % 8 = 0 then some { mnemonic := "ret" }
    else none
  | 2 => return { mnemonic := "addi", regs := [← reg w 9, ← reg w 6], operand := .number (signed w 6) }
  | 3 =>
    if w / twoTo 8 % 2 = 0 then
      return { mnemonic := "ldi", regs := [← reg w 9], operand := .number (signed w 8) }
    else return { mnemonic := "lea", regs := [← reg w 9], operand := near address w 8 }
  | 4 => return { mnemonic := "ld", regs := [← reg w 9, ← reg w 6], operand := .number (signed w 6) }
  | 5 => return { mnemonic := "st", regs := [← reg w 9, ← reg w 6], operand := .number (signed w 6) }
  | 6 =>
    let mnemonic := if w / twoTo 8 % 2 = 0 then "bnz" else "bz"
    return { mnemonic, regs := [← reg w 9], operand := near address w 8 }
  | 7 =>
    return { mnemonic := ← branchNames[w / twoTo 9 % 8]?, regs := [← shortReg w 7, ← shortReg w 5]
             operand := near address w 5 }
  | 8 => some { mnemonic := "br", operand := near address w 12 }
  | _ => none

def two (w : Nat) (second : CodeWord) : Option Decoded :=
  match w / twoTo 12, second.relocated with
  | 9, true =>
    if w % twoTo 11 = 0 then
      some { mnemonic := if w / twoTo 11 % 2 = 0 then "jmp" else "call", operand := .relocated second.value }
    else none
  | 10, isAddress =>
    if w % twoTo 9 = 0 then
      return { mnemonic := "ldl", regs := [← reg w 9]
               operand := if isAddress then .relocated second.value else .constant second.value }
    else none
  | _, _ => none

def isLong (w : Nat) : Bool := w / twoTo 12 == 9 || w / twoTo 12 == 10

/-- Reads words from the start, the first one being at an address. -/
def all (address : Nat) : List CodeWord → Option (List Decoded)
  | [] => some []
  | first :: rest =>
    if first.relocated then none
    else if isLong first.value then
      match rest with
      | [] => none
      | second :: rest => return (← two first.value second) :: (← all (addWords address 2) rest)
    else return (← one address first.value) :: (← all (addWords address 1) rest)

end Decode

open Encode in
def Instr.decoded (labels : Label → Option Nat) (address : Nat) : Instr → Option (List Decoded)
  | .label .. => some []
  | .alu op rd ra rb => some [{ mnemonic := op.mnemonic, regs := [rd, ra, rb] }]
  | .unary op rd ra => some [{ mnemonic := op.mnemonic, regs := [rd, ra] }]
  | .callReg ra => some [{ mnemonic := "callr", regs := [ra] }]
  | .jumpReg ra _ => some [{ mnemonic := "jr", regs := [ra] }]
  | .ret _ => some [{ mnemonic := "ret" }]
  | .addImm rd ra imm => return [{ mnemonic := "addi", regs := [rd, ra], operand := .number (← imm.value) }]
  | .load rd base disp => return [{ mnemonic := "ld", regs := [rd, base], operand := .number (← disp.value) }]
  | .store rs base disp => return [{ mnemonic := "st", regs := [rs, base], operand := .number (← disp.value) }]
  | .loadImm rd value =>
    if fitsSigned value 8 then some [{ mnemonic := "ldi", regs := [rd], operand := .number value }]
    else some [{ mnemonic := "ldl", regs := [rd], operand := .constant (value % twoTo 16).toNat }]
  | .loadSymbol rd _ offset =>
    some [{ mnemonic := "ldl", regs := [rd], operand := .relocated (offset % twoTo 16).toNat }]
  | .loadLabel rd l short =>
    if short then return [{ mnemonic := "lea", regs := [rd], operand := .target ((← labels l) % twoTo 32) }]
    else return [{ mnemonic := "ldl", regs := [rd], operand := .relocated ((← labels l) % twoTo 16) }]
  | .branch cond ra rb l short =>
    if short then
      return [{ mnemonic := cond.mnemonic, regs := [ra, rb], operand := .target ((← labels l) % twoTo 32) }]
    else return { mnemonic := cond.negate.mnemonic, regs := [ra, rb], operand := skip } :: (← jump l)
  | .branchZero nonzero ra l short =>
    if short then
      return [{ mnemonic := zeroName nonzero, regs := [ra], operand := .target ((← labels l) % twoTo 32) }]
    else return { mnemonic := zeroName !nonzero, regs := [ra], operand := skip } :: (← jump l)
  | .jump l short =>
    if short then return [{ mnemonic := "br", operand := .target ((← labels l) % twoTo 32) }] else jump l
  | .jumpSymbol _ => some [{ mnemonic := "jmp", operand := .relocated 0 }]
  | .call _ => some [{ mnemonic := "call", operand := .relocated 0 }]
where
  zeroName (nonzero : Bool) : String := if nonzero then "bnz" else "bz"
  /-- The address behind an opposite branch and the jump that it skips. -/
  skip : DecodedOperand := .target (addWords address 3)
  jump (l : Label) : Option (List Decoded) :=
    return [{ mnemonic := "jmp", operand := .relocated ((← labels l) % twoTo 16) }]

/-! ## Fields -/

namespace Decode

open Encode

lemma reg_eq {w bit : Nat} (h : w / twoTo bit % 8 = r.number) : reg w bit = some r := by
  rw [reg, h]
  cases r <;> rfl

lemma shortReg_eq {w bit : Nat} (h : w / twoTo bit % 4 = r.number) : shortReg w bit = some r := by
  rw [shortReg, h]
  cases r <;> rfl

lemma signed_field {v : Int} {bits f : Nat} (hbits : bits < 32) (h : field v bits = .ok f) (k : Nat) :
    signed (twoTo bits * k + f) bits = v ∧ f < twoTo bits := by
  unfold field at h
  split at h
  · rename_i hfits
    cases h
    have hpos : (0 : Int) < twoTo bits := natCast_pos.mpr (Nat.two_pow_pos bits)
    have hmod := Int.emod_nonneg v (Int.ne_of_gt hpos)
    have hlt := emod_lt_of_pos v hpos
    refine ⟨?_, by omega⟩
    simp only [fitsSigned, Nat.mod_eq_of_lt hbits, Bool.and_eq_true, decide_eq_true_eq] at hfits
    obtain ⟨⟨hb, hlow⟩, hhigh⟩ := hfits
    have hhalf : (twoTo bits : Int) = 2 * twoTo (bits - 1) := by
      obtain ⟨b, rfl⟩ : ∃ b, bits = b + 1 := ⟨bits - 1, by omega⟩
      simp only [twoTo, Nat.pow_eq, Nat.add_sub_cancel, Nat.pow_succ]
      push_cast
      exact Int.mul_comm _ _
    rw [signed, natCast_add, natCast_mul, toNat_of_nonneg hmod, mul_add_bmod_self_left, emod_bmod]
    exact bmod_eq_of_le (by omega) (by omega)
  · cases h

lemma delivers_field {may : Prop} {v : Int} {bits : Nat} (h : may ∨ fitsSigned v bits) :
    Delivers may (field v bits) (field v bits = .ok ·) := by
  unfold field
  split
  · exact rfl
  · exact h.resolve_right ‹_›

/-! ## Reading on -/

lemma isLong_of_one {address w : Nat} {d : Decoded} (h : one address w = some d) : isLong w = false := by
  rw [Bool.eq_false_iff]
  intro hlong
  rw [isLong, Bool.or_eq_true, beq_iff_eq, beq_iff_eq] at hlong
  rcases hlong with h9 | h10
  · simp only [one, h9, reduceCtorEq] at h
  · simp only [one, h10, reduceCtorEq] at h

variable {second : CodeWord}

lemma isLong_of_two {w : Nat} {d : Decoded} (h : two w second = some d) : isLong w := by
  unfold two at h
  split at h
  · rename_i h9 _
    rw [isLong, h9]
    rfl
  · rename_i h10
    rw [isLong, h10]
    rfl
  · cases h

lemma all_one {address w : Nat} {d : Decoded} (h : one address w = some d) (rest : List CodeWord) :
    all address (.plain w :: rest) = (all (addWords address 1) rest).map (d :: ·) := by
  rw [all.eq_def]
  simp only [CodeWord.plain, isLong_of_one h, h]
  cases all (addWords address 1) rest <;> rfl

lemma all_two {address w : Nat} {d : Decoded} (h : two w second = some d) (rest : List CodeWord) :
    all address (.plain w :: second :: rest) = (all (addWords address 2) rest).map (d :: ·) := by
  rw [all.eq_def]
  simp only [CodeWord.plain, isLong_of_two h, h]
  cases all (addWords address 2) rest <;> rfl

/-! ## One word -/

/-- A word is a short form that holds a distance. -/
structure Short (address bits : Nat) (v : Int) (mnemonic : String) (regs : List Reg) (w : Nat) : Prop where
  signed_eq : signed w bits = v
  one_eq : one address w = some { mnemonic, regs, operand := near address w bits }

lemma fields_eq {w o d a b f : Nat} (hw : w = o * 4096 + d * 512 + a * 64 + b * 8 + f) (hd : d < 8)
    (ha : a < 8) (hb : b < 8) (hf : f < 8) :
    w / twoTo 12 = o ∧ w / twoTo 9 % 8 = d ∧ w / twoTo 6 % 8 = a ∧ w / twoTo 3 % 8 = b ∧ w % 8 = f := by
  simp only [twoTo, Nat.pow_eq]
  omega

variable {address w : Nat}

section

variable {rd ra rb : Reg}

lemma one_alu {op : AluOp}
    (hw : w = opcode op.mnemonic + atBit rd 9 + atBit ra 6 + atBit rb 3 + subcode op.mnemonic) :
    one address w = some { mnemonic := op.mnemonic, regs := [rd, ra, rb] } := by
  have hop : opcode op.mnemonic = 0 * 4096 := by cases op <;> rfl
  have hsub : subcode op.mnemonic < 8 := by cases op <;> decide
  have hname : aluNames[subcode op.mnemonic]? = some op.mnemonic := by cases op <;> rfl
  rw [hop] at hw
  obtain ⟨h12, h9, h6, h3, hf⟩ := fields_eq hw rd.number_lt ra.number_lt rb.number_lt hsub
  simp [one, h12, hf, hname, reg_eq h9, reg_eq h6, reg_eq h3]

lemma one_unary {op : UnaryInstr} (hw : w = opcode op.mnemonic + atBit rd 9 + atBit ra 6 + subcode op.mnemonic) :
    one address w = some { mnemonic := op.mnemonic, regs := [rd, ra] } := by
  have hop : opcode op.mnemonic = 1 * 4096 := by cases op <;> rfl
  have hsub : subcode op.mnemonic < 5 := by cases op <;> decide
  have hname : unaryNames[subcode op.mnemonic]? = some op.mnemonic := by cases op <;> rfl
  have hw' : w = 1 * 4096 + rd.number * 512 + ra.number * 64 + 0 * 8 + subcode op.mnemonic := by
    rw [hw, hop]
    rfl
  obtain ⟨h12, h9, h6, h3, hf⟩ := fields_eq hw' rd.number_lt ra.number_lt (by omega) (by omega)
  simp [one, h12, h3, hf, hsub, hname, reg_eq h9, reg_eq h6]

lemma one_transfer (ra : Reg) (f : Nat) (hw : w = 1 * 4096 + 0 * 512 + ra.number * 64 + 0 * 8 + f)
    (h5 : ¬ f < 5) (h8 : f < 8) :
    one address w = if f = 5 then some { mnemonic := "jr", regs := [ra] }
      else if f = 6 then some { mnemonic := "callr", regs := [ra] }
      else if ra.number = 0 then some { mnemonic := "ret" } else none := by
  obtain ⟨h12, h9, h6, h3, hf⟩ := fields_eq hw (by omega) ra.number_lt (by omega) h8
  simp [one, h12, h9, h6, h3, hf, reg_eq h6, h5]

variable {word : CodeWord} {f : Nat} {v : Int} {may : Prop}

lemma byteFields_eq (hw : w = o * 4096 + rd.number * 512 + p * 256 + f) (hp : p < 2)
    (hf : field v 8 = .ok f) : w / twoTo 12 = o ∧ reg w 9 = some rd ∧ w / twoTo 8 % 2 = p ∧ signed w 8 = v := by
  obtain ⟨hsigned, hlt⟩ := signed_field (by decide) hf (o * 16 + rd.number * 2 + p)
  have hrd := rd.number_lt
  simp only [twoTo, Nat.pow_eq] at hlt hsigned
  have hw' : w = 2 ^ 8 * (o * 16 + rd.number * 2 + p) + f := by omega
  rw [← hw'] at hsigned
  refine ⟨?_, reg_eq ?_, ?_, hsigned⟩ <;> simp only [twoTo, Nat.pow_eq] <;> omega

lemma one_loadImm (hf : field v 8 = .ok f) (hw : w = opcode "ldi" + atBit rd 9 + subcode "ldi" * twoTo 8 + f) :
    one address w = some { mnemonic := "ldi", regs := [rd], operand := .number v } := by
  have hw' : w = 3 * 4096 + rd.number * 512 + 0 * 256 + f := hw
  obtain ⟨h12, h9, h8, hsigned⟩ := byteFields_eq hw' (by omega) hf
  simp [one, h12, h9, h8, hsigned]

lemma short_loadLabel (hf : field v 8 = .ok f) (hw : w = opcode "lea" + atBit rd 9 + subcode "lea" * twoTo 8 + f) :
    Short address 8 v "lea" [rd] w := by
  have hw' : w = 3 * 4096 + rd.number * 512 + 1 * 256 + f := hw
  obtain ⟨h12, h9, h8, hsigned⟩ := byteFields_eq hw' (by omega) hf
  exact ⟨hsigned, by simp [one, h12, h9, h8]⟩

variable (address) in
lemma delivers_branchZeroWord (nonzero : Bool) (hs : may ∨ fitsSigned v 8) :
    Delivers may (branchZeroWord nonzero ra v) fun word ↦
      ∃ w, word = .plain w ∧ Short address 8 v (if nonzero then "bnz" else "bz") [ra] w := by
  refine (delivers_field hs).bind fun f hf ↦ ?_
  have hw : opcode (if nonzero then "bnz" else "bz") + atBit ra 9 +
      subcode (if nonzero then "bnz" else "bz") * twoTo 8 + f =
        6 * 4096 + ra.number * 512 + (if nonzero then 0 else 1) * 256 + f := by cases nonzero <;> rfl
  obtain ⟨h12, h9, h8, hsigned⟩ := byteFields_eq hw (by cases nonzero <;> decide) hf
  refine ⟨_, rfl, hsigned, ?_⟩
  simp only [one, h12, h8, h9]
  cases nonzero <;> rfl

variable (address) in
lemma delivers_branchWord (cond : BranchCond) (hra : ra.number ≤ 3) (hrb : rb.number ≤ 3)
    (hs : may ∨ fitsSigned v 5) : Delivers may (branchWord cond ra rb v) fun word ↦
      ∃ w, word = .plain w ∧ Short address 5 v cond.mnemonic [ra, rb] w := by
  refine (delivers_field hs).bind fun f hf ↦ ?_
  have hop : opcode cond.mnemonic = 7 * 4096 := by cases cond <;> rfl
  have hsub : subcode cond.mnemonic < 6 := by cases cond <;> decide
  have hname : branchNames[subcode cond.mnemonic]? = some cond.mnemonic := by cases cond <;> rfl
  obtain ⟨hsigned, hlt⟩ := signed_field (by decide) hf
    (7 * 128 + subcode cond.mnemonic * 16 + ra.number * 4 + rb.number)
  generalize hw : opcode cond.mnemonic + subcode cond.mnemonic * twoTo 9 + atBit ra 7 + atBit rb 5 + f = w
  simp only [hop, atBit, twoTo, Nat.pow_eq] at hw hlt hsigned
  have hw' : w = 2 ^ 5 * (7 * 128 + subcode cond.mnemonic * 16 + ra.number * 4 + rb.number) + f := by omega
  rw [← hw'] at hsigned
  have h12 : w / twoTo 12 = 7 := by simp only [twoTo, Nat.pow_eq]; omega
  have h9 : w / twoTo 9 % 8 = subcode cond.mnemonic := by simp only [twoTo, Nat.pow_eq]; omega
  have h7 : w / twoTo 7 % 4 = ra.number := by simp only [twoTo, Nat.pow_eq]; omega
  have h5 : w / twoTo 5 % 4 = rb.number := by simp only [twoTo, Nat.pow_eq]; omega
  exact ⟨w, rfl, hsigned, by simp [one, h12, h9, hname, shortReg_eq h7, shortReg_eq h5]⟩

lemma short_jump (hf : field v 12 = .ok f) : Short address 12 v "br" [] (opcode "br" + f) := by
  obtain ⟨hsigned, hlt⟩ := signed_field (by decide) hf 8
  have h12 : (twoTo 12 * 8 + f) / twoTo 12 = 8 := by
    simp only [twoTo, Nat.pow_eq] at hlt ⊢
    omega
  exact ⟨hsigned, by simp [one, show opcode "br" + f = twoTo 12 * 8 + f from rfl, h12]⟩

/-! ## Two words -/

lemma two_longLoad (second : CodeWord) : two (opcode "ldl" + atBit rd 9) second = some
      { mnemonic := "ldl", regs := [rd]
        operand := if second.relocated then .relocated second.value else .constant second.value } := by
  have hw : opcode "ldl" + atBit rd 9 = 10 * 4096 + rd.number * 512 + 0 * 64 + 0 * 8 + 0 := rfl
  obtain ⟨h12, h9, _, _, _⟩ := fields_eq hw rd.number_lt (by omega) (by omega) (by omega)
  have hlow : (opcode "ldl" + atBit rd 9) % twoTo 9 = 0 := by
    rw [hw]
    simp only [twoTo, Nat.pow_eq]
    omega
  simp [two, h12, hlow, reg_eq h9]

lemma two_jump (a : Int) : two (opcode "jmp" + subcode "jmp" * twoTo 11) (.reloc a) = some
      { mnemonic := "jmp", operand := .relocated (a % twoTo 16).toNat } := by
  have hw : opcode "jmp" + subcode "jmp" * twoTo 11 = 9 * 4096 := rfl
  rw [hw]
  rfl

lemma two_call (a : Int) : two (opcode "call" + subcode "call" * twoTo 11) (.reloc a) = some
      { mnemonic := "call", operand := .relocated (a % twoTo 16).toNat } := by
  have hw : opcode "call" + subcode "call" * twoTo 11 = 9 * 4096 + 2048 := rfl
  rw [hw]
  rfl

end

/-! ## Instructions -/

lemma near_mod (address w bits : Nat) : near (address % twoTo 32) w bits = near address w bits := by
  rw [near, near, Int.natCast_emod, Int.add_assoc, Int.emod_add_emod, Int.add_assoc]

lemma addWords_mod (address n : Nat) : addWords (address % twoTo 32) n = addWords address n := Nat.mod_add_mod ..

lemma all_mod (address : Nat) (words : List CodeWord) : all (address % twoTo 32) words = all address words := by
  have hone (w : Nat) : one (address % twoTo 32) w = one address w := by simp [one, near_mod]
  rw [all.eq_def, all.eq_def address]
  cases words with
  | nil => rfl
  | cons first rest => simp [hone, addWords_mod]

def Reads (address : Nat) (words : List CodeWord) (ds : List Decoded) : Prop :=
  ∀ rest, all address (words ++ rest) = (all (addWords address words.length) rest).map (ds ++ ·)

section

variable {d : Decoded} {ds : List Decoded}

lemma reads_nil (address : Nat) : Reads address [] [] := by
  intro rest
  have hmod : all (addWords address 0) rest = all address rest := all_mod address rest
  rw [List.nil_append, List.length_nil, hmod, List.nil_append_fun, Option.map_id, id]

lemma reads_one (h : one address w = some d) : Reads address [.plain w] [d] := fun rest ↦ all_one h rest

lemma reads_two (h : two w second = some d) : Reads address [.plain w, second] [d] := fun rest ↦ all_two h rest

lemma Reads.cons {words : List CodeWord} (h : one address w = some d) (hrest : Reads (addWords address 1) words ds) :
    Reads address (.plain w :: words) (d :: ds) := by
  intro rest
  have hlength : addWords (addWords address 1) words.length = addWords address (words.length + 1) := by
    simp [addWords, Nat.mod_add_mod, Nat.add_assoc, Nat.add_comm 1]
  rw [List.cons_append, all_one h, hrest rest, hlength, Option.map_map]
  rfl

end

lemma near_wrap32 {address n w bits : Nat} (h : signed w bits = wrap32 (n - (address + 1))) :
    ((address + 1 + signed w bits) % twoTo 32).toNat = n % twoTo 32 := by
  have hsum : (address + 1 + wrap32 (n - (address + 1))) % (twoTo 32 : Int) = (n : Int) % twoTo 32 := by
    rw [wrap32, add_emod, bmod_emod, ← add_emod]
    congr 1
    omega
  rw [h, hsum]
  rfl

end Decode

section

open Encode Decode

def Instr.fitsFields : Instr → Bool
  | .branch _ ra rb _ _ => ra.number ≤ 3 && rb.number ≤ 3
  | .addImm _ _ d | .load _ _ d | .store _ _ d => d.value.any (fitsSigned · Frame.dispBits)
  | _ => true

/-- The words of an instruction lead to an address. A short form holds the distance from the word behind
it, a long form the address itself; a branch that is long goes around a jump to the address. -/
inductive Instr.Leads (address target : Nat) (i : Instr) : List CodeWord → Prop where
  | near {w bits : Nat} (hshort : i.isShort) (hbits : i.shortBits = some bits)
    (h : ((address + 1 + Decode.signed w bits) % twoTo 32).toNat = target) : i.Leads address target [.plain w]
  | far {w : Nat} (hlong : i.isShort = false) : i.Leads address target [.plain w, .reloc target]
  | around {w bits : Nat} (hlong : i.isShort = false) (hbits : i.shortBits = some bits)
    (h : ((address + 1 + Decode.signed w bits) % twoTo 32).toNat = addWords address i.size) :
    i.Leads address target (.plain w :: jumpWords "jmp" target)

/-- An instruction whose operands fit and whose label is known, and in reach of its form if that is short. -/
structure Instr.Reachable (labels : Label → Option Nat) (address : Nat) (i : Instr) : Prop where
  fits : i.fitsFields
  reached : ∀ l bits, i.relaxTarget = some l → i.shortBits = some bits → ∃ target, labels l = some target ∧
    target < twoTo 32 ∧ (i.isShort → fitsSigned (Relax.shortOffset address target) bits)

variable {may : Prop} {labels : Label → Option Nat} {address : Nat} {i : Instr} {l : Label} {n w bits : Nat}

/-- The words of an instruction are read as what it holds, are as many as its size says, and lead to its
label. -/
structure Instr.Encoded (labels : Label → Option Nat) (address : Nat) (i : Instr) (words : List CodeWord) :
    Prop where
  reads : ∃ ds, i.decoded labels address = some ds ∧ Reads address words ds
  length_eq : words.length = i.size
  leads : ∀ l target, i.relaxTarget = some l → labels l = some target → target < twoTo 32 →
    i.Leads address target words

namespace Instr.Encoded

variable {words : List CodeWord} {ds : List Decoded} {mnemonic : String} {regs : List Reg} {rd ra : Reg}

lemma still (hrelax : i.relaxTarget = none) (hlength : words.length = i.size)
    (hd : i.decoded labels address = some ds) (hreads : Reads address words ds) : i.Encoded labels address words :=
  ⟨⟨ds, hd, hreads⟩, hlength, fun l _ hl ↦ by rw [hrelax] at hl; cases hl⟩

lemma delivers_disp {disp : Disp} (mnemonic : String) (o : Nat) (hop : opcode mnemonic = o * 4096)
    (hone : ∀ w, w / twoTo 12 = o → one address w =
      (do return { mnemonic, regs := [← reg w 9, ← reg w 6], operand := .number (signed w 6) }))
    (hrelax : i.relaxTarget = none) (hsize : 1 = i.size) (hs : may ∨ disp.value.any (fitsSigned · Frame.dispBits))
    (hd : ∀ v, disp.value = some v →
      i.decoded labels address = some [{ mnemonic, regs := [rd, ra], operand := .number v }]) :
    Delivers may (do return [← dispWord mnemonic rd ra disp]) (i.Encoded labels address) := by
  refine Delivers.bind (P := fun word ↦ i.Encoded labels address [word]) ?_ fun _ h ↦ h
  unfold dispWord
  cases hv : disp.value with
  | none => exact hs.resolve_right (by simp [hv])
  | some v =>
    refine (delivers_field (hs.imp_right fun h ↦ by simpa [hv, Frame.dispBits] using h)).bind fun f hf ↦ ?_
    obtain ⟨hsigned, hlt⟩ := signed_field (by decide) hf (o * 64 + rd.number * 8 + ra.number)
    refine still hrelax hsize (hd v hv) (reads_one ?_)
    generalize hw : opcode mnemonic + atBit rd 9 + atBit ra 6 + f = w
    simp only [hop, atBit, twoTo, Nat.pow_eq] at hw hlt hsigned
    have hfields : w = o * 4096 + rd.number * 512 + ra.number * 64 + f / 8 * 8 + f % 8 := by omega
    obtain ⟨h12, h9, h6, -⟩ := fields_eq hfields rd.number_lt ra.number_lt (by omega) (by omega)
    have hw' : w = 2 ^ 6 * (o * 64 + rd.number * 8 + ra.number) + f := by omega
    rw [← hw'] at hsigned
    rw [hone w h12, reg_eq h9, reg_eq h6, hsigned]
    rfl

variable (hrelax : i.relaxTarget = some l)

include hrelax

lemma leading (hn : labels l = some n) (hlength : words.length = i.size) (hd : i.decoded labels address = some ds)
    (hreads : Reads address words ds) (hleads : n < twoTo 32 → i.Leads address n words) :
    i.Encoded labels address words := by
  refine ⟨⟨ds, hd, hreads⟩, hlength, fun l' _ hl' htarget ↦ ?_⟩
  cases hrelax.symm.trans hl'
  cases hn.symm.trans htarget
  exact hleads

variable (hs : may ∨ i.Reachable labels address) (hbits : i.shortBits = some bits)

include hs hbits

lemma delivers_target : Delivers may (encode.target labels l) fun a ↦ ∃ n : Nat, labels l = some n ∧ a = n := by
  unfold encode.target
  split
  · exact ⟨_, ‹_›, rfl⟩
  · refine hs.resolve_right fun h ↦ ?_
    obtain ⟨n, _, -⟩ := h.reached l bits hrelax hbits
    simp_all

lemma delivers_near {form : Int → Except InternalFault (List CodeWord)} (hlength : 1 = i.size) (hshort : i.isShort)
    (hd : ∀ n, labels l = some n →
      i.decoded labels address = some [{ mnemonic, regs, operand := .target (n % twoTo 32) }])
    (hform : ∀ v, may ∨ fitsSigned v bits →
      Delivers may (form v) fun words ↦ ∃ w, words = [.plain w] ∧ Short address bits v mnemonic regs w) :
    Delivers may (encode.distance labels address l >>= form) (i.Encoded labels address) := by
  refine ((delivers_target hrelax hs hbits).bind (Q := fun v ↦ ∃ n : Nat, labels l = some n ∧
    v = wrap32 (n - (address + 1))) fun a ha ↦ ?_).bind fun v hv ↦ ?_
  · obtain ⟨n, hn, rfl⟩ := ha
    exact ⟨n, hn, rfl⟩
  obtain ⟨n, hn, rfl⟩ := hv
  have hfits : may ∨ fitsSigned (wrap32 (n - (address + 1))) bits := hs.imp_right fun h ↦ by
    obtain ⟨_, hn', -, hfits⟩ := h.reached l bits hrelax hbits
    cases hn.symm.trans hn'
    exact hfits hshort
  refine (hform _ hfits).mono fun _ h ↦ ?_
  obtain ⟨w, rfl, hsigned, hone⟩ := h
  have hnear := near_wrap32 hsigned
  rw [Decode.near, hnear] at hone
  exact leading hrelax hn hlength (hd n hn) (reads_one hone) fun hlt ↦
    .near hshort hbits (hnear.trans (Nat.mod_eq_of_lt hlt))

lemma delivers_around {word : Except InternalFault CodeWord} (hsize : 3 = i.size) (hlong : i.isShort = false)
    (hd : ∀ n, labels l = some n → i.decoded labels address = some
      [{ mnemonic, regs, operand := .target (addWords address 3) },
        { mnemonic := "jmp", operand := .relocated (n % twoTo 16) }])
    (hword : Delivers may word fun word ↦ ∃ w, word = .plain w ∧ Short address bits 2 mnemonic regs w) :
    Delivers may (do return (← word) :: jumpWords "jmp" (← encode.target labels l)) (i.Encoded labels address) := by
  refine hword.bind fun _ h ↦ (delivers_target hrelax hs hbits).bind fun a ha ↦ ?_
  obtain ⟨w, rfl, hsigned, hone⟩ := h
  obtain ⟨n, hn, rfl⟩ := ha
  have hskip : ((address + 1 + signed w bits) % twoTo 32).toNat = addWords address 3 := by
    rw [hsigned]
    rfl
  rw [Decode.near, hskip] at hone
  exact leading hrelax hn hsize (hd n hn) (.cons hone (reads_two (two_jump n))) fun _ ↦
    .around hlong hbits (hsize ▸ hskip)

end Instr.Encoded

lemma Instr.delivers_encode (hs : may ∨ i.Reachable labels address) :
    Delivers may (i.encode labels address) (i.Encoded labels address) := by
  have hfits : may ∨ i.fitsFields := hs.imp_right (·.fits)
  cases i with
  | label l liveIn => exact Encoded.still rfl rfl rfl (reads_nil address)
  | alu op rd ra rb => exact Encoded.still rfl rfl rfl (reads_one (one_alu rfl))
  | unary op rd ra => exact Encoded.still rfl rfl rfl (reads_one (one_unary rfl))
  | callReg ra => exact Encoded.still rfl rfl rfl (reads_one (one_transfer ra 6 rfl (by decide) (by decide)))
  | jumpReg ra targets => exact Encoded.still rfl rfl rfl (reads_one (one_transfer ra 5 rfl (by decide) (by decide)))
  | ret wide => exact Encoded.still rfl rfl rfl (reads_one (one_transfer .r0 7 rfl (by decide) (by decide)))
  | addImm rd ra disp =>
    exact Encoded.delivers_disp "addi" 2 rfl (fun w hw ↦ by simp [one, hw]) rfl rfl hfits
      fun v hv ↦ by rw [decoded, hv]; rfl
  | load rd ra disp =>
    exact Encoded.delivers_disp "ld" 4 rfl (fun w hw ↦ by simp [one, hw]) rfl rfl hfits
      fun v hv ↦ by rw [decoded, hv]; rfl
  | store rd ra disp =>
    exact Encoded.delivers_disp "st" 5 rfl (fun w hw ↦ by simp [one, hw]) rfl rfl hfits
      fun v hv ↦ by rw [decoded, hv]; rfl
  | loadImm rd value =>
    rw [encode]
    split
    · rename_i hvalue
      refine (delivers_field (.inr hvalue)).bind fun f hf ↦ ?_
      refine Encoded.still rfl ?_ (if_pos hvalue) (reads_one (one_loadImm hf rfl))
      rw [size, if_pos hvalue]
      rfl
    · rename_i hvalue
      refine Encoded.still rfl ?_ (if_neg hvalue) (reads_two (two_longLoad _))
      rw [size, if_neg hvalue]
      rfl
  | loadSymbol rd symbol offset => exact Encoded.still rfl rfl rfl (reads_two (two_longLoad _))
  | loadLabel rd l short =>
    cases short with
    | true =>
      refine Encoded.delivers_near rfl hs rfl rfl rfl (fun n hn ↦ by simp only [decoded, hn]; rfl) fun v hv ↦ ?_
      exact (delivers_field hv).bind fun f hf ↦ ⟨_, rfl, short_loadLabel hf rfl⟩
    | false =>
      refine (Encoded.delivers_target rfl hs rfl).bind fun a ha ↦ ?_
      obtain ⟨n, hn, rfl⟩ := ha
      exact Encoded.leading rfl hn rfl (by simp only [decoded, hn]; rfl) (reads_two (two_longLoad _)) fun _ ↦ .far rfl
  | branch cond ra rb l short =>
    rw [encode]
    split
    · rename_i hregs
      exact hfits.resolve_right fun h ↦ by simp [fitsFields] at h hregs; omega
    rename_i hregs
    simp only [Bool.or_eq_true, decide_eq_true_eq, not_or, Nat.not_lt] at hregs
    cases short with
    | true =>
      refine Encoded.delivers_near rfl hs rfl rfl rfl (fun n hn ↦ by simp only [decoded, hn]; rfl) fun v hv ↦ ?_
      refine (delivers_branchWord address cond hregs.1 hregs.2 hv).bind fun word h ↦ ?_
      obtain ⟨w, rfl, hshort⟩ := h
      exact ⟨w, rfl, hshort⟩
    | false =>
      exact Encoded.delivers_around rfl hs rfl rfl rfl (fun n hn ↦ by simp only [decoded, decoded.jump, hn]; rfl)
        (delivers_branchWord address cond.negate hregs.1 hregs.2 (.inr (by decide)))
  | branchZero nonzero ra l short =>
    cases short with
    | true =>
      refine Encoded.delivers_near rfl hs rfl rfl rfl (fun n hn ↦ by simp only [decoded, hn]; rfl) fun v hv ↦ ?_
      refine (delivers_branchZeroWord address nonzero hv).bind fun word h ↦ ?_
      obtain ⟨w, rfl, hshort⟩ := h
      exact ⟨w, rfl, hshort⟩
    | false =>
      exact Encoded.delivers_around rfl hs rfl rfl rfl (fun n hn ↦ by simp only [decoded, decoded.jump, hn]; rfl)
        (delivers_branchZeroWord address (!nonzero) (.inr (by decide)))
  | jump l short =>
    cases short with
    | true =>
      refine Encoded.delivers_near rfl hs rfl rfl rfl (fun n hn ↦ by simp only [decoded, hn]; rfl) fun v hv ↦ ?_
      exact (delivers_field hv).bind fun f hf ↦ ⟨_, rfl, short_jump hf⟩
    | false =>
      refine (Encoded.delivers_target rfl hs rfl).bind fun a ha ↦ ?_
      obtain ⟨n, hn, rfl⟩ := ha
      exact Encoded.leading rfl hn rfl (by simp only [decoded, decoded.jump, hn]; rfl)
        (reads_two (two_jump _)) fun _ ↦ .far rfl
  | jumpSymbol symbol => exact Encoded.still rfl rfl rfl (reads_two (two_jump 0))
  | call symbol => exact Encoded.still rfl rfl rfl (reads_two (two_call 0))

lemma Instr.encoded_of_encode {words : List CodeWord} (h : i.encode labels address = .ok words) :
    i.Encoded labels address words :=
  (delivers_encode (.inl trivial)).of_eq h

lemma Instr.Reachable.encode (h : i.Reachable labels address) : ∃ words, i.encode labels address = .ok words := by
  have hgives : Delivers False _ _ := delivers_encode (.inr h)
  cases hwords : i.encode labels address with
  | ok words => exact ⟨words, rfl⟩
  | error e =>
    rw [hwords] at hgives
    exact hgives.elim

end

/-! ## Code -/

/-- Each instruction's address and words, with the labels at given addresses. -/
def Code.encodeAt (labels : Label → Option Nat) (base : Nat) (code : Code) :
    Except InternalFault (List (Nat × List CodeWord)) :=
  (code.addressed base).mapM fun (a, i) ↦ do return (a, ← i.value.encode labels a)

/-- What the words of each instruction hold. -/
def Code.decodedAt (labels : Label → Option Nat) (base : Nat) (code : Code) : Option (List (List Decoded)) :=
  (code.addressed base).mapM fun (a, i) ↦ i.value.decoded labels a

lemma Code.encode_eq_encodeAt (code : Code) (base : Nat) :
    code.encode base = code.encodeAt ((code.labelAddresses base).lookup ·) base := rfl

/-- The words of code are read, from the first one on, as what its instructions hold one after another. -/
theorem Code.all_encodeAt {labels : Label → Option Nat} {base : Nat} {code : Code}
    {words : List (Nat × List CodeWord)} (h : code.encodeAt labels base = .ok words) :
    ∃ parts, code.decodedAt labels base = some parts ∧
      Decode.all base (words.flatMap (·.2)) = some parts.flatten := by
  induction code generalizing base words with
  | nil =>
    cases h
    exact ⟨[], rfl, rfl⟩
  | cons i rest ih =>
    obtain ⟨w, ws, hfirst, hrest, rfl⟩ := mapM_cons_eq_ok.mp h
    obtain ⟨first, hencode, hw⟩ := bind_eq_ok.mp hfirst
    cases hw
    obtain ⟨⟨ds, hds, hreads⟩, hlength, -⟩ := Instr.encoded_of_encode hencode
    obtain ⟨parts, hparts, hall⟩ := ih hrest
    refine ⟨ds :: parts, ?_, ?_⟩
    · rw [decodedAt] at hparts
      simp only [decodedAt, addressed, List.mapM_cons, hds, hparts]
      rfl
    · rw [List.flatMap_cons, hreads, hlength, hall]
      rfl

namespace Decode.Example

/-- A count down from a large number, with a long branch out of it. -/
def countdown : Code :=
  let instrs : List Instr := [.loadImm .r1 40000, .label ⟨0⟩ .empty, .branch .eq .r1 .r2 ⟨1⟩ false,
    .addImm .r1 .r1 (.num (-1)), .jump ⟨0⟩ true, .label ⟨1⟩ .empty, .loadSymbol .r3 "table" (-2), .ret false]
  instrs.map (⟨·, none⟩)

end Decode.Example

open Decode.Example in
theorem Code.all_encodeAt_countdown :
    ∃ words, countdown.encode 100 = .ok words ∧
      Decode.all 100 (words.flatMap (·.2)) = some
        [{ mnemonic := "ldl", regs := [.r1], operand := .constant 40000 },
          { mnemonic := "bne", regs := [.r1, .r2], operand := .target 105 },
          { mnemonic := "jmp", operand := .relocated 107 },
          { mnemonic := "addi", regs := [.r1, .r1], operand := .number (-1) },
          { mnemonic := "br", operand := .target 102 },
          { mnemonic := "ldl", regs := [.r3], operand := .relocated 65534 },
          { mnemonic := "ret" }] := by
  have hok : (countdown.encode 100).isOk := by decide +kernel
  obtain ⟨words, hwords⟩ : ∃ words, countdown.encode 100 = .ok words := by
    cases h : countdown.encode 100 with
    | ok words => exact ⟨words, rfl⟩
    | error e =>
      rw [h] at hok
      cases hok
  obtain ⟨parts, hparts, hall⟩ := Code.all_encodeAt (countdown.encode_eq_encodeAt 100 ▸ hwords)
  refine ⟨words, hwords, hall.trans ?_⟩
  rw [← Option.map_some, ← hparts]
  decide +kernel

end W16Compiler
