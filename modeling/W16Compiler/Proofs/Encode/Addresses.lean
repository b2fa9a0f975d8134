import W16Compiler.Machine.Encode
import Mathlib.Data.List.Basic

/-!
# Addresses

An instruction stands as many words behind the start of the code as the instructions before it have.
Addresses count modulo two to the power of thirty-two. A label has the address of its last definition.
-/

namespace W16Compiler.Code

open List

variable {code : Code} {base n : Nat} {l : Label}

lemma size_cons (i : Item Instr) (code : Code) : size (i :: code) = i.value.size + size code := rfl

lemma size_take_le (code : Code) (n : Nat) : size (code.take n) ≤ code.size := by
  induction code generalizing n with
  | nil => exact Nat.le_of_eq (congrArg size take_nil)
  | cons i code ih =>
    cases n with
    | zero => exact Nat.zero_le _
    | succ n =>
      rw [take_succ_cons, size_cons, size_cons]
      exact Nat.add_le_add_left (ih n) _

lemma size_append (code code' : Code) : size (code ++ code') = code.size + code'.size := by
  induction code with
  | nil => exact (Nat.zero_add _).symm
  | cons i code ih => rw [cons_append, size_cons, size_cons, ih, Nat.add_assoc]

lemma size_take_succ (h : code[n]? = some i) : size (code.take (n + 1)) = size (code.take n) + i.value.size := by
  rw [take_add_one, h, size_append]
  rfl

lemma size_take_mono (code : Code) (h : m ≤ n) : size (code.take m) ≤ size (code.take n) := by
  have hle := size_take_le (code.take n) m
  rwa [take_take, Nat.min_eq_left h] at hle

def address (code : Code) (base n : Nat) : Nat := (base + size (code.take n)) % twoTo 32

lemma address_lt (code : Code) (base n : Nat) : code.address base n < twoTo 32 := Nat.mod_lt _ (Nat.two_pow_pos 32)

lemma address_zero (h : base < twoTo 32) (code : Code) : code.address base 0 = base := Nat.mod_eq_of_lt h

lemma address_eq (h : base + code.size < twoTo 32) (n : Nat) : code.address base n = base + size (code.take n) := by
  have hle := code.size_take_le n
  exact Nat.mod_eq_of_lt (by omega)

lemma address_cons_succ (i : Item Instr) (code : Code) (base n : Nat) :
    address (i :: code) base (n + 1) = code.address (addWords base i.value.size) n := by
  rw [address, address, take_succ_cons, size_cons, addWords, Nat.mod_add_mod, Nat.add_assoc]

lemma getElem?_addressed (h : base < twoTo 32) (code : Code) (n : Nat) :
    (code.addressed base)[n]? = (code[n]?).map (code.address base n, ·) := by
  induction code generalizing base n with
  | nil => rfl
  | cons i code ih =>
    rw [addressed]
    cases n with
    | zero => simp [address_zero h]
    | succ n =>
      have hnext : addWords base i.value.size < twoTo 32 := Nat.mod_lt _ (Nat.two_pow_pos 32)
      rw [getElem?_cons_succ, getElem?_cons_succ, ih hnext, address_cons_succ]

lemma mem_addressed (h : base < twoTo 32) :
    p ∈ code.addressed base ↔ ∃ n, code[n]? = some p.2 ∧ p.1 = code.address base n := by
  rw [mem_iff_getElem?]
  refine exists_congr fun n ↦ ?_
  rw [getElem?_addressed h, Option.map_eq_some_iff]
  constructor
  · rintro ⟨i, hi, rfl⟩
    exact ⟨hi, rfl⟩
  · rintro ⟨hi, ha⟩
    exact ⟨p.2, hi, by rw [← ha]⟩

lemma map_snd_addressed (code : Code) (base : Nat) : (code.addressed base).map (·.2) = code := by
  induction code generalizing base with
  | nil => rfl
  | cons i code ih => rw [addressed, map_cons, ih]

/-! ## Labels -/

def place (l : Label) : Code → Option Nat
  | [] => none
  | i :: rest =>
    ((place l rest).map (· + 1)).or (if i.value.definedLabel = some l then some 0 else none)

lemma labelAddresses_cons (i : Item Instr) (code : Code) (base : Nat) :
    labelAddresses (i :: code) base = code.labelAddresses (addWords base i.value.size) ++
      (i.value.definedLabel.map (·, base)).toList := by
  simp only [labelAddresses, addressed, filterMap_cons]
  cases i.value.definedLabel with
  | none => exact (append_nil _).symm
  | some m => exact reverse_cons

lemma lookup_labelAddresses (h : base < twoTo 32) (code : Code) (l : Label) :
    (code.labelAddresses base).lookup l = (code.place l).map (code.address base) := by
  induction code generalizing base with
  | nil => rfl
  | cons i code ih =>
    have hnext : addWords base i.value.size < twoTo 32 := Nat.mod_lt _ (Nat.two_pow_pos 32)
    rw [labelAddresses_cons, lookup_append, ih hnext, place]
    cases place l code with
    | some n => simp [address_cons_succ]
    | none =>
      cases hd : i.value.definedLabel with
      | none => simp
      | some m =>
        by_cases hm : m = l
        · simp [hm, address_zero h]
        · have hne : (l == m) = false := by simpa using Ne.symm hm
          simp [lookup_cons, hm, hne]

lemma place_isSome_iff : (code.place l).isSome ↔ ∃ i ∈ code, i.value.definedLabel = some l := by
  induction code with
  | nil => simp [place]
  | cons i code ih =>
    rw [place, Option.isSome_or, Bool.or_eq_true, Option.isSome_map, ih]
    by_cases hi : i.value.definedLabel = some l <;> simp [hi]

end W16Compiler.Code
