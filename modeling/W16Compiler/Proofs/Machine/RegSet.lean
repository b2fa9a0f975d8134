import W16Compiler.Machine.Basic
import Mathlib.Data.List.Basic

/-!
# Sets of registers

A set is known by its members, and a larger one has more of them.
-/

namespace W16Compiler

lemma Reg.number_lt (r : Reg) : r.number < 8 := by cases r <;> decide

lemma Reg.exists_number {n : Nat} (h : n < 8) : ∃ r : Reg, r.number = n := by
  match n, h with
  | 0, _ => exact ⟨.r0, rfl⟩
  | 1, _ => exact ⟨.r1, rfl⟩
  | 2, _ => exact ⟨.r2, rfl⟩
  | 3, _ => exact ⟨.r3, rfl⟩
  | 4, _ => exact ⟨.r4, rfl⟩
  | 5, _ => exact ⟨.r5, rfl⟩
  | 6, _ => exact ⟨.r6, rfl⟩
  | 7, _ => exact ⟨.sp, rfl⟩

lemma Reg.mem_all (r : Reg) : r ∈ Reg.all := by cases r <;> decide

namespace RegSet

@[simp] lemma contains_empty (r : Reg) : empty.contains r = false := by cases r <;> rfl

@[simp] lemma contains_union (s t : RegSet) (r : Reg) : (s.union t).contains r = (s.contains r || t.contains r) := by
  simp [contains, union]

@[simp] lemma contains_minus (s t : RegSet) (r : Reg) : (s.minus t).contains r = (s.contains r && !t.contains r) := by
  simp [contains, minus, r.number_lt]

@[simp] lemma contains_insert (s : RegSet) (q r : Reg) :
    (s.insert q).contains r = (s.contains r || decide (r = q)) := by
  rw [contains, insert, BitVec.getLsbD_or]
  congr 1
  cases q <;> cases r <;> rfl

lemma contains_foldl_insert (rs : List Reg) (s : RegSet) (r : Reg) :
    (rs.foldl insert s).contains r = (s.contains r || decide (r ∈ rs)) := by
  induction rs generalizing s with
  | nil => simp
  | cons q rs ih => simp [ih, Bool.or_assoc, Bool.decide_or]

@[simp] lemma contains_ofList (rs : List Reg) (r : Reg) : (ofList rs).contains r = decide (r ∈ rs) := by
  simp [ofList, contains_foldl_insert]

lemma contains_callerSaved (r : Reg) : callerSaved.contains r = decide (r ≠ .sp) := by
  cases r <;> rfl

variable {s t : RegSet}

@[ext] lemma ext (h : ∀ r, s.contains r = t.contains r) : s = t := by
  obtain ⟨a⟩ := s
  obtain ⟨b⟩ := t
  congr 1
  apply BitVec.eq_of_getLsbD_eq
  intro i hi
  obtain ⟨r, rfl⟩ := Reg.exists_number hi
  exact h r

lemma intersects_eq_false_iff : s.intersects t = false ↔ ∀ r, s.contains r → t.contains r = false := by
  rw [intersects, bne_eq_false_iff_eq]
  constructor
  · intro h r hs
    have hbit : (s.mask &&& t.mask).getLsbD r.number = false := by simp [h]
    rwa [BitVec.getLsbD_and, show s.mask.getLsbD r.number = true from hs, Bool.true_and] at hbit
  · intro h
    refine BitVec.eq_of_getLsbD_eq fun n hn ↦ ?_
    obtain ⟨r, rfl⟩ := Reg.exists_number hn
    simpa [contains] using h r

def Subset (s t : RegSet) : Prop := ∀ r, s.contains r → t.contains r

lemma Subset.refl (s : RegSet) : s.Subset s := fun _ h ↦ h

lemma length_toList_le (s : RegSet) : s.toList.length ≤ 8 := List.length_filter_le _ _

lemma Subset.length_toList (h : s.Subset t) : s.toList.length ≤ t.toList.length :=
  (List.monotone_filter_right Reg.all h).length_le

lemma Subset.eq_of_length (h : s.Subset t) (hl : t.toList.length ≤ s.toList.length) : s = t := by
  have heq : s.toList = t.toList := (List.monotone_filter_right Reg.all h).eq_of_length_le hl
  ext r
  have hmem : r ∈ s.toList ↔ r ∈ t.toList := by rw [heq]
  rw [toList, toList, List.mem_filter, List.mem_filter] at hmem
  exact Bool.eq_iff_iff.mpr (by simpa only [r.mem_all, true_and] using hmem)

end RegSet

end W16Compiler
