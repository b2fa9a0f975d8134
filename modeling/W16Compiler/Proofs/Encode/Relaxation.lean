import W16Compiler.Machine.Relax
import W16Compiler.Proofs.Encode.Addresses
import Mathlib.Data.List.Forall2
import Mathlib.Logic.Function.Iterate
import Mathlib.Algebra.Group.Nat.Defs

/-!
# Short forms reach their targets

A round only takes short forms, so all instructions between two places together only become shorter. What
stands before its target has a distance that stays at least zero, what stands behind it one that stays
below zero, and either way the distance comes closer to zero. So a short form that reaches its target goes
on reaching it, whatever else becomes short, and the rounds end with code in which nothing is left to take.
-/

namespace W16Compiler

open List Option Function Code

/-! ## Instructions with two forms -/

namespace Instr

lemma isSome_shortBits (i : Instr) : i.shortBits.isSome = i.relaxTarget.isSome := by
  cases i <;> rfl

lemma isShort_shorten (i : Instr) : i.shorten.isShort = true := by
  cases i <;> rfl

lemma shortBits_shorten (i : Instr) : i.shorten.shortBits = i.shortBits := by
  cases i <;> rfl

lemma relaxTarget_shorten (i : Instr) : i.shorten.relaxTarget = i.relaxTarget := by
  cases i <;> rfl

lemma definedLabel_shorten (i : Instr) : i.shorten.definedLabel = i.definedLabel := by
  cases i <;> rfl

lemma size_shorten_le (i : Instr) : i.shorten.size ≤ i.size := by
  cases i with
  | loadLabel _ _ short | jump _ short | branch _ _ _ _ short | branchZero _ _ _ short =>
    cases short <;> simp [shorten, size]
  | _ => exact Nat.le_refl _

lemma size_pos_of_relaxTarget {i : Instr} (h : i.relaxTarget.isSome) : 0 < i.size := by
  cases i <;> simp only [relaxTarget, isSome_none, Bool.false_eq_true] at h <;> simp only [size] <;>
    split <;> omega

end Instr

lemma fitsSigned_of_between {v w : Int} {bits : Nat} (h : fitsSigned v bits)
    (hw : v ≤ w ∧ w < 0 ∨ 0 ≤ w ∧ w ≤ v) : fitsSigned w bits := by
  simp only [fitsSigned, Bool.and_eq_true, decide_eq_true_eq] at h ⊢
  have hpos : (0 : Int) < twoTo (bits % 32 - 1) := Int.natCast_pos.mpr (Nat.two_pow_pos _)
  omega

namespace Relax

/-- An instruction stays, or it takes its short form. -/
def Shortens (i j : Item Instr) : Prop :=
  j = i ∨ i.value.isShort = false ∧ j = { i with value := i.value.shorten }

/-- Some instructions have taken their short forms, and nothing else has changed. -/
abbrev Shortened (code code' : Code) : Prop := List.Forall₂ Shortens code code'

/-- Every label that decides between two forms is defined. -/
def Defined (code : Code) : Prop :=
  ∀ i ∈ code, ∀ l, i.value.relaxTarget = some l → (Code.place l code).isSome

variable {function : String} {code code' : Code} {i j : Item Instr}

section

lemma Shortens.definedLabel (h : Shortens i j) : j.value.definedLabel = i.value.definedLabel := by
  rcases h with rfl | ⟨-, rfl⟩
  · rfl
  · exact i.value.definedLabel_shorten

lemma Shortens.relaxTarget (h : Shortens i j) : j.value.relaxTarget = i.value.relaxTarget := by
  rcases h with rfl | ⟨-, rfl⟩
  · rfl
  · exact i.value.relaxTarget_shorten

lemma Shortens.shortBits (h : Shortens i j) : j.value.shortBits = i.value.shortBits := by
  rcases h with rfl | ⟨-, rfl⟩
  · rfl
  · exact i.value.shortBits_shorten

lemma Shortens.size_le (h : Shortens i j) : j.value.size ≤ i.value.size := by
  rcases h with rfl | ⟨-, rfl⟩
  · exact Nat.le_refl _
  · exact i.value.size_shorten_le

lemma Shortens.trans (h : Shortens i j) (h' : Shortens j k) : Shortens i k := by
  rcases h' with rfl | ⟨hlong, rfl⟩
  · exact h
  · rcases h with rfl | ⟨-, rfl⟩
    · exact .inr ⟨hlong, rfl⟩
    · rw [i.value.isShort_shorten] at hlong
      cases hlong

lemma Shortened.refl (code : Code) : Shortened code code := forall₂_same.mpr fun _ _ ↦ .inl rfl

variable (h : Shortened code code')

include h

lemma Shortened.trans (h' : Shortened code' code'') : Shortened code code'' := by
  induction h generalizing code'' with
  | nil => exact h'
  | cons hi _ ih =>
    cases h' with
    | cons hj hrest => exact .cons (hi.trans hj) (ih hrest)

lemma Shortened.size_le : code'.size ≤ code.size := by
  induction h with
  | nil => exact Nat.le_refl _
  | cons hi _ ih => exact Nat.add_le_add hi.size_le ih

lemma Shortened.place (l : Label) : place l code' = place l code := by
  induction h with
  | nil => rfl
  | cons hi _ ih => rw [Code.place, Code.place, ih, hi.definedLabel]

lemma Shortened.getElem? {n : Nat} (hj : code'[n]? = some j) : ∃ i, code[n]? = some i ∧ Shortens i j := by
  obtain ⟨hlt, rfl⟩ := List.getElem?_eq_some_iff.mp hj
  have hlt' : n < code.length := h.length_eq ▸ hlt
  exact ⟨code[n], List.getElem?_eq_getElem hlt', h.get hlt' hlt⟩

lemma Shortened.defined (hdef : Defined code) : Defined code' := by
  intro j hj l hl
  obtain ⟨n, hn⟩ := mem_iff_getElem?.mp hj
  obtain ⟨i, hi, hij⟩ := h.getElem? hn
  rw [h.place]
  exact hdef i (mem_of_getElem? hi) l (hij.relaxTarget ▸ hl)

lemma Shortened.size_between {m n : Nat} (hmn : m ≤ n) :
    size (code.take m) + size (code'.take n) ≤ size (code.take n) + size (code'.take m) := by
  induction h generalizing m n with
  | nil => simp
  | cons hi hrest ih =>
    cases n with
    | zero =>
      obtain rfl := Nat.le_zero.mp hmn
      exact Nat.le_refl _
    | succ n =>
      cases m with
      | zero =>
        have hall := Shortened.size_le (forall₂_take n hrest)
        have hsize := hi.size_le
        simp only [take_zero, take_succ_cons, size_cons]
        change 0 + _ ≤ _ + 0
        omega
      | succ m =>
        have hrec := ih (Nat.le_of_succ_le_succ hmn)
        simp only [take_succ_cons, size_cons]
        omega

end

/-! ## Rounds -/

def reaches (labels : List (Label × Nat)) (address : Nat) (i : Instr) : Bool :=
  match i.shortBits, i.relaxTarget.bind (labels.lookup ·) with
  | some bits, some target => fitsSigned (shortOffset address target) bits
  | _, _ => false

/-- Every short form reaches its target. -/
def InReach (code : Code) : Prop :=
  ∀ p ∈ code.addressed 0, p.2.value.relaxTarget.isSome → p.2.value.isShort →
    reaches (code.labelAddresses 0) p.1 p.2.value

def next (function : String) (code : Code) : Code :=
  (round function (code.labelAddresses 0) (code.addressed 0)).2

def taken (labels : List (Label × Nat)) (p : Nat × Item Instr) : Item Instr :=
  if !p.2.value.isShort && reaches labels p.1 p.2.value then { p.2 with value := p.2.value.shorten }
  else p.2

lemma shortens_taken (labels : List (Label × Nat)) (p : Nat × Item Instr) : Shortens p.2 (taken labels p) := by
  unfold taken
  split
  · rename_i h
    exact .inr ⟨by simp_all, rfl⟩
  · exact .inl rfl

lemma round_eq (function : String) {labels : List (Label × Nat)}
    (h : ∀ p ∈ items, ∀ l, p.2.value.relaxTarget = some l → (labels.lookup l).isSome) :
    round function labels items = (none, items.map (taken labels)) := by
  induction items with
  | nil => rfl
  | cons p items ih =>
    obtain ⟨address, i⟩ := p
    have hrest := ih fun q hq ↦ h q (mem_cons_of_mem _ hq)
    have hbits := i.value.isSome_shortBits
    rw [round, map_cons, hrest]
    cases hshort : i.value.isShort with
    | true => simp [taken, hshort]
    | false =>
      cases htarget : i.value.relaxTarget with
      | none => simp [taken, reaches, hshort, htarget]
      | some l =>
        obtain ⟨_, hl⟩ := isSome_iff_exists.mp (h (address, i) mem_cons_self l htarget)
        rw [htarget] at hbits
        obtain ⟨_, hb⟩ := isSome_iff_exists.mp hbits
        simp only [taken, reaches, hshort, htarget, hb, hl, bind_some, Bool.not_false, Bool.true_and]
        split <;> rfl

lemma lookup_isSome_of_defined (h : Defined code) (hp : p ∈ code.addressed 0)
    (hl : p.2.value.relaxTarget = some l) : ((code.labelAddresses 0).lookup l).isSome := by
  have hmem : p.2 ∈ code := by
    rw [← code.map_snd_addressed 0]
    exact mem_map_of_mem hp
  rw [lookup_labelAddresses (by decide), isSome_map]
  exact h p.2 hmem l hl

lemma round_eq_next (h : Defined code) :
    round function (code.labelAddresses 0) (code.addressed 0) = (none, next function code) := by
  rw [next, round_eq function fun p hp l hl ↦ lookup_isSome_of_defined h hp hl]

lemma next_eq (h : Defined code) : next function code = (code.addressed 0).map (taken (code.labelAddresses 0)) := by
  rw [next, round_eq function fun p hp l hl ↦ lookup_isSome_of_defined h hp hl]

lemma shortened_next (h : Defined code) : Shortened code (next function code) := by
  rw [next_eq h]
  nth_rewrite 1 [← code.map_snd_addressed 0]
  rw [Shortened, forall₂_map_left_iff, forall₂_map_right_iff, forall₂_same]
  exact fun p _ ↦ shortens_taken _ p

/-! ## Distances -/

section

variable {n m : Nat}

lemma shortOffset_address (h : code.size < 2 ^ 31) (n m : Nat) :
    shortOffset (code.address 0 n) (code.address 0 m) = size (code.take m) - (size (code.take n) + 1) := by
  have hn := code.size_take_le n
  have hm := code.size_take_le m
  have htwo : twoTo 32 = 2 ^ 32 := rfl
  rw [address_eq (by omega), address_eq (by omega), shortOffset, wrap32, htwo, zero_add, zero_add]
  rw [Int.bmod_eq_of_le] <;> omega

lemma reaches_eq_true_iff : reaches (code.labelAddresses 0) (code.address 0 n) i.value ↔
      ∃ bits l m, i.value.shortBits = some bits ∧ i.value.relaxTarget = some l ∧
        place l code = some m ∧ fitsSigned (shortOffset (code.address 0 n) (code.address 0 m)) bits := by
  unfold reaches
  cases hbits : i.value.shortBits with
  | none => simp
  | some bits =>
    cases htarget : i.value.relaxTarget with
    | none => simp
    | some l =>
      rw [bind_some, lookup_labelAddresses (by decide)]
      cases hplace : place l code <;> simp [hplace]

lemma Shortened.reaches (h : Shortened code code') (hsize : code.size < 2 ^ 31)
    (hj : code'[n]? = some j) (hij : Shortens i j)
    (hreach : reaches (code.labelAddresses 0) (code.address 0 n) i.value) :
    reaches (code'.labelAddresses 0) (code'.address 0 n) j.value := by
  obtain ⟨bits, l, m, hbits, htarget, hplace, hfits⟩ := reaches_eq_true_iff.mp hreach
  refine reaches_eq_true_iff.mpr
    ⟨bits, l, m, hij.shortBits.trans hbits, hij.relaxTarget.trans htarget, (h.place l).trans hplace, ?_⟩
  have hsize' : code'.size < 2 ^ 31 := Nat.lt_of_le_of_lt h.size_le hsize
  rw [shortOffset_address hsize] at hfits
  rw [shortOffset_address hsize']
  refine fitsSigned_of_between hfits ?_
  rcases Nat.lt_or_ge n m with hnm | hmn
  · -- The target is behind the instruction, which itself has a word at least.
    have hbetween := h.size_between (Nat.le_of_lt hnm)
    have hpos : 0 < j.value.size := Instr.size_pos_of_relaxTarget (by rw [hij.relaxTarget, htarget, isSome_some])
    have hown := size_take_succ hj
    have hmono : size (code'.take (n + 1)) ≤ size (code'.take m) := code'.size_take_mono hnm
    right
    omega
  · have hbetween := h.size_between hmn
    have hmono := code'.size_take_mono hmn
    left
    omega

lemma inReach_iff : InReach code ↔ ∀ (n : Nat) (i : Item Instr), code[n]? = some i →
    i.value.relaxTarget.isSome → i.value.isShort → reaches (code.labelAddresses 0) (code.address 0 n) i.value := by
  constructor
  · intro h n i hi
    exact h (code.address 0 n, i) ((mem_addressed (by decide)).mpr ⟨n, hi, rfl⟩)
  · rintro h ⟨_, i⟩ hp
    obtain ⟨n, hi, rfl⟩ := (mem_addressed (by decide)).mp hp
    exact h n i hi

/-- A round keeps the short forms in reach, those that it takes among them. -/
lemma InReach.next {function : String} (hreach : InReach code) (hdef : Defined code)
    (hsize : code.size < 2 ^ 31) : InReach (next function code) := by
  rw [inReach_iff] at hreach ⊢
  intro n j hj hrelax hshort
  have hnext : Shortened code (Relax.next function code) := shortened_next hdef
  obtain ⟨i, hi, hij⟩ := hnext.getElem? hj
  refine hnext.reaches hsize hj hij ?_
  cases hold : i.value.isShort with
  | true => exact hreach n i hi (hij.relaxTarget ▸ hrelax) hold
  | false =>
    rw [next_eq hdef, getElem?_map, getElem?_addressed (by decide), hi] at hj
    obtain rfl : taken (code.labelAddresses 0) (code.address 0 n, i) = j := some.inj hj
    by_contra hnot
    simp [taken, hnot, hold] at hshort

end

/-! ## The end of the rounds -/

section

lemma longForms_cons (i : Item Instr) (code : Code) :
    longForms (i :: code) = longForms code + if i.value.isShort then 0 else 1 := by
  rw [longForms, countP_cons]
  cases i.value.isShort <;> rfl

lemma Shortened.eq_or_longForms_lt (h : Shortened code code') : code' = code ∨ longForms code' < longForms code := by
  induction h with
  | nil => exact .inl rfl
  | @cons i _ code code' hi _ ih =>
    rw [longForms_cons, longForms_cons]
    rcases hi with rfl | ⟨hlong, rfl⟩
    · rcases ih with rfl | hlt
      · exact .inl rfl
      · exact .inr (by omega)
    · have hle : longForms code' ≤ longForms code := by
        rcases ih with rfl | hlt
        · exact Nat.le_refl _
        · exact Nat.le_of_lt hlt
      right
      simp only [hlong, i.value.isShort_shorten, if_true, Bool.false_eq_true, if_false]
      omega

variable (hdef : Defined code)

include hdef

lemma rounds_of_next_eq (hfixed : next function code = code) : rounds function code = (none, code) := by
  rw [rounds, round_eq_next hdef]
  simp [hfixed]

lemma rounds_eq (function : String) : ∃ n ≤ longForms code, rounds function code = (none, (next function)^[n] code) ∧
      next function ((next function)^[n] code) = (next function)^[n] code := by
  induction hk : longForms code using Nat.strongRecOn generalizing code with
  | ind k ih =>
    rcases (shortened_next hdef).eq_or_longForms_lt with hfixed | hlt
    · exact ⟨0, Nat.zero_le _, rounds_of_next_eq hdef hfixed, hfixed⟩
    · obtain ⟨n, _, hrounds, hfixed⟩ := ih _ (hk ▸ hlt) ((shortened_next hdef).defined hdef) rfl
      refine ⟨n + 1, by omega, ?_, hfixed⟩
      rw [rounds, round_eq_next hdef]
      simp [hlt, hrounds, iterate_succ_apply]

lemma check_eq_none_iff : check function code = none ↔ InReach code := by
  rw [check, findSome?_eq_none_iff, InReach]
  refine forall₂_congr fun p hp ↦ ?_
  have hlookup := fun l ↦ lookup_isSome_of_defined hdef hp (l := l)
  have hbits := p.2.value.isSome_shortBits
  cases hshort : p.2.value.isShort with
  | false => simp [hshort]
  | true =>
    cases htarget : p.2.value.relaxTarget with
    | none => simp [hshort, htarget]
    | some l =>
      obtain ⟨_, hl⟩ := isSome_iff_exists.mp (hlookup l htarget)
      rw [htarget] at hbits
      obtain ⟨_, hb⟩ := isSome_iff_exists.mp hbits
      simp [reaches, hshort, hb, htarget, hl]

lemma defined_iterate (k : Nat) : Defined ((next function)^[k] code) := by
  induction k with
  | zero => exact hdef
  | succ k ih =>
    rw [iterate_succ_apply']
    exact (shortened_next ih).defined ih

lemma shortened_iterate (k : Nat) : Shortened code ((next function)^[k] code) := by
  induction k with
  | zero => exact .refl code
  | succ k ih =>
    rw [iterate_succ_apply']
    exact ih.trans (shortened_next (defined_iterate hdef k))

omit hdef

lemma inReach_iterate (hlong : ∀ i ∈ code, i.value.relaxTarget.isSome → i.value.isShort = false)
    (hdef : Defined code) (hsize : code.size < 2 ^ 31) (k : Nat) : InReach ((next function)^[k] code) := by
  induction k with
  | zero =>
    intro p hp hrelax hshort
    have hmem : p.2 ∈ code := by
      rw [← code.map_snd_addressed 0]
      exact mem_map_of_mem hp
    rw [hlong p.2 hmem hrelax] at hshort
    cases hshort
  | succ k ih =>
    rw [iterate_succ_apply']
    exact ih.next (defined_iterate hdef k) (Nat.lt_of_le_of_lt (shortened_iterate hdef k).size_le hsize)

end

lemma relax_eq {f : MachineFunction} (hdef : Defined f.code) :
    ∃ n ≤ longForms f.code, next f.label ((next f.label)^[n] f.code) = (next f.label)^[n] f.code ∧
      f.relax = (check f.label ((next f.label)^[n] f.code), { f with code := (next f.label)^[n] f.code }) := by
  obtain ⟨n, hn, hrounds, hfixed⟩ := rounds_eq hdef f.label
  exact ⟨n, hn, hfixed, by rw [MachineFunction.relax, hrounds]⟩

end Relax

open Relax in
/-- Every round of the search for short forms takes short forms and changes nothing else, so code only
becomes shorter. After at most as many rounds as there are long forms nothing is left to take, and a
second search changes nothing. Where the distances of the code can be counted, every short form is in
reach after every round, and the search ends without a fault. -/
theorem MachineFunction.relax_settles (f : MachineFunction)
    (hlong : ∀ i ∈ f.code, i.value.relaxTarget.isSome → i.value.isShort = false)
    (hdefined : ∀ i ∈ f.code, ∀ l, i.value.relaxTarget = some l →
      ∃ j ∈ f.code, j.value.definedLabel = some l) :
    (∀ k, let code := (next f.label)^[k] f.code
      round f.label (code.labelAddresses 0) (code.addressed 0) = (none, next f.label code) ∧
        Shortened code (next f.label code) ∧ (next f.label code).size ≤ code.size) ∧
    (∃ n ≤ longForms f.code, f.relax.2 = { f with code := (next f.label)^[n] f.code } ∧
      f.relax.2.relax = f.relax) ∧
    (f.code.size < 2 ^ 31 → f.relax.1 = none ∧ ∀ k, InReach ((next f.label)^[k] f.code)) := by
  have hdef : Defined f.code := fun i hi l hl ↦ Code.place_isSome_iff.mpr (hdefined i hi l hl)
  obtain ⟨n, hn, hfixed, hrelax⟩ := relax_eq hdef
  refine ⟨fun k ↦ ?_, ⟨n, hn, by rw [hrelax], ?_⟩, fun hsize ↦ ⟨?_, inReach_iterate hlong hdef hsize⟩⟩
  · have hdefk : Defined ((next f.label)^[k] f.code) := defined_iterate hdef k
    have hnext : Shortened _ (next f.label _) := shortened_next hdefk
    exact ⟨round_eq_next hdefk, hnext, hnext.size_le⟩
  · rw [hrelax]
    simp only [MachineFunction.relax]
    rw [rounds_of_next_eq (defined_iterate hdef n) hfixed]
  · rw [hrelax]
    exact (check_eq_none_iff (defined_iterate hdef n)).mpr (inReach_iterate hlong hdef hsize n)

/-! ## A short form that lets another one reach -/

namespace Relax.Example

/-- The branch reaches its target only when the jump has become short. -/
def chained : MachineFunction where
  label := "f"
  exported := false
  loc := .builtin
  code :=
    let instrs : List Instr := [.branch .ne .r0 .r1 ⟨1⟩ false, .jump ⟨2⟩ false] ++
      List.replicate 12 (.addImm .r0 .r0 (.num 1)) ++ [.label ⟨1⟩ .empty, .label ⟨2⟩ .empty]
    instrs.map (⟨·, none⟩)

end Relax.Example

open Relax Relax.Example in
theorem MachineFunction.relax_settles_chained :
    (∀ i ∈ chained.code, i.value.relaxTarget.isSome → i.value.isShort = false) ∧
    (∀ i ∈ chained.code, ∀ l, i.value.relaxTarget = some l →
      ∃ j ∈ chained.code, j.value.definedLabel = some l) ∧
    chained.relax.1 = none ∧ chained.relax.2.relax = chained.relax ∧
    ∀ k, InReach ((next chained.label)^[k] chained.code) := by
  have hlong : ∀ i ∈ chained.code, i.value.relaxTarget.isSome → i.value.isShort = false := by decide
  have hdefined : ∀ i ∈ chained.code, ∀ l, i.value.relaxTarget = some l →
      ∃ j ∈ chained.code, j.value.definedLabel = some l := by
    simp [chained, Instr.relaxTarget, Instr.definedLabel]
  obtain ⟨-, ⟨n, -, -, hagain⟩, hreach⟩ := MachineFunction.relax_settles chained hlong hdefined
  obtain ⟨hfault, hin⟩ := hreach (by decide)
  exact ⟨hlong, hdefined, hfault, hagain, hin⟩

end W16Compiler
