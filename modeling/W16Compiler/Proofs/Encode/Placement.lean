import W16Compiler.Proofs.Encode.Operands

/-!
# Code in its place

Prepared code is encoded without a fault wherever it stands. The search for short forms counts from
address zero, but a distance is the same from every base. The words of an instruction are as many as its
size says, so every instruction stands at its address, and a distance in it leads to its label.
-/

namespace W16Compiler

open Encode List

/-- Words in which code stands from a base address on: each instruction has as many as its size says, is
where the words before it end, and leads to where its label is defined. -/
structure Code.Placed (code : Code) (base : Nat) (words : List (Nat × List CodeWord)) : Prop where
  length_eq : words.length = code.length
  size_eq : ∀ (n : Nat) (i : Item Instr) (w : Nat × List CodeWord), code[n]? = some i → words[n]? = some w →
    w.2.length = i.value.size
  address_eq : ∀ (n : Nat) (w : Nat × List CodeWord), words[n]? = some w →
    w.1 = (base + ((words.take n).flatMap (·.2)).length) % twoTo 32
  defined : ∀ i ∈ code, ∀ l, i.value.relaxTarget = some l → l ∈ code.labels
  leads : ∀ (n m : Nat) (i j : Item Instr) (w v : Nat × List CodeWord) (l : Label), code[n]? = some i →
    words[n]? = some w → i.value.relaxTarget = some l → code[m]? = some j → words[m]? = some v →
    j.value.definedLabel = some l → i.value.Leads w.1 v.1 w.2

/-! ## All instructions -/

lemma Instr.fitsFields_shorten (i : Instr) : i.shorten.fitsFields = i.fitsFields := by
  cases i <;> rfl

namespace Code

variable {code : Code} {base n m : Nat} {l : Label} {words : List (Nat × List CodeWord)} {i : Item Instr}

lemma shortOffset_base (code : Code) (base n m : Nat) :
    Relax.shortOffset (code.address base n) (code.address base m) =
      Relax.shortOffset (code.address 0 n) (code.address 0 m) := by
  have htwo : twoTo 32 = 2 ^ 32 := rfl
  rw [Relax.shortOffset, Relax.shortOffset, wrap32, wrap32, ← Int.emod_bmod, ← Int.emod_bmod (_ - _)]
  congr 1
  simp only [address, htwo]
  omega

lemma place_of_nodup (hn : code.labels.Nodup) (hj : code[m]? = some j)
    (hl : j.value.definedLabel = some l) : code.place l = some m := by
  induction code generalizing m with
  | nil => cases hj
  | cons i code ih =>
    rw [labels_cons, nodup_append] at hn
    rw [place]
    cases m with
    | zero =>
      cases hj
      have hnone : place l code = none := by
        rw [← Option.not_isSome_iff_eq_none, place_isSome_iff]
        rintro ⟨k, hk, hkl⟩
        exact hn.2.2 l (by simp [hl]) l (mem_filterMap.mpr ⟨k, hk, hkl⟩) rfl
      rw [hnone, if_pos hl]
      rfl
    | succ m =>
      rw [ih hn.2.1 hj]
      rfl

lemma getElem?_of_encode (hbase : base < twoTo 32) (h : code.encode base = .ok words)
    (hi : code[n]? = some i) (hw : words[n]? = some w) : w.1 = code.address base n ∧
      i.value.encode ((code.labelAddresses base).lookup ·) (code.address base n) = .ok w.2 := by
  have hp : (code.addressed base)[n]? = some (code.address base n, i) := by
    rw [getElem?_addressed hbase, hi]
    rfl
  obtain ⟨hn, hp⟩ := List.getElem?_eq_some_iff.mp hp
  obtain ⟨hn', hw⟩ := List.getElem?_eq_some_iff.mp hw
  have hword := (mapM_eq_ok_iff.mp h).get hn hn'
  simp only [get_eq_getElem, hp, hw] at hword
  obtain ⟨_, hws, heq⟩ := bind_eq_ok.mp hword
  cases pure_eq_ok.mp heq
  exact ⟨rfl, hws⟩

lemma length_flatMap_words (h : Forall₂ (fun (i : Item Instr) (w : Nat × List CodeWord) ↦
      w.2.length = i.value.size) code words) : (words.flatMap (·.2)).length = code.size := by
  induction h with
  | nil => rfl
  | cons hw _ ih => rw [flatMap_cons, length_append, hw, ih, size_cons]

section

variable (hbase : base < twoTo 32) (hfits : ∀ i ∈ code, i.value.fitsFields) (hdef : Relax.Defined code)
  (hreach : Relax.InReach code)

include hbase hfits hdef hreach

lemma reachable (hi : code[n]? = some i) :
    i.value.Reachable ((code.labelAddresses base).lookup ·) (code.address base n) where
  fits := hfits i (mem_of_getElem? hi)
  reached l bits hl hbits := by
    obtain ⟨m, hm⟩ := Option.isSome_iff_exists.mp (hdef i (mem_of_getElem? hi) l hl)
    refine ⟨code.address base m, ?_, code.address_lt base m, fun hshort ↦ ?_⟩
    · rw [lookup_labelAddresses hbase, hm]
      rfl
    · have hreaches := Relax.inReach_iff.mp hreach n i hi (by rw [hl, Option.isSome_some]) hshort
      obtain ⟨_, _, _, hbits', hl', hm', hfits'⟩ := Relax.reaches_eq_true_iff.mp hreaches
      cases hbits.symm.trans hbits'
      cases hl.symm.trans hl'
      cases hm.symm.trans hm'
      rw [shortOffset_base]
      exact hfits'

lemma exists_encode : ∃ words, code.encode base = .ok words := by
  refine exists_mapM_eq_ok fun p hp ↦ ?_
  obtain ⟨n, hi, ha⟩ := (mem_addressed hbase).mp hp
  obtain ⟨ws, hws⟩ := (reachable hbase hfits hdef hreach hi).encode
  refine ⟨(p.1, ws), bind_eq_ok.mpr ⟨ws, ?_, rfl⟩⟩
  rw [ha]
  exact hws

omit hfits hreach in
lemma placed_of_encode (hlabels : code.labels.Nodup) (h : code.encode base = .ok words) : code.Placed base words := by
  have hlength : words.length = code.length := by
    rw [← (mapM_eq_ok_iff.mp h).length_eq, ← length_map (·.2), map_snd_addressed]
  have hsize : ∀ (n : Nat) (i : Item Instr) (w : Nat × List CodeWord), code[n]? = some i →
      words[n]? = some w → w.2.length = i.value.size := by
    intro n i w hi hw
    exact (Instr.encoded_of_encode (getElem?_of_encode hbase h hi hw).2).length_eq
  have hsizes : Forall₂ (fun (i : Item Instr) (w : Nat × List CodeWord) ↦
      w.2.length = i.value.size) code words := by
    refine forall₂_iff_get.mpr ⟨hlength.symm, fun n hn hn' ↦ ?_⟩
    exact hsize n _ _ (getElem?_eq_getElem hn) (getElem?_eq_getElem hn')
  refine ⟨hlength, hsize, fun n w hw ↦ ?_, fun i hi l hl ↦ ?_, ?_⟩
  · obtain ⟨hn, -⟩ := List.getElem?_eq_some_iff.mp hw
    have hi : code[n]? = some code[n] := List.getElem?_eq_getElem (hlength ▸ hn)
    rw [length_flatMap_words (List.forall₂_take n hsizes)]
    exact (getElem?_of_encode hbase h hi hw).1
  · obtain ⟨j, hj, hjl⟩ := place_isSome_iff.mp (hdef i hi l hl)
    exact mem_filterMap.mpr ⟨j, hj, hjl⟩
  · intro n m i j w v l hi hw hl hj hv hjl
    obtain ⟨haddress, hencode⟩ := getElem?_of_encode hbase h hi hw
    obtain ⟨haddress', -⟩ := getElem?_of_encode hbase h hj hv
    rw [haddress, haddress']
    refine (Instr.encoded_of_encode hencode).leads l _ hl ?_ (code.address_lt base m)
    rw [lookup_labelAddresses hbase, place_of_nodup hlabels hj hjl]
    rfl

end

end Code

/-! ## Functions -/

namespace Relax

variable {code code' : Code}

lemma Shortened.labels (h : Shortened code code') : code'.labels = code.labels := by
  induction h with
  | nil => rfl
  | cons hi _ ih => rw [Code.labels_cons, Code.labels_cons, ih, hi.definedLabel]

lemma Shortened.fitsFields (h : Shortened code code') (hfits : ∀ i ∈ code, i.value.fitsFields) :
    ∀ j ∈ code', j.value.fitsFields := by
  intro j hj
  obtain ⟨n, hn⟩ := mem_iff_getElem?.mp hj
  obtain ⟨i, hi, hij⟩ := h.getElem? hn
  have hold := hfits i (mem_of_getElem? hi)
  rcases hij with rfl | ⟨-, rfl⟩
  · exact hold
  · rwa [Instr.fitsFields_shorten]

lemma defined_of_prepared {labels : List Label} (h : code.Prepared labels) : Defined code := by
  intro i hi l hl
  have hmem := h.targets i hi l hl
  rw [← h.labels_eq] at hmem
  exact Code.place_isSome_iff.mpr (mem_filterMap.mp hmem)

end Relax

open Relax in
/-- Machine code of a function whose labels are defined once, optimized or not, is encoded without a fault
after the search for short forms, wherever it is to stand. The search itself has no fault either as long as
distances in the code can be counted. -/
theorem PrimFunction.encode_relax {f : PrimFunction} {g laid : MachineFunction}
    (hlabels : (Flow.labels f.prims).Nodup)
    (htargets : ∀ p ∈ f.prims, ∀ l ∈ p.value.targets, l ∈ Flow.labels f.prims) (hselect : f.select = .ok g)
    (hlayout : g.layout = (none, laid)) (optimized : Bool) {base : Nat} (hbase : base < twoTo 32) :
    let h := if optimized then laid.optimize else laid
    (h.code.size < 2 ^ 31 → h.relax.1 = none) ∧
      (h.relax.1 = none → ∃ words, h.relax.2.code.encode base = .ok words ∧
        h.relax.2.code.Placed base words) := by
  intro h
  have hprepared : h.code.Prepared (Flow.labels f.prims) := prepared htargets hselect hlayout optimized
  have hdef := defined_of_prepared hprepared
  obtain ⟨n, -, -, hrelax⟩ := relax_eq hdef
  have hdefn : Defined ((next h.label)^[n] h.code) := defined_iterate hdef n
  have hshort : Shortened h.code ((next h.label)^[n] h.code) := shortened_iterate hdef n
  rw [hrelax]
  constructor
  · intro hsize
    exact (check_eq_none_iff hdefn).mpr (inReach_iterate hprepared.long hdef hsize n)
  · intro hcheck
    have hreach := (check_eq_none_iff hdefn).mp hcheck
    have hfits := hshort.fitsFields hprepared.fits
    obtain ⟨words, hwords⟩ := Code.exists_encode hbase hfits hdefn hreach
    refine ⟨words, hwords, Code.placed_of_encode hbase hdefn ?_ hwords⟩
    rwa [hshort.labels, hprepared.labels_eq]

/-! ## A loop over a word far from the stack pointer -/

namespace Code.Example

/-- Counts in a word behind a large array. -/
def counting : PrimFunction where
  label := "f"
  exported := true
  loc := .builtin
  prims :=
    let count : Place := .slot ⟨1⟩ 0
    let prims : List Prim := [.entry, .assign (.word true) (.slot ⟨0⟩ 0) (.imm 0),
      .assign (.word true) count (.imm 0), .label ⟨0⟩, .compare .gt (.word true) (.load count) (.imm 100) ⟨1⟩,
      .binary .add (.word true) count (.load count) (.imm 1), .jump ⟨0⟩, .label ⟨1⟩, .ret none]
    prims.map (⟨·, none⟩)
  slots := #[⟨40, false⟩, ⟨1, false⟩]

/-- A function that is selected and laid out in so many words. -/
def LaidOut (f : PrimFunction) (size : Nat) : Prop :=
  ∃ g laid, f.select = .ok g ∧ g.layout = (none, laid) ∧ laid.code.size = size

lemma laidOut_iff {size : Nat} : LaidOut f size ↔ (match f.select with
      | .error _ => false
      | .ok g => g.layout.1.isNone && g.layout.2.code.size == size) = true := by
  constructor
  · rintro ⟨g, _, hselect, hlayout, hsize⟩
    simp [hselect, hlayout, hsize]
  · intro h
    split at h
    next => cases h
    next g hselect =>
      rw [Bool.and_eq_true, Option.isNone_iff_eq_none, beq_iff_eq] at h
      exact ⟨g, g.layout.2, hselect, Prod.ext h.1 rfl, h.2⟩

instance {f : PrimFunction} {size : Nat} : Decidable (LaidOut f size) := decidable_of_iff _ laidOut_iff.symm

end Code.Example

open Code.Example in
theorem PrimFunction.encode_relax_counting :
    (Flow.labels counting.prims).Nodup ∧
    (∀ p ∈ counting.prims, ∀ l ∈ p.value.targets, l ∈ Flow.labels counting.prims) ∧
    ∃ g laid words, counting.select = .ok g ∧ g.layout = (none, laid) ∧ laid.relax.1 = none ∧
      laid.relax.2.code.encode 65000 = .ok words ∧ laid.relax.2.code.Placed 65000 words := by
  have hlabels : (Flow.labels counting.prims).Nodup := by decide
  have htargets : ∀ p ∈ counting.prims, ∀ l ∈ p.value.targets, l ∈ Flow.labels counting.prims := by decide
  have hlaid : LaidOut counting 28 := by decide +kernel
  obtain ⟨g, laid, hselect, hlayout, hsize⟩ := hlaid
  have hbase : 65000 < twoTo 32 := by decide
  obtain ⟨hrelax, hencode⟩ := PrimFunction.encode_relax hlabels htargets hselect hlayout false hbase
  have hnone : laid.relax.1 = none := hrelax (by rw [if_neg Bool.false_ne_true, hsize]; decide)
  obtain ⟨words, hwords, hplaced⟩ := hencode hnone
  exact ⟨hlabels, htargets, g, laid, words, hselect, hlayout, hnone, hwords, hplaced⟩

end W16Compiler
