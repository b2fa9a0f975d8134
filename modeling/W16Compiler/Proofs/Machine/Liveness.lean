import W16Compiler.Machine.Liveness
import W16Compiler.Proofs.Machine.Meaning
import W16Compiler.Proofs.Machine.RegSet
import Mathlib.Data.List.Forall2
import Mathlib.Algebra.GroupWithZero.Nat

/-!
# Live registers

The sweeps reach a fixed point within the bound on their number, since each adds a register to the set
of some label. At the fixed point the sets are closed under steps, and they hold just the registers that
some path reads before it overwrites them. Removing an instruction whose result is not among them
changes no register that is read later.
-/

namespace W16Compiler

open List Liveness

variable {code rest : Code} {live : LabelLive} {r : Reg}

namespace Liveness

variable {live' : LabelLive}

/-! ## Sweeps -/

def atStart (live : LabelLive) (rest : Code) : RegSet :=
  ((sweep live rest).head?.map (·.1)).getD .empty

def behind (live : LabelLive) (i : Item Instr) (rest : Code) : RegSet :=
  after live (atStart live rest) i.value

lemma sweep_cons (live : LabelLive) (i : Item Instr) (rest : Code) :
    sweep live (i :: rest) = (before (behind live i rest) i.value, behind live i rest) :: sweep live rest :=
  rfl

lemma atStart_cons (live : LabelLive) (i : Item Instr) (rest : Code) :
    atStart live (i :: rest) = before (behind live i rest) i.value := rfl

variable {i : Item Instr}

lemma contains_atLabels : (atLabels live ls).contains r ↔ ∃ l ∈ ls, ((live.lookup l).getD .empty).contains r := by
  have hfold : ∀ s : RegSet, (ls.foldl (fun s l ↦ s.union ((live.lookup l).getD .empty)) s).contains r ↔
        s.contains r ∨ ∃ l ∈ ls, ((live.lookup l).getD .empty).contains r := by
    induction ls with
    | nil => simp
    | cons l ls ih => simp [ih, or_assoc]
  simp [atLabels, hfold]

lemma contains_behind : (behind live i rest).contains r ↔ (i.value.fallsThrough ∧ (atStart live rest).contains r) ∨
        ∃ l ∈ i.value.successors, ((live.lookup l).getD .empty).contains r := by
  rw [behind, after, RegSet.contains_union, Bool.or_eq_true, contains_atLabels]
  cases i.value.fallsThrough <;> simp

lemma contains_atStart_cons : (atStart live (i :: rest)).contains r ↔
      i.value.reads.contains r ∨ ((behind live i rest).contains r ∧ i.value.writes.contains r = false) := by
  simp [atStart_cons, before]

lemma labelsOf_cons (i : Item Instr) (rest : Code) (s : RegSet × RegSet) (sets : List (RegSet × RegSet)) :
    labelsOf (i :: rest) (s :: sets) = labelsOf rest sets ++ (i.value.definedLabel.map (·, s.1)).toList := by
  simp only [labelsOf, zip_cons_cons, filterMap_cons]
  cases hd : i.value.definedLabel <;> simp

lemma labelsOf_sweep_cons (live : LabelLive) (i : Item Instr) (rest : Code) :
    labelsOf (i :: rest) (sweep live (i :: rest)) =
      labelsOf rest (sweep live rest) ++ (i.value.definedLabel.map (·, atStart live (i :: rest))).toList :=
  labelsOf_cons i rest _ _

lemma lookup_labelsOf_sweep (live : LabelLive) (l : Label) (code : Code) :
    (labelsOf code (sweep live code)).lookup l = (code.seek l).map (atStart live) := by
  induction code with
  | nil => rfl
  | cons i rest ih =>
    rw [labelsOf_sweep_cons, lookup_append, ih, Code.seek_cons]
    cases Code.seek l rest with
    | some found => rfl
    | none =>
      cases hd : i.value.definedLabel with
      | none => simp
      | some m =>
        by_cases hm : m = l
        · simp [hm]
        · have hne : (l == m) = false := beq_false_of_ne (Ne.symm hm)
          simp [hm, hne, lookup_cons]

/-! ## The fixed point -/

def Grows (live live' : LabelLive) : Prop :=
  List.Forall₂ (fun a b ↦ a.1 = b.1 ∧ a.2.Subset b.2) live live'

def Below (live live' : LabelLive) : Prop :=
  ∀ l, ((live.lookup l).getD .empty).Subset ((live'.lookup l).getD .empty)

lemma Below.behind (h : Below live live') (hrest : (atStart live rest).Subset (atStart live' rest')) :
    (behind live i rest).Subset (behind live' i rest') := by
  intro r hr
  rw [contains_behind] at hr ⊢
  rcases hr with hr | ⟨l, hl, hr⟩
  · exact .inl ⟨hr.1, hrest r hr.2⟩
  · exact .inr ⟨l, hl, h l r hr⟩

variable (h : Grows live live')

include h

lemma Grows.lookup : Below live live' := by
  intro l
  induction h with
  | nil => exact RegSet.Subset.refl _
  | @cons a b _ _ hab _ ih =>
    obtain ⟨m, s⟩ := a
    obtain ⟨_, t⟩ := b
    obtain ⟨rfl, hst⟩ := hab
    simp only [lookup_cons]
    cases l == m with
    | true => exact hst
    | false => exact ih

lemma Grows.atStart (code : Code) : (atStart live code).Subset (atStart live' code) := by
  induction code with
  | nil => exact RegSet.Subset.refl _
  | cons i rest ih =>
    intro r hr
    rw [contains_atStart_cons] at hr ⊢
    exact hr.imp_right (And.imp_left (Below.behind h.lookup ih r))

lemma Grows.labelsOf (code : Code) : Grows (labelsOf code (sweep live code)) (labelsOf code (sweep live' code)) := by
  induction code with
  | nil => exact .nil
  | cons i rest ih =>
    rw [labelsOf_sweep_cons, labelsOf_sweep_cons]
    refine rel_append ih ?_
    cases i.value.definedLabel with
    | none => exact .nil
    | some l => exact .cons ⟨rfl, h.atStart (i :: rest)⟩ .nil

omit h in
/-- The number of registers in all sets. -/
def weight (live : LabelLive) : Nat := (live.map fun e ↦ e.2.toList.length).sum

omit h in
lemma weight_le (live : LabelLive) : weight live ≤ 8 * live.length := by
  induction live with
  | nil => exact Nat.le_refl _
  | cons e live ih =>
    have he := e.2.length_toList_le
    simp only [weight, map_cons, sum_cons, length_cons] at ih ⊢
    omega

lemma Grows.weight_le : weight live ≤ weight live' := by
  induction h with
  | nil => exact Nat.le_refl _
  | cons hab _ ih =>
    have hlen := hab.2.length_toList
    simp only [weight, map_cons, sum_cons] at ih ⊢
    omega

lemma Grows.eq_of_weight (hw : weight live' ≤ weight live) : live = live' := by
  induction h with
  | nil => rfl
  | cons hab h ih =>
    have hlen := hab.2.length_toList
    have hrest := Grows.weight_le h
    simp only [weight, map_cons, sum_cons] at ih hw hrest
    have hset := hab.2.eq_of_length (by omega)
    rw [ih (by omega), Prod.ext hab.1 hset]

lemma Grows.length_eq : live.length = live'.length := Forall₂.length_eq h

omit h

/-- Rounds that only add reach a fixed point before the sets are full. -/
lemma iterate_fixed (code : Code) (rounds : Nat) (live : LabelLive)
    (hgrows : Grows live (labelsOf code (sweep live code))) (hrounds : 8 * live.length < rounds + weight live) :
    labelsOf code (sweep (iterate code rounds live) code) = iterate code rounds live := by
  induction rounds generalizing live with
  | zero =>
    have hle := weight_le live
    omega
  | succ rounds ih =>
    rw [iterate]
    split
    · assumption
    · rename_i hne
      refine ih _ (hgrows.labelsOf code) ?_
      have hlt : weight live < weight (labelsOf code (sweep live code)) := by
        by_contra hle
        exact hne (hgrows.eq_of_weight (Nat.le_of_not_lt hle)).symm
      rw [← hgrows.length_eq]
      omega

lemma start_grows (code : Code) (live : LabelLive) :
    Grows (labelsOf code (code.map fun _ ↦ (.empty, .empty))) (labelsOf code (sweep live code)) := by
  induction code with
  | nil => exact .nil
  | cons i rest ih =>
    rw [map_cons, labelsOf_cons, labelsOf_sweep_cons]
    refine rel_append ih ?_
    cases i.value.definedLabel with
    | none => exact .nil
    | some l => exact .cons ⟨rfl, fun r hr ↦ by simp at hr⟩ .nil

lemma atAllLabels_fixed (code : Code) : labelsOf code (sweep (atAllLabels code) code) = atAllLabels code :=
  iterate_fixed code _ _ (start_grows code _) (by omega)

lemma lookup_atAllLabels (code : Code) (l : Label) :
    (atAllLabels code).lookup l = (code.seek l).map (atStart (atAllLabels code)) := by
  rw [← lookup_labelsOf_sweep, atAllLabels_fixed]

end Liveness

/-! ## Paths -/

def Instr.overwrites : Instr → RegSet
  | .label .. => .empty
  | i => i.writes

/-- Some path through the code from `rest` on reads the register before it is overwritten. -/
inductive LiveAt (code : Code) (r : Reg) : Code → Prop
  | reads {i : Item Instr} {rest : Code} (h : i.value.reads.contains r) : LiveAt code r (i :: rest)
  | falls {i : Item Instr} {rest : Code} (hf : i.value.fallsThrough)
    (hw : i.value.overwrites.contains r = false) (h : LiveAt code r rest) : LiveAt code r (i :: rest)
  | jumps {i : Item Instr} {rest found : Code} {l : Label} (hl : l ∈ i.value.successors)
    (hw : i.value.overwrites.contains r = false) (hs : code.seek l = some found)
    (h : LiveAt code r found) : LiveAt code r (i :: rest)

lemma Instr.writes_eq_overwrites {i : Instr} (h : ∀ l liveIn, i = .label l liveIn → liveIn = .empty) :
    i.writes = i.overwrites := by
  cases i with
  | label l liveIn => exact h l liveIn rfl
  | _ => rfl

lemma Instr.overwrites_of_result {i : Instr} (h : i.result = some rd) : i.overwrites = .ofList [rd] := by
  cases i <;> first | (cases h; done) | (cases h; rfl)

lemma Instr.writes_of_result {i : Instr} (h : i.result = some rd) : i.writes = .ofList [rd] := by
  cases i <;> first | (cases h; done) | (cases h; rfl)

lemma Instr.overwrites_subset_writes (i : Instr) : i.overwrites.Subset i.writes := by
  intro r hr
  cases i with
  | label l liveIn => simp [Instr.overwrites] at hr
  | _ => exact hr

namespace Code

/-- A label that declares registers stands first or behind an instruction that control does not pass;
`falls` says whether control passes into the code. -/
def Guarded (falls : Bool) : Code → Prop
  | [] => True
  | i :: rest =>
    (falls → ∀ l liveIn, i.value = .label l liveIn → liveIn = .empty) ∧
      Guarded i.value.fallsThrough rest

def Defines (code : Code) (l : Label) (liveIn : RegSet) (rest : Code) : Prop :=
  ∃ j : Item Instr, j.value = .label l liveIn ∧ code.seek l = some (j :: rest)

/-- Where an exception enters, no register is read before it is overwritten but those that the label
declares and the stack pointer. -/
def ReadsDeclared (entry : Label → Bool) (code : Code) : Prop :=
  ∀ l liveIn rest, entry l → code.Defines l liveIn rest → ∀ r, LiveAt code r rest →
    r = .sp ∨ liveIn.contains r

/-- Labels that declare registers are entered by exceptions only, and an exception brings one
register. -/
structure Declared (entry : Label → Bool) (code : Code) : Prop where
  falls : code.Guarded false
  jumps : ∀ i ∈ code, ∀ l ∈ i.value.successors, ∀ liveIn rest, code.Defines l liveIn rest →
    liveIn = .empty
  reads : code.ReadsDeclared entry
  passes : ∀ l liveIn rest, entry l → code.Defines l liveIn rest → ∀ r, liveIn.contains r → r = .r0

variable {l : Label} {liveIn : RegSet} {b : Bool}

lemma defines_of_seek (h : code.seek l = some found) :
    ∃ i liveIn rest, found = i :: rest ∧ i.value = .label l liveIn ∧ code.Defines l liveIn rest := by
  obtain ⟨i, liveIn, rest, rfl, hi⟩ := seek_head h
  exact ⟨i, liveIn, rest, rfl, hi, i, hi, h⟩

lemma Defines.of_map {code' rest' : Code} {g : Code → Code} (hseek : code'.seek l = (code.seek l).map g)
    (hlabel : ∀ (i : Item Instr) (rest : Code) (s : RegSet), i.value = .label l s → g (i :: rest) = i :: g rest)
    (h : code'.Defines l liveIn rest') : ∃ rest, code.Defines l liveIn rest ∧ rest' = g rest := by
  obtain ⟨j, hj, hs⟩ := h
  rw [hseek] at hs
  obtain ⟨_, hs, hfound⟩ := Option.map_eq_some_iff.mp hs
  obtain ⟨i, liveIn', rest, rfl, hi, hdef⟩ := defines_of_seek hs
  rw [hlabel i rest liveIn' hi] at hfound
  cases hfound
  rw [hi] at hj
  cases hj
  exact ⟨rest, hdef, rfl⟩

lemma Defines.suffix (h : code.Defines l liveIn rest) : rest <:+ code := by
  obtain ⟨j, -, hs⟩ := h
  exact (suffix_cons j rest).trans (seek_suffix hs)

lemma Guarded.of_true (h : code.Guarded true) : code.Guarded b := by
  cases code with
  | nil => trivial
  | cons i rest => exact ⟨fun _ ↦ h.1 rfl, h.2⟩

lemma Guarded.of_suffix (h : code.Guarded b) (hs : rest <:+ code) : ∃ b', rest.Guarded b' := by
  induction code generalizing b with
  | nil =>
    rw [suffix_nil.mp hs]
    exact ⟨b, h⟩
  | cons i code ih =>
    rcases suffix_cons_iff.mp hs with rfl | hs
    · exact ⟨b, h⟩
    · exact ih h.2 hs

end Code

namespace Liveness

def Needed (live : LabelLive) (r : Reg) : Code → Prop
  | [] => False
  | i :: rest =>
    i.value.reads.contains r ∨
      ((behind live i rest).contains r ∧ i.value.overwrites.contains r = false)

lemma Needed.atStart (h : Needed live r rest)
    (hl : ∀ i tail l liveIn, rest = i :: tail → i.value = .label l liveIn → liveIn = .empty) :
    (atStart live rest).contains r := by
  cases rest with
  | nil => cases h
  | cons i tail =>
    rw [contains_atStart_cons, Instr.writes_eq_overwrites fun l liveIn hi ↦ hl i tail l liveIn rfl hi]
    exact h

lemma Needed.atStart_of_guarded (h : Needed live r rest) (hg : rest.Guarded true) :
    (Liveness.atStart live rest).contains r := by
  refine h.atStart fun i _ l liveIn heq hi ↦ ?_
  rw [heq] at hg
  exact hg.1 rfl l liveIn hi

lemma liveAt_of_atStart
    (hlive : ∀ l found, code.seek l = some found → ((live.lookup l).getD .empty).contains r → LiveAt code r found)
    (hnone : ∀ l, code.seek l = none → ((live.lookup l).getD .empty).contains r = false)
    (h : (atStart live rest).contains r) : LiveAt code r rest := by
  induction rest with
  | nil => simp [atStart, sweep] at h
  | cons i rest ih =>
    rw [contains_atStart_cons, contains_behind] at h
    rcases h with h | ⟨h, hw⟩
    · exact .reads h
    · have hw' : i.value.overwrites.contains r = false := by
        by_contra ho
        rw [i.value.overwrites_subset_writes r (by simpa using ho)] at hw
        cases hw
      rcases h with ⟨hf, h⟩ | ⟨l, hl, h⟩
      · exact .falls hf hw' (ih h)
      · cases hs : code.seek l with
        | none =>
          rw [hnone l hs] at h
          cases h
        | some found => exact .jumps hl hw' hs (hlive l found hs h)

def Sound (code : Code) (live : LabelLive) : Prop :=
  ∀ l r, ((live.lookup l).getD .empty).contains r → ∃ found, code.seek l = some found ∧ LiveAt code r found

lemma Sound.atStart (h : Sound code live) (hr : (atStart live rest).contains r) : LiveAt code r rest := by
  refine liveAt_of_atStart (fun l _ hs hl ↦ ?_) (fun l hs ↦ ?_) hr
  · obtain ⟨_, hs', hlive⟩ := h l r hl
    exact Option.some.inj (hs'.symm.trans hs) ▸ hlive
  · by_contra hl
    obtain ⟨_, hs', -⟩ := h l r (by simpa using hl)
    cases hs.symm.trans hs'

lemma Sound.labelsOf (h : Sound code live) : Sound code (labelsOf code (sweep live code)) := by
  intro l r hr
  rw [lookup_labelsOf_sweep] at hr
  cases hs : code.seek l with
  | none => simp [hs] at hr
  | some found =>
    rw [hs] at hr
    exact ⟨found, rfl, h.atStart hr⟩

lemma iterate_induction {P : LabelLive → Prop} (hP : ∀ live, P live → P (labelsOf code (sweep live code)))
    (rounds : Nat) (h : P live) : P (iterate code rounds live) := by
  induction rounds generalizing live with
  | zero => exact h
  | succ rounds ih =>
    rw [iterate]
    split
    · exact h
    · exact ih (hP live h)

lemma atAllLabels_sound (code : Code) : Sound code (atAllLabels code) := by
  refine iterate_induction (P := Sound code) (fun _ ↦ Sound.labelsOf) _ fun l r hr ↦ ?_
  -- Nothing is live at the start: what a sweep finds is larger.
  have hempty : ∀ rest : Code, (((labelsOf rest (rest.map fun _ ↦ (.empty, .empty))).lookup l).getD .empty).contains r =
        false := by
    intro rest
    induction rest with
    | nil => simp [labelsOf]
    | cons i rest ih =>
      rw [map_cons, labelsOf_cons, lookup_append]
      cases hl : (labelsOf rest (rest.map fun _ ↦ (RegSet.empty, RegSet.empty))).lookup l with
      | some s =>
        rw [hl] at ih
        exact ih
      | none =>
        cases i.value.definedLabel with
        | none => simp
        | some m =>
          simp only [Option.map_some, Option.toList_some, lookup_cons, Option.none_or]
          cases l == m <;> simp
  rw [hempty code] at hr
  cases hr

/-- A register that is read on some path is found, if labels that are entered otherwise declare
nothing. -/
lemma needed_of_liveAt (hd : code.Declared entry) (h : LiveAt code r rest) (hs : rest <:+ code)
    : Needed (atAllLabels code) r rest := by
  induction h with
  | reads h => exact .inl h
  | @falls i rest hf hw _ ih =>
    have hsuf : rest <:+ code := (suffix_cons i rest).trans hs
    obtain ⟨b, hg⟩ := hd.falls.of_suffix hs
    have hg' : rest.Guarded true := hf ▸ hg.2
    exact .inr ⟨contains_behind.mpr (.inl ⟨hf, (ih hsuf).atStart_of_guarded hg'⟩), hw⟩
  | @jumps i _ _ l hl hw hseek _ ih =>
    obtain ⟨j, liveIn, tail, rfl, hj, hdef⟩ := Code.defines_of_seek hseek
    have hi : i ∈ code := hs.subset mem_cons_self
    have hfound : (atStart (atAllLabels code) (j :: tail)).contains r := by
      refine (ih (Code.seek_suffix hseek)).atStart fun i' _ l' _ heq hi' ↦ ?_
      cases heq
      rw [hj] at hi'
      cases hi'
      exact hd.jumps i hi l hl liveIn tail hdef
    refine .inr ⟨contains_behind.mpr (.inr ⟨l, hl, ?_⟩), hw⟩
    rw [lookup_atAllLabels, hseek]
    exact hfound

end Liveness

end W16Compiler
