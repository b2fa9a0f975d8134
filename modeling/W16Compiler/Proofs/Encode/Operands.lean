import W16Compiler.Proofs.Encode.Decoding
import W16Compiler.Proofs.Encode.Relaxation
import W16Compiler.Proofs.Frame.Resolution
import W16Compiler.Proofs.Machine.Optimize
import W16Compiler.Proofs.Prim.Rewriting

/-!
# Operands fit their fields

Selection compares the first registers only and chooses long forms, and refers to labels of the nodes.
The layout of the frame makes every displacement a number that fits its field. Nothing of this is lost
when instructions are replaced by cheaper ones, or removed.
-/

namespace W16Compiler

open List Instr Code Liveness

def Instr.startsLong : Instr → Bool
  | .branch _ ra rb _ short => ra.number ≤ 3 && rb.number ≤ 3 && !short
  | .branchZero _ _ _ short | .jump _ short | .loadLabel _ _ short => !short
  | _ => true

lemma Instr.isShort_of_startsLong {i : Instr} (h : i.startsLong) (hi : i.relaxTarget.isSome) : i.isShort = false := by
  cases i <;> simp_all [startsLong, relaxTarget, isShort]

def Code.labels (code : Code) : List Label := code.filterMap (·.value.definedLabel)

lemma Code.labels_cons (i : Item Instr) (code : Code) :
    labels (i :: code) = i.value.definedLabel.toList ++ code.labels := by
  rw [labels, filterMap_cons]
  cases i.value.definedLabel <;> rfl

lemma Code.labels_append (code code' : Code) : labels (code ++ code') = code.labels ++ code'.labels :=
  filterMap_append

lemma Code.labels_map (instrs : List Instr) (loc : Option Location) :
    labels (instrs.map (⟨·, loc⟩)) = instrs.filterMap (·.definedLabel) :=
  filterMap_map

namespace Select

variable {args : Int → Prop} {p : Prim} {slots slots' : Array Slot} {instrs : Instrs}

def StartsLong (p : Prim) (i : Instr) : Prop := i.startsLong ∧ ∀ l, i.relaxTarget = some l → l ∈ p.targets

lemma startsLong_of_isInner {i : Instr} (h : i.isInner) : StartsLong p i := by
  cases i <;> first | exact ⟨rfl, fun l hl ↦ by cases hl⟩ | cases h

lemma startsLong_branchInstr (cond : Cond) (signed : Bool) (target : Label) :
    (branchInstr cond signed target).startsLong := by
  rw [branchInstr]
  cases (branchCond cond signed).2 <;> rfl

lemma startsLong_selectPrim (h : selectPrim p slots = .ok (instrs, slots')) : ∀ i ∈ instrs, StartsLong p i := by
  have hinner {code : Instrs} (hcode : Inner (fun _ ↦ True) code) : ∀ i ∈ code, StartsLong p i :=
    fun i hi ↦ startsLong_of_isInner (hcode i hi).1
  cases selectPrim_shape h (Prim.touches_all p) with
  | @compare cond rep lhs rhs target _ c ra rb hpre =>
    have hs : Selects True (selectCompare cond rep lhs rhs target) _ :=
      selects_compare (.inl trivial) lhs.touches_all rhs.touches_all
    obtain ⟨_, signed, -, hconcat⟩ := ((hs slots).of_eq h).2
    have hlast : branch c ra rb target false = branchInstr cond signed target :=
      singleton_inj.mp (append_inj' hconcat rfl).2
    rw [forall_mem_append, forall_mem_singleton]
    refine ⟨hinner hpre, ?_, fun l hl ↦ ?_⟩
    · rw [hlast]
      exact startsLong_branchInstr cond signed target
    · cases hl
      exact mem_singleton_self target
  | test hpre =>
    rw [forall_mem_append, forall_mem_singleton]
    refine ⟨hinner hpre, rfl, fun l hl ↦ ?_⟩
    cases hl
    exact mem_singleton_self _
  | callStart n => split <;> simp [StartsLong, startsLong, relaxTarget]
  | call hpre hstore =>
    rw [forall_mem_append, forall_mem_append]
    refine ⟨hinner hpre, ?_, hinner hstore⟩
    split <;> simp [StartsLong, startsLong, relaxTarget]
  | pure hp hcode => exact hinner hcode
  | ret hload =>
    rw [forall_mem_append]
    exact ⟨hinner hload, by simp [StartsLong, startsLong, relaxTarget]⟩
  | throwValue hpre =>
    rw [forall_mem_append]
    exact ⟨hinner hpre, by simp [StartsLong, startsLong, relaxTarget]⟩
  | catchEntry hstore =>
    rw [forall_mem_cons]
    exact ⟨⟨rfl, fun l hl ↦ by cases hl⟩, hinner hstore⟩
  | tryBegin record handler => simp [selectTryBegin, StartsLong, startsLong, relaxTarget, Prim.targets]
  | tryEnd record => simp [selectTryEnd, StartsLong, startsLong, relaxTarget]
  | entry | label | cleanupEntry | jump | cleanupCall | cleanupReturn =>
    simp [StartsLong, startsLong, relaxTarget, Prim.targets]

lemma labels_selectPrim (h : selectPrim p slots = .ok (instrs, slots')) :
    instrs.filterMap (·.definedLabel) = p.definedLabel.toList := by
  have hnone {code : Instrs} (hcode : Unlabelled code) : code.filterMap (·.definedLabel) = [] :=
    filterMap_eq_nil_iff.mpr hcode
  rcases (selectPrim_shape h (Prim.touches_all p)).labels with ⟨l, liveIn, _, hl, rfl, htail⟩ | ⟨hl, hcode⟩
  · have hfirst : (label l liveIn).definedLabel = some l := rfl
    rw [hl, filterMap_cons_some hfirst, hnone htail]
    rfl
  · rw [hl, hnone hcode]
    rfl

end Select

/-! ## Preparation -/

/-- Code with the given labels that is ready for the choice of short forms. -/
structure Code.Prepared (labels : List Label) (code : Code) : Prop where
  labels_eq : code.labels = labels
  fits : ∀ i ∈ code, i.value.fitsFields
  long : ∀ i ∈ code, i.value.relaxTarget.isSome → i.value.isShort = false
  targets : ∀ i ∈ code, ∀ l, i.value.relaxTarget = some l → l ∈ labels

namespace Select

variable {slots slots' : Array Slot} {flow : Flow} {code : Code}

lemma Selected.labels (h : Selected slots flow code slots') : code.labels = flow.labels := by
  induction h with
  | nil slots => rfl
  | @cons _ _ _ p _ _ _ hp _ ih =>
    rw [labels_append, labels_map, labels_selectPrim hp, ih, Flow.labels, Flow.labels, filterMap_cons]
    cases p.value.definedLabel <;> rfl

lemma Selected.startsLong (h : Selected slots flow code slots') :
    ∀ i ∈ code, i.value.startsLong ∧ ∀ l, i.value.relaxTarget = some l → ∃ p ∈ flow, l ∈ p.value.targets := by
  induction h with
  | nil slots => simp
  | @cons _ _ _ p _ _ _ hp _ ih =>
    intro i hi
    rcases mem_append.mp hi with hi | hi
    · obtain ⟨j, hj, rfl⟩ := mem_map.mp hi
      obtain ⟨hlong, htarget⟩ := startsLong_selectPrim hp j hj
      exact ⟨hlong, fun l hl ↦ ⟨p, mem_cons_self, htarget l hl⟩⟩
    · obtain ⟨hlong, htarget⟩ := ih i hi
      refine ⟨hlong, fun l hl ↦ ?_⟩
      obtain ⟨q, hq, hlq⟩ := htarget l hl
      exact ⟨q, mem_cons_of_mem p hq, hlq⟩

end Select

/-! ## Layout -/

namespace Frame

variable {offsets : List (Option Nat)} {frame : Nat} {depth : Int}

lemma resolveDisp_eq_ok (h : resolveDisp offsets frame depth d = .ok d') : ∃ v, d' = .num v := by
  cases d with
  | slot s o =>
    rw [resolveDisp] at h
    split at h
    · cases h
      exact ⟨_, rfl⟩
    · cases h
  | _ =>
    cases h
    exact ⟨_, rfl⟩

variable {i j : Instr} {items : List (Item Instr × Option Int)} {code : Code}

lemma resolveInstr_eq_ok (h : resolveInstr offsets frame depth i = .ok j) :
    j = i ∧ i.access = none ∨ i.access.isSome ∧ ∃ base v, j.access = some (base, .num v) := by
  cases i with
  | addImm rd ra d | load rd base d | store rs base d =>
    obtain ⟨_, hd, hj⟩ := bind_eq_ok.mp h
    obtain ⟨v, rfl⟩ := resolveDisp_eq_ok hd
    cases hj
    exact .inr ⟨rfl, _, v, rfl⟩
  | _ =>
    cases h
    exact .inl ⟨rfl, rfl⟩

lemma definedLabel_of_access (h : i.access.isSome) : i.definedLabel = none := by
  cases i <;> first | rfl | cases h

lemma fitsFields_expand (hj : j.access = some (base, .num v)) :
    ∀ k ∈ expand j, k.fitsFields ∧ k.relaxTarget = none ∧ k.definedLabel = none := by
  have hzero : fitsSigned 0 dispBits := by decide
  cases j with
  | addImm rd ra d =>
    cases hj
    rw [expand]
    split
    · simp
    · split <;> simp_all [fitsFields, relaxTarget, definedLabel, Disp.value]
  | load rd base d | store rs base d =>
    cases hj
    rw [expand]
    split <;> simp_all [fitsFields, relaxTarget, definedLabel, Disp.value]
  | _ => cases hj

lemma fitsFields_of_access (h : i.access = none) (hlong : i.startsLong) : i.fitsFields := by
  cases i with
  | branch cond ra rb target short => simp_all [startsLong, fitsFields]
  | addImm | load | store => cases h
  | _ => rfl

lemma expand_resolved (h : resolveInstr offsets frame depth i = .ok j) (hi : i.startsLong) :
    (expand j).filterMap (·.definedLabel) = i.definedLabel.toList ∧
      ∀ k ∈ expand j, k.fitsFields ∧ (k = i ∨ k.relaxTarget = none) := by
  rcases resolveInstr_eq_ok h with ⟨rfl, haccess⟩ | ⟨haccess, _, v, hj⟩
  · rw [expand_of_access haccess, forall_mem_singleton]
    refine ⟨?_, fitsFields_of_access haccess hi, .inl rfl⟩
    cases hl : j.definedLabel <;> simp [hl]
  · have hpiece := fitsFields_expand hj
    refine ⟨?_, fun k hk ↦ ⟨(hpiece k hk).1, .inr (hpiece k hk).2.1⟩⟩
    rw [definedLabel_of_access haccess]
    exact filterMap_eq_nil_iff.mpr fun k hk ↦ (hpiece k hk).2.2

lemma resolveAll_eq_none (h : resolveAll offsets frame items = (none, code)) :
    Forall₂ (fun p j ↦ resolveInstr offsets frame (p.2.getD 0) p.1.value = .ok j.value) items code := by
  induction items generalizing code with
  | nil =>
    cases h
    exact .nil
  | cons p items ih =>
    rw [resolveAll] at h
    split at h
    · rename_i hinstr
      obtain ⟨hfault, rfl⟩ := Prod.mk.inj h
      exact .cons hinstr (ih (Prod.ext hfault rfl))
    · cases h

lemma expandAll_resolved
    (h : Forall₂ (fun p j ↦ resolveInstr offsets frame (p.2.getD 0) p.1.value = .ok j.value) items code)
    (hlong : ∀ p ∈ items, p.1.value.startsLong) :
    (expandAll code).labels = labels (items.map (·.1)) ∧ ∀ k ∈ expandAll code, k.value.fitsFields ∧
        ∀ l, k.value.relaxTarget = some l → ∃ i ∈ items.map (·.1), i.value = k.value := by
  induction h with
  | nil => simp [expandAll, labels]
  | @cons p j _ code hj _ ih =>
    obtain ⟨hlabels, hfits⟩ := ih fun q hq ↦ hlong q (mem_cons_of_mem p hq)
    obtain ⟨hlabel, hpiece⟩ := expand_resolved hj (hlong p mem_cons_self)
    have hexpand : expandAll (j :: code) = (expand j.value).map (⟨·, j.loc⟩) ++ expandAll code := flatMap_cons
    rw [hexpand, map_cons]
    constructor
    · rw [labels_append, labels_map, hlabel, hlabels, labels_cons]
    · intro k hk
      rcases mem_append.mp hk with hk | hk
      · obtain ⟨e, he, rfl⟩ := mem_map.mp hk
        refine ⟨(hpiece e he).1, fun l hl ↦ ⟨p.1, mem_cons_self, ?_⟩⟩
        rcases (hpiece e he).2 with rfl | hnone
        · rfl
        · rw [hnone] at hl
          cases hl
      · refine ⟨(hfits k hk).1, fun l hl ↦ ?_⟩
        obtain ⟨i, hi, heq⟩ := (hfits k hk).2 l hl
        exact ⟨i, mem_cons_of_mem _ hi, heq⟩

lemma prepared_layout {g g' : MachineFunction} (h : g.layout = (none, g')) {labels : List Label}
    (hlabels : g.code.labels = labels)
    (hlong : ∀ i ∈ g.code, i.value.startsLong ∧ ∀ l, i.value.relaxTarget = some l → l ∈ labels) :
    g'.code.Prepared labels := by
  obtain ⟨_, ds, code, -, hds, hresolve, hcode⟩ := layout_eq_none h
  have hsize : ds.toList.length = g.code.length := by
    simpa using (explored_depths hds).1.size
  have hitems : (g.code.zip ds.toList).map (·.1) = g.code := map_fst_zip (by omega)
  have hmem : ∀ p ∈ g.code.zip ds.toList, p.1 ∈ g.code := by
    intro p hp
    rw [← hitems]
    exact mem_map_of_mem hp
  obtain ⟨hsame, hfits⟩ := expandAll_resolved (resolveAll_eq_none hresolve) fun p hp ↦ (hlong p.1 (hmem p hp)).1
  rw [hitems] at hsame hfits
  rw [hcode]
  refine ⟨hsame.trans hlabels, fun k hk ↦ (hfits k hk).1, fun k hk hrelax ↦ ?_, fun k hk l hl ↦ ?_⟩
  · obtain ⟨l, hl⟩ := Option.isSome_iff_exists.mp hrelax
    obtain ⟨i, hi, heq⟩ := (hfits k hk).2 l hl
    rw [← heq] at hrelax ⊢
    exact isShort_of_startsLong (hlong i hi).1 hrelax
  · obtain ⟨i, hi, heq⟩ := (hfits k hk).2 l hl
    exact (hlong i hi).2 l (heq ▸ hl)

end Frame

/-! ## Optimization -/

namespace Knowledge

variable {k : Knowledge}

lemma fitsFields_of_replace {i j : Instr} (h : k.simplify i = .replace j) : j.fitsFields ∧ j.relaxTarget = none := by
  have hstack {base : Reg} {d : Int} {disp : Disp} (hd : k.stackRelative base d = some disp) :
      disp.value.any (fitsSigned · Frame.dispBits) := by
    simp only [stackRelative] at hd
    repeat' split at hd
    all_goals first | cases hd; done | skip
    cases hd
    assumption
  cases i with
  | alu op rd ra rb =>
    simp only [simplify, simplifyAlu] at h
    repeat' split at h
    all_goals first | cases h; done | skip
    all_goals
      cases h
      first | exact ⟨rfl, rfl⟩ | exact ⟨‹_›, rfl⟩
  | unary op rd ra =>
    simp only [simplify, simplifyUnary] at h
    repeat' split at h
    all_goals first | cases h; done | skip
    all_goals
      cases h
      exact ⟨rfl, rfl⟩
  | addImm rd ra d =>
    cases d with
    | num v =>
      simp only [simplify] at h
      repeat' split at h
      all_goals first | cases h; done | skip
      cases h
      exact ⟨rfl, rfl⟩
    | _ => cases h
  | loadImm rd value =>
    simp only [simplify] at h
    split at h <;> cases h
  | load rd base d | store rs base d =>
    cases d with
    | num v =>
      simp only [simplify] at h
      split at h
      · rename_i disp hdisp
        cases h
        exact ⟨hstack hdisp, rfl⟩
      · cases h
    | _ => cases h
  | _ => cases h

lemma mem_walk_cases {code : Code} {j : Item Instr} (h : j ∈ k.walk code) :
    j ∈ code ∨ j.value.fitsFields ∧ j.value.relaxTarget = none := by
  induction code generalizing k with
  | nil => exact .inl h
  | cons i rest ih =>
    rw [walk] at h
    split at h
    · exact (ih h).imp_left (mem_cons_of_mem i)
    · rcases mem_cons.mp h with rfl | h
      · exact .inl mem_cons_self
      · exact (ih h).imp_left (mem_cons_of_mem i)
    · rename_i hs
      rcases mem_cons.mp h with rfl | h
      · exact .inr (fitsFields_of_replace hs)
      · exact (ih h).imp_left (mem_cons_of_mem i)

lemma labels_walk (k : Knowledge) (code : Code) : labels (k.walk code) = code.labels := by
  induction code generalizing k with
  | nil => rfl
  | cons i rest ih =>
    have hr := simplify_rewritten k i.value
    rw [walk, labels_cons]
    cases hs : k.simplify i.value with
    | keep => rw [labels_cons, ih]
    | drop =>
      rw [hs] at hr
      cases hr with
      | drop hi =>
        rw [ih, definedLabel_of_result hi]
        rfl
    | replace j =>
      rw [hs] at hr
      have hnone : i.value.definedLabel = none ∧ j.definedLabel = none := by
        cases hr with
        | replace hi hj => exact ⟨definedLabel_of_result hi, definedLabel_of_result hj⟩
        | store hi => exact ⟨by rw [hi]; rfl, rfl⟩
      rw [labels_cons, ih, hnone.1, hnone.2]

end Knowledge

lemma Liveness.labels_strip (live : LabelLive) (code : Code) : (strip live code).labels = code.labels := by
  induction code with
  | nil => rfl
  | cons i rest ih =>
    rw [strip, labels_cons]
    split
    · rename_i hdead
      obtain ⟨rd, hr, -⟩ := isDead_result hdead
      rw [ih, definedLabel_of_result hr]
      rfl
    · rw [labels_cons, ih]

namespace Code.Prepared

variable {labels : List Label} {code code' : Code} (h : code.Prepared labels)

include h

lemma of_mem (hlabels : code'.labels = code.labels)
    (hmem : ∀ j ∈ code', j ∈ code ∨ j.value.fitsFields ∧ j.value.relaxTarget = none) : code'.Prepared labels where
  labels_eq := hlabels.trans h.labels_eq
  fits j hj := (hmem j hj).elim (h.fits j) And.left
  long j hj hrelax := by
    rcases hmem j hj with hold | ⟨-, hnone⟩
    · exact h.long j hold hrelax
    · rw [hnone] at hrelax
      cases hrelax
  targets j hj l hl := by
    rcases hmem j hj with hold | ⟨-, hnone⟩
    · exact h.targets j hold l hl
    · rw [hnone] at hl
      cases hl

lemma simplify : code.simplify.Prepared labels :=
  h.of_mem (Knowledge.labels_walk _ code) fun _ hj ↦ Knowledge.mem_walk_cases hj

lemma removeOnce : (removeOnce code).Prepared labels := by
  rw [removeOnce_eq_strip]
  exact h.of_mem (labels_strip _ code) fun _ hj ↦ .inl ((strip_sublist _ code).subset hj)

lemma removeDead : code.removeDead.Prepared labels := by
  fun_induction Code.removeDead code with
  | case1 code next hlt ih => exact ih h.removeOnce
  | case2 code next hlt => exact h

lemma optimize : code.optimize.Prepared labels := by
  have hrounds : ∀ n, (code.optimizeWithin n).Prepared labels := by
    intro n
    induction n generalizing code with
    | zero => exact h
    | succ n ih =>
      rw [optimizeWithin]
      split
      · exact h
      · exact ih h.simplify.removeDead
  exact hrounds maxRounds

end Code.Prepared

lemma PrimFunction.prepared {f : PrimFunction} {g laid : MachineFunction}
    (htargets : ∀ p ∈ f.prims, ∀ l ∈ p.value.targets, l ∈ Flow.labels f.prims) (hselect : f.select = .ok g)
    (hlayout : g.layout = (none, laid)) (optimized : Bool) :
    Prepared (Flow.labels f.prims) (if optimized then laid.optimize else laid).code := by
  have hselected := selected_of_select hselect
  have hlaid : laid.code.Prepared (Flow.labels f.prims) := by
    refine Frame.prepared_layout hlayout hselected.labels fun i hi ↦ ?_
    obtain ⟨hlong, hrefs⟩ := hselected.startsLong i hi
    refine ⟨hlong, fun l hl ↦ ?_⟩
    obtain ⟨p, hp, hlp⟩ := hrefs l hl
    exact htargets p hp l hlp
  cases optimized with
  | true => exact hlaid.optimize
  | false => exact hlaid

end W16Compiler
