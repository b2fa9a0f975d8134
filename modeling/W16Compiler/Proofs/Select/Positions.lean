import W16Compiler.Proofs.Select.Shape

/-!
# Code of a flow list

The code of a function is that of its nodes, one behind the other. So to every rest of the flow list
belongs a rest of the code, and a label is found in both at the same place.
-/

namespace W16Compiler

open List Instr Option

namespace Select

inductive Selected : Array Slot → Flow → Code → Array Slot → Prop where
  | nil (slots : Array Slot) : Selected slots [] [] slots
  | cons {slots slots₁ slots' : Array Slot} {p : Item Prim} {instrs : Instrs} {rest : Flow} {code : Code}
    (h : selectPrim p.value slots = .ok (instrs, slots₁)) (hrest : Selected slots₁ rest code slots') :
    Selected slots (p :: rest) (instrs.map (⟨·, p.loc⟩) ++ code) slots'

variable {slots slots' : Array Slot} {flow : Flow} {code : Code} {args : Int → Prop} {instrs : Instrs}

lemma selected_of_mapM (h : flow.mapM selectItem slots = .ok (pieces, slots')) :
    Selected slots flow pieces.flatten slots' := by
  induction flow generalizing slots pieces with
  | nil =>
    cases h
    exact .nil _
  | cons p rest ih =>
    rw [mapM_cons] at h
    obtain ⟨_, _, hpiece, h1⟩ := bindState_eq_ok.mp h
    obtain ⟨_, _, hothers, h2⟩ := bindState_eq_ok.mp h1
    obtain ⟨_, _, hinstrs, h3⟩ := bindState_eq_ok.mp hpiece
    cases h2
    cases h3
    exact .cons hinstrs (ih hothers)

lemma Selected.grows (h : Selected slots flow code slots') : Grows slots slots' := by
  induction h with
  | nil slots => exact .refl slots
  | cons h _ ih => exact (selectPrim_grows h).trans ih

lemma Selected.append (h : Selected slots flow code slots1) (h' : Selected slots1 flow' code' slots') :
    Selected slots (flow ++ flow') (code ++ code') slots' := by
  induction h with
  | nil slots => exact h'
  | cons hp _ ih =>
    rw [cons_append, append_assoc]
    exact .cons hp (ih h')

/-! ## Labels -/

def Unlabelled (code : Instrs) : Prop := ∀ i ∈ code, i.definedLabel = none

@[simp] lemma unlabelled_nil : Unlabelled [] := by simp [Unlabelled]

@[simp] lemma unlabelled_cons {code : Instrs} : Unlabelled (i :: code) ↔ i.definedLabel = none ∧ Unlabelled code := by
  simp [Unlabelled]

@[simp] lemma unlabelled_append {code code' : Instrs} :
    Unlabelled (code ++ code') ↔ Unlabelled code ∧ Unlabelled code' := by
  simp [Unlabelled, or_imp, forall_and]

lemma Inner.unlabelled {code : Instrs} (h : Inner args code) : Unlabelled code :=
  fun i hi ↦ definedLabel_of_isInner (h i hi).1

lemma Shape.labels (h : Shape args p instrs) :
    (∃ l liveIn tail, p.definedLabel = some l ∧ instrs = .label l liveIn :: tail ∧ Unlabelled tail) ∨
      p.definedLabel = none ∧ Unlabelled instrs := by
  cases h with
  | label l | cleanupEntry l link => exact .inl ⟨l, _, [], rfl, rfl, unlabelled_nil⟩
  | @catchEntry l _ store hstore => exact .inl ⟨l, _, store, rfl, rfl, hstore.unlabelled⟩
  | pure hp hcode =>
    refine .inr ⟨?_, hcode.unlabelled⟩
    cases p <;> first | rfl | cases hp
  | compare hpre | test hpre => exact .inr ⟨rfl, by simp [hpre.unlabelled, definedLabel]⟩
  | callStart n =>
    refine .inr ⟨rfl, ?_⟩
    split <;> simp [definedLabel]
  | call hpre hstore =>
    refine .inr ⟨rfl, ?_⟩
    split <;> simp [hpre.unlabelled, hstore.unlabelled, definedLabel]
  | ret hload => exact .inr ⟨rfl, by simp [hload.unlabelled, definedLabel]⟩
  | throwValue hpre => exact .inr ⟨rfl, by simp [hpre.unlabelled, definedLabel]⟩
  | tryBegin record handler => exact .inr ⟨rfl, by simp [selectTryBegin, definedLabel]⟩
  | tryEnd record => exact .inr ⟨rfl, by simp [selectTryEnd, definedLabel]⟩
  | entry | jump | cleanupCall | cleanupReturn => exact .inr ⟨rfl, by simp [definedLabel]⟩

lemma seek_unlabelled_append (h : Unlabelled instrs) (l : Label) (loc : Option Location) (code : Code) :
    Code.seek l (instrs.map (⟨·, loc⟩) ++ code) = Code.seek l code := by
  induction instrs with
  | nil => rfl
  | cons i instrs ih =>
    obtain ⟨hi, hrest⟩ := unlabelled_cons.mp h
    rw [map_cons, cons_append, Code.seek_cons, ih hrest]
    simp [hi]

lemma Selected.seek (h : Selected slots flow code slots') (l : Label) : (flow.seek l = none ∧ code.seek l = none) ∨
    ∃ before rest front back slots1, flow = before ++ rest ∧ code = front ++ back ∧
      flow.seek l = some rest ∧ code.seek l = some back ∧
      Selected slots before front slots1 ∧ Selected slots1 rest back slots' := by
  induction h with
  | nil slots => exact .inl ⟨rfl, rfl⟩
  | @cons slots _ _ p _ flow code hp hrest ih =>
    have hflow : Flow.seek l (p :: flow) = (Flow.seek l flow).or
        (if p.value.definedLabel = some l then some (p :: flow) else none) := seekLabel_cons p flow
    rcases ih with ⟨hnone, hnone'⟩ | ⟨before, rest, _, back, slots2, rfl, rfl, hs, hs', hb, hr⟩
    · rw [hflow, hnone, none_or]
      rcases (selectPrim_shape hp (Prim.touches_all _)).labels with ⟨m, liveIn, tail, hm, rfl, htail⟩ | ⟨hm, hcode⟩
      · have hcode : Code.seek l ((Instr.label m liveIn :: tail).map (⟨·, p.loc⟩) ++ code) =
            if m = l then some ((Instr.label m liveIn :: tail).map (⟨·, p.loc⟩) ++ code) else none := by
          rw [List.map_cons, List.cons_append, Code.seek_cons, seek_unlabelled_append htail, hnone', none_or]
          simp [definedLabel]
        rw [hcode, hm]
        by_cases hl : m = l
        · rw [if_pos (congrArg some hl), if_pos hl]
          exact .inr ⟨[], p :: flow, [], _, slots, rfl, rfl, rfl, rfl, .nil slots, .cons hp hrest⟩
        · rw [if_neg fun h ↦ hl (some.inj h), if_neg hl]
          exact .inl ⟨rfl, rfl⟩
      · rw [hm, seek_unlabelled_append hcode, hnone']
        exact .inl ⟨rfl, rfl⟩
    · refine .inr ⟨p :: before, rest, _, back, slots2, rfl, (append_assoc _ _ _).symm, ?_, ?_, .cons hp hb, hr⟩
      · rw [hflow, hs, some_or]
      · rcases (selectPrim_shape hp (Prim.touches_all _)).labels with ⟨m, _, _, hm, rfl, htail⟩ | ⟨hm, hcode⟩
        · rw [map_cons, cons_append, Code.seek_cons, seek_unlabelled_append htail, hs', some_or]
        · rw [seek_unlabelled_append hcode, hs']

end Select

open Select

/-- The rest of the nodes of a function, and the rest of its code that belongs to them. -/
def PrimFunction.Aligned (f : PrimFunction) (g : MachineFunction) (rest : Flow) (code : Code) : Prop :=
  ∃ before front slots, f.prims = before ++ rest ∧ g.code = front ++ code ∧
    Selected f.slots before front slots ∧ Selected slots rest code g.slots

namespace PrimFunction

variable {f : PrimFunction} {g : MachineFunction} {rest : Flow} {code : Code}

lemma selected_of_select (h : f.select = .ok g) : Selected f.slots f.prims g.code g.slots := by
  obtain ⟨⟨_, _⟩, hpieces, hg⟩ := bind_eq_ok.mp h
  cases hg
  exact selected_of_mapM hpieces

lemma Aligned.cons {p : Item Prim} (h : f.Aligned g (p :: rest) code) :
    ∃ slots slots1 instrs back, selectPrim p.value slots = .ok (instrs, slots1) ∧
      code = instrs.map (⟨·, p.loc⟩) ++ back ∧ f.Aligned g rest back ∧ Grows f.slots slots ∧ Grows slots1 g.slots := by
  obtain ⟨before, front, slots, hprims, hcode, hfront, hback⟩ := h
  cases hback with
  | @cons _ slots1 _ _ instrs _ back hp hrest =>
    refine ⟨slots, slots1, instrs, back, hp, rfl, ?_, hfront.grows, hrest.grows⟩
    refine ⟨before ++ [p], front ++ instrs.map (⟨·, p.loc⟩), slots1, ?_, ?_, ?_, hrest⟩
    · rw [hprims, append_assoc, singleton_append]
    · rw [hcode, append_assoc]
    · have hone : Selected slots [p] (instrs.map (⟨·, p.loc⟩) ++ []) slots1 := .cons hp (.nil slots1)
      rw [append_nil] at hone
      exact hfront.append hone

lemma aligned_seek (h : f.select = .ok g) (hs : Flow.seek l f.prims = some found) :
    ∃ code, Code.seek l g.code = some code ∧ f.Aligned g found code := by
  rcases (selected_of_select h).seek l with
    ⟨hnone, -⟩ | ⟨before, rest, front, back, slots, hflow, hcode, hrest, hback, hsel, hsel'⟩
  · rw [hnone] at hs
    cases hs
  · rw [hrest] at hs
    cases hs
    exact ⟨back, hback, before, front, slots, hflow, hcode, hsel, hsel'⟩

end PrimFunction

end W16Compiler
