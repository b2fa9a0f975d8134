import W16Compiler.Proofs.Machine.Optimize

/-!
# Optimization of machine code converges

After one walk another one would only drop loads of constants that are known by then. Removing dead instructions
keeps it that way: what is known about a register that is read later stays the same, and no instruction but a load
of a constant asks about the register that it computes. Dropping such a load makes registers live and none dead, so
that the third round changes nothing.
-/

namespace W16Compiler

open Instr Knowledge

namespace Knowledge

variable {code rest found : Code} {k k' : Knowledge} {i : Instr} {r rd : Reg} {l : Label} {v : RegValue}
  {live live' : LabelLive}

/-! ## What is known after an instruction -/

lemma get_stackLost (h : r = .sp ∨ k.get r = k'.get r) : k.stackLost.get r = k'.stackLost.get r := by
  by_cases hr : r = .sp <;> simp_all [get, stackLost]

lemma get_stackMoved (by_ : Int) (h : r = .sp ∨ k.get r = k'.get r) :
    (k.stackMoved by_).get r = (k'.stackMoved by_).get r := by
  by_cases hr : r = .sp <;> simp_all [get, stackMoved]

lemma get_set (v : RegValue) (h : r = rd ∨ k.get r = k'.get r) : (k.set rd v).get r = (k'.set rd v).get r := by
  by_cases hrd : rd = .sp
  · subst hrd
    exact get_stackLost h
  · simp only [set, hrd, if_false]
    grind [get]

lemma get_set_of_ne (hsp : rd ≠ .sp) (hne : r ≠ rd) : (k.set rd v).get r = k.get r := by
  simp [get, set, hsp, hne]

/-- Knowledge about what an instruction reads settles what is known about the register that it computes. -/
lemma step_congr (hreads : ∀ r, i.reads.contains r → k.get r = k'.get r)
    (hr : i.fallsThrough → i.writes.contains r ∨ k.get r = k'.get r) : (k.step i).get r = (k'.step i).get r := by
  cases i <;> simp [reads, writes, result, fallsThrough] at hreads hr <;>
    simp only [step] <;> grind [get_set, get_stackLost, get_stackMoved, constant]

lemma get_step_of_ne (hi : i.result = some rd) (hsp : rd ≠ .sp) (hne : r ≠ rd) : (k.step i).get r = k.get r := by
  cases i <;> cases hi <;> simp only [step, hsp, if_false] <;> grind [get_set_of_ne]

lemma Keeps.congr (h : k.Keeps i) (hreads : ∀ r, i.reads.contains r → k.get r = k'.get r) : k'.Keeps i := by
  cases i with
  | alu op rd ra rb => simp_all [Keeps, reads, simplify, simplifyAlu, constant]
  | unary op rd ra => simp_all [Keeps, reads, simplify, simplifyUnary]
  | addImm rd ra imm => cases imm <;> simp_all [Keeps, reads, simplify, constant]
  | load rd base d | store rs base d => cases d <;> simp_all [Keeps, reads, simplify, stackRelative]
  | _ => simp_all [Keeps, simplify]

lemma Keeps.cases (h : k.Keeps i) :
    k.simplify i = .keep ∨ ∃ rd value, i = .loadImm rd value ∧ k.simplify i = .drop ∧ k.step i = k := by
  rcases h with h | ⟨rd, value, rfl⟩
  · exact .inl h
  · by_cases hc : k.constant rd = some (UnaryInstr.mov.eval value)
    · refine .inr ⟨rd, value, rfl, if_pos hc, ?_⟩
      have hsp : rd ≠ .sp := by
        rintro rfl
        simp [constant_sp] at hc
      obtain ⟨_⟩ := k
      simp only [step, set, hsp, if_false]
      congr 1
      funext q
      grind [constant, get]
    · exact .inl (if_neg hc)

/-! ## Settled code -/

/-- A walk would drop loads of constants and change nothing else. -/
def Settled (k : Knowledge) : Code → Prop
  | [] => True
  | i :: rest => k.Keeps i.value ∧ (k.step i.value).Settled rest

lemma settled_walk (k : Knowledge) (code : Code) : k.Settled (k.walk code) := by
  induction code generalizing k with
  | nil => trivial
  | cons i rest ih =>
    have hr := simplify_rewritten k i.value
    rw [walk]
    cases hs : k.simplify i.value with
    | keep => exact ⟨.inl hs, ih _⟩
    | drop => exact ih k
    | replace j =>
      rw [hs] at hr
      refine ⟨?_, ih _⟩
      cases hr with
      | replace _ _ _ _ hkeep => exact hkeep
      | @store _ _ _ disp => exact .inl (by cases disp <;> simp [simplify, stackRelative])

lemma Settled.walk_walk (h : k.Settled code) : k.walk (k.walk code) = k.walk code := by
  induction code generalizing k with
  | nil => rfl
  | cons i rest ih =>
    rcases h.1.cases with hs | ⟨rd, value, -, hs, hstep⟩
    · simp [walk, hs, ih h.2]
    · simp [walk, hs, ih (hstep ▸ h.2)]

lemma Settled.of_seek (h : k.Settled code) (hs : code.seek l = some found) : nothing.Settled found := by
  induction code generalizing k with
  | nil => cases hs
  | cons i rest ih =>
    rw [Code.seek_cons] at hs
    rcases Option.or_eq_some_iff.mp hs with hs | ⟨-, hs⟩
    · exact ih h.2 hs
    · obtain ⟨hd, hfound⟩ := Option.ite_none_right_eq_some.mp hs
      cases hfound
      have hrest := h.2
      cases hi : i.value <;> simp only [hi, definedLabel, reduceCtorEq] at hd
      rw [hi] at hrest
      exact ⟨.inl (by rw [hi]; rfl), by rw [hi]; exact hrest⟩

open Liveness

lemma Settled.strip (h : k.Settled code)
    (hk : ∀ r, (atStart live code).contains r → k.get r = k'.get r) : k'.Settled (strip live code) := by
  induction code generalizing k k' with
  | nil => trivial
  | cons i rest ih =>
    have hbehind : i.value.fallsThrough → ∀ r, (atStart live rest).contains r →
        (behind live i rest).contains r := fun hf r hr ↦ contains_behind.mpr (.inl ⟨hf, hr⟩)
    rw [Liveness.strip]
    split
    · rename_i hdead
      obtain ⟨rd, hi, hsp, -, hout⟩ := isDead_result hdead
      refine ih h.2 fun r hr ↦ ?_
      have hr := hbehind (fallsThrough_of_result hi) r hr
      have hne : r ≠ rd := by
        rintro rfl
        simp [hout] at hr
      rw [get_step_of_ne hi hsp hne]
      exact hk r (contains_atStart_cons.mpr (.inr ⟨hr, by simp [writes_of_result hi, hne]⟩))
    · have hreads := fun r hr ↦ hk r (contains_atStart_cons.mpr (.inl hr))
      refine ⟨h.1.congr hreads, ih h.2 fun r hr ↦ step_congr hreads fun hf ↦ ?_⟩
      cases hw : i.value.writes.contains r with
      | true => exact .inl rfl
      | false => exact .inr (hk r (contains_atStart_cons.mpr (.inr ⟨hbehind hf r hr, hw⟩)))

/-! ## Liveness after a walk -/

lemma Settled.atStart_walk (h : k.Settled rest) (hlive : Below live live') :
    (atStart live rest).Subset (atStart live' (k.walk rest)) := by
  induction rest generalizing k with
  | nil => exact RegSet.Subset.refl _
  | cons i rest ih =>
    intro r hr
    rw [contains_atStart_cons] at hr
    rcases h.1.cases with hs | ⟨rd, value, hi, hs, hstep⟩
    · simp only [walk, hs]
      exact contains_atStart_cons.mpr (hr.imp_right (And.imp_left (hlive.behind (ih h.2) r)))
    · simp only [walk, hs]
      simp [hi, reads, successors, contains_behind] at hr
      exact ih (hstep ▸ h.2) r hr.1.2

lemma Settled.below_labelsOf (h : nothing.Settled code) (hlive : Below live (atAllLabels (nothing.walk code))) :
    Below (labelsOf code (sweep live code)) (atAllLabels (nothing.walk code)) := by
  intro l r hr
  rw [lookup_labelsOf_sweep] at hr
  rw [lookup_atAllLabels, seek_walk]
  cases hs : code.seek l with
  | none => simp [hs] at hr
  | some found =>
    rw [hs] at hr
    exact (h.of_seek hs).atStart_walk hlive r hr

lemma Settled.below_atAllLabels (h : nothing.Settled code) :
    Below (atAllLabels code) (atAllLabels (nothing.walk code)) :=
  iterate_induction (P := (Below · (atAllLabels (nothing.walk code)))) (fun _ ↦ h.below_labelsOf) _ fun l r hr ↦
    h.below_labelsOf (fun _ _ hr ↦ hr) l r ((start_grows code _).lookup l r hr)

lemma Settled.strip_walk (h : k.Settled rest) (hlive : Below live live') (hs : Liveness.strip live rest = rest) :
    Liveness.strip live' (k.walk rest) = k.walk rest := by
  induction rest generalizing k with
  | nil => rfl
  | cons i rest ih =>
    rw [Liveness.strip] at hs
    split at hs
    · have hlen := (strip_sublist live rest).length_le
      rw [hs, List.length_cons] at hlen
      omega
    · rename_i hdead
      have hrest := (List.cons.inj hs).2
      rcases h.1.cases with hk | ⟨rd, value, -, hk, hstep⟩
      · simp only [walk, hk, Liveness.strip, ih h.2 hrest]
        exact if_neg fun hdead' ↦ hdead (isDead_mono (hlive.behind (h.2.atStart_walk hlive)) hdead')
      · simp [walk, hk, ih (hstep ▸ h.2) hrest]

end Knowledge

namespace Code

open Knowledge Liveness

lemma removeOnce_removeDead (code : Code) : removeOnce code.removeDead = code.removeDead := by
  fun_induction removeDead code with
  | case1 code next hlt ih => exact ih
  | case2 code next hlt =>
    have hsub : (removeOnce code).Sublist code := by
      rw [removeOnce_eq_strip]
      exact strip_sublist _ code
    exact hsub.eq_of_length_le (Nat.le_of_not_lt hlt)

lemma removeDead_of_removeOnce {code : Code} (h : removeOnce code = code) : code.removeDead = code := by
  rw [removeDead]
  simp [h]

lemma settled_removeDead {code : Code} (h : nothing.Settled code) : nothing.Settled code.removeDead := by
  fun_induction removeDead code with
  | case1 code next hlt ih =>
    refine ih ?_
    rw [show next = strip _ code from removeOnce_eq_strip code]
    exact h.strip fun _ _ ↦ rfl
  | case2 code next hlt => exact h

/-- One round of the optimizer. -/
def round (code : Code) : Code := code.simplify.removeDead

lemma round_round (code : Code) :
    round (round code) = (round code).simplify ∧ (round code).simplify.simplify = (round code).simplify ∧
      (round code).simplify.removeDead = (round code).simplify := by
  have hsettled : nothing.Settled (round code) := settled_removeDead (settled_walk nothing code)
  have hlive := removeOnce_removeDead code.simplify
  rw [removeOnce_eq_strip] at hlive
  have hdead : (round code).simplify.removeDead = (round code).simplify := by
    refine removeDead_of_removeOnce ?_
    rw [removeOnce_eq_strip]
    exact hsettled.strip_walk hsettled.below_atAllLabels hlive
  exact ⟨hdead, hsettled.walk_walk, hdead⟩

lemma optimizeWithin_of_fixed {code : Code} {n rounds : Nat} (h : round (round^[n] code) = round^[n] code)
    (hn : n < rounds) : code.optimizeWithin rounds = round^[n] code := by
  induction n generalizing code rounds with
  | zero =>
    obtain ⟨rounds, rfl⟩ := Nat.exists_eq_succ_of_ne_zero (Nat.ne_of_gt hn)
    exact if_pos h
  | succ n ih =>
    obtain ⟨rounds, rfl⟩ := Nat.exists_eq_succ_of_ne_zero (Nat.ne_of_gt (Nat.zero_lt_of_lt hn))
    rw [optimizeWithin]
    split
    · rename_i heq
      exact (Function.iterate_fixed heq (n + 1)).symm
    · exact ih h (Nat.lt_of_succ_lt_succ hn)

end Code

/-- The third round changes nothing, neither its walk nor its removal of dead instructions, so that the result is that
of two rounds under every bound that lets the third one run, and a second optimization changes nothing. -/
theorem MachineFunction.optimize_converges (f : MachineFunction) :
    f.optimize.code = Code.round (Code.round f.code) ∧ f.optimize.code.simplify = f.optimize.code ∧
      f.optimize.code.removeDead = f.optimize.code ∧
      (∀ rounds, 2 < rounds → f.code.optimizeWithin rounds = f.optimize.code) ∧ f.optimize.optimize = f.optimize := by
  obtain ⟨htwo, hsimplify, hdead⟩ := Code.round_round f.code
  have hfixed : Code.round (Code.round (Code.round f.code)) = Code.round (Code.round f.code) := by
    rw [htwo, Code.round, hsimplify, hdead]
  have hwithin : ∀ rounds, 2 < rounds → f.code.optimizeWithin rounds = Code.round (Code.round f.code) :=
    fun _ h ↦ Code.optimizeWithin_of_fixed (n := 2) hfixed h
  have hopt : f.optimize.code = Code.round (Code.round f.code) := hwithin _ (by decide)
  refine ⟨hopt, by rw [hopt, htwo, hsimplify], by rw [hopt, htwo, hdead], fun rounds h ↦ hopt ▸ hwithin rounds h, ?_⟩
  have hagain : f.optimize.code.optimize = f.optimize.code :=
    Code.optimizeWithin_of_fixed (n := 0) (hopt ▸ hfixed) (by decide)
  exact congrArg (fun code ↦ { f with code }) hagain

end W16Compiler
