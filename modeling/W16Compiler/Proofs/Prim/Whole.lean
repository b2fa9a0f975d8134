import W16Compiler.Proofs.Prim.Optimize

/-!
# The result of optimization

A pass leaves a flow list as it is or makes it lighter. A round that makes it no lighter has therefore
changed nothing, pass by pass, and there the repetition stops. Labels that are defined once are renamed to
labels that stay, so that looking up new names comes to an end.

The passes take nodes away, move references from one node to another or give labels new names. A flow list in
which everything that is referred to is defined, once, stays one, and cleanups go on listing the labels at which
their calls resume.
-/

namespace W16Compiler

open List Prim

namespace Flow

variable {isTemp : SlotId → Bool} {flow flow' rest rest' : Flow}

/-- The passes of a round in their order. -/
def passes (isTemp : SlotId → Bool) : List (Flow → Flow) :=
  [mergeLabels, removeUnusedLabels, removeDeadTemps isTemp, forwardTemps isTemp, invertBranches, removeUnreachable,
    removeJumpsToNext]

/-- Every chain of new names for the labels that merging drops comes to an end. -/
def NamesEnd (flow : Flow) : Prop :=
  ∀ l, (dropRepeatedLabels none [] flow).2.lookup
    (resolve (dropRepeatedLabels none [] flow).2 (dropRepeatedLabels none [] flow).2.length l) = none

/-! ## One pass -/

def Lightens (flow' flow : Flow) : Prop := flow' = flow ∨ flow'.weight < flow.weight

lemma Lightens.le (h : Lightens flow' flow) : flow'.weight ≤ flow.weight := by
  rcases h with rfl | h
  · exact le_rfl
  · exact h.le

lemma weight_cons (p : Item Prim) (rest : Flow) :
    weight (p :: rest) = rest.weight + 1 + (p.value.isCall && p.value.dst.isSome).toNat := by
  simp only [weight, length_cons, countP_cons]
  cases p.value.isCall && p.value.dst.isSome <;> simp <;> omega

lemma Lightens.cons (h : Lightens rest' rest) (p : Item Prim) : Lightens (p :: rest') (p :: rest) := by
  rcases h with rfl | h
  · exact .inl rfl
  · exact .inr (by rw [weight_cons, weight_cons]; omega)

lemma Lightens.of_sublist (h : Sublist flow' flow) : Lightens flow' flow := by
  rcases h.length_le.eq_or_lt with heq | hlt
  · exact .inl (h.eq_of_length heq)
  · have hcalls := h.countP_le (p := fun p ↦ p.value.isCall && p.value.dst.isSome)
    exact .inr (by simp only [weight]; omega)

lemma lightens_mergeLabels (flow : Flow) : Lightens flow.mergeLabels flow := by
  have hsub := keptFrom_sublist none flow
  have hweight : (mergedFlow flow).weight = (keptFrom none flow).weight := by
    simp only [mergedFlow, weight, length_map, countP_map]
    congr 2
    funext p
    cases hp : p.value <;>
      simp [mergedNode, hp, mapTargets, dedupResumes, isCall, dst]
  simp only [mergeLabels, dropRepeatedLabels_eq, append_nil]
  split
  · exact .inl rfl
  · rename_i hne
    refine .inr (lt_of_eq_of_lt hweight ((Lightens.of_sublist hsub).resolve_left fun heq ↦ hne ?_))
    have hlen := (labels_perm none flow).length_eq
    rw [heq, length_append, length_map] at hlen
    simpa using hlen

lemma lightens_removeDeadTemps (isTemp : SlotId → Bool) (flow : Flow) :
    Lightens (flow.removeDeadTemps isTemp) flow := by
  change Lightens (keepLive isTemp flow.reads flow) flow
  generalize flow.reads = reads
  induction flow with
  | nil => exact .inl rfl
  | cons p rest ih =>
    rw [keepLive] at ih ⊢
    rcases liveNode_cases isTemp reads p with heq | ⟨s, offset, hd⟩
    · rw [filterMap_cons_some heq]
      exact ih.cons p
    · have hle := ih.le
      rcases hd.rest with ⟨-, heq⟩ | ⟨_, _, _, hv, heq⟩
      · rw [filterMap_cons_none heq]
        exact .inr (by rw [weight_cons]; omega)
      · have hdst := hd.dst
        rw [hv, dst] at hdst
        obtain ⟨r, rfl, -⟩ := Option.map_eq_some_iff.mp hdst
        rw [filterMap_cons_some heq]
        exact .inr (by simp [weight_cons, hv, isCall, dst]; omega)

lemma Fuses.lightens {g : Flow → Flow} (h : Fuses R g)
    (hR : ∀ p q p', R p q p' → (p'.value.isCall && p'.value.dst.isSome) = (p.value.isCall && p.value.dst.isSome))
    (flow : Flow) : Lightens (g flow) flow := by
  refine h.induction (M := fun flow flow' ↦ Lightens flow' flow) (.inl rfl) (fun p _ _ ih ↦ ih.cons p) ?_ flow
  intro p q p' _ _ hr ih
  have hle := ih.le
  exact .inr (by rw [weight_cons, weight_cons, weight_cons, hR p q p' hr]; omega)

lemma lightens_forwardTemps (isTemp : SlotId → Bool) (flow : Flow) : Lightens (flow.forwardTemps isTemp) flow := by
  refine (forwardFrom_fuses isTemp flow.reads flow.definitions).lightens ?_ flow
  rintro p q _ ⟨t, _, _, hfw, rfl⟩
  rw [hfw.dst_redirected, hfw.result]
  cases hp : p.value <;> simp [redirected, hp, withDst, isCall]

lemma lightens_invertBranches (flow : Flow) : Lightens flow.invertBranches flow := by
  refine invertBranches_fuses.lightens ?_ flow
  rintro p q _ ⟨_, _, -, rfl⟩
  cases hp : p.value <;> simp_all [opposite, isBranch, invert, mapTargets, isCall]

lemma lightens_of_mem_passes {pass : Flow → Flow} (h : pass ∈ passes isTemp) (flow : Flow) :
    Lightens (pass flow) flow := by
  simp only [passes, mem_cons, not_mem_nil, or_false] at h
  rcases h with rfl | rfl | rfl | rfl | rfl | rfl | rfl
  · exact lightens_mergeLabels flow
  · exact .of_sublist filter_sublist
  · exact lightens_removeDeadTemps isTemp flow
  · exact lightens_forwardTemps isTemp flow
  · exact lightens_invertBranches flow
  · exact .of_sublist (removeUnreachableFrom_sublist true flow)
  · exact .of_sublist (removeJumpsToNext_sublist flow)

/-! ## Rounds -/

lemma foldl_passes {ps : List (Flow → Flow)} (hps : ∀ pass ∈ ps, ∀ flow, Lightens (pass flow) flow) (flow : Flow) :
    (ps.foldl (fun flow pass ↦ pass flow) flow).weight ≤ flow.weight ∧
      (flow.weight ≤ (ps.foldl (fun flow pass ↦ pass flow) flow).weight →
        ps.foldl (fun flow pass ↦ pass flow) flow = flow ∧ ∀ pass ∈ ps, pass flow = flow) := by
  induction ps generalizing flow with
  | nil => simp
  | cons pass ps ih =>
    obtain ⟨hlight, hps⟩ := forall_mem_cons.mp hps
    obtain ⟨hle, hsame⟩ := ih hps (pass flow)
    refine ⟨hle.trans (hlight flow).le, fun hge ↦ ?_⟩
    have heq : pass flow = flow := (hlight flow).resolve_right (not_lt.mpr (hge.trans hle))
    rw [foldl_cons, heq] at hge ⊢
    rw [heq] at hsame
    exact ⟨(hsame hge).1, forall_mem_cons.mpr ⟨heq, (hsame hge).2⟩⟩

lemma pass_optimize (isTemp : SlotId → Bool) (flow : Flow) :
    ∀ pass ∈ passes isTemp, pass (flow.optimize isTemp) = flow.optimize isTemp := by
  fun_induction optimize isTemp flow with
  | case1 flow next hlt ih => exact ih
  | case2 flow next hlt =>
    obtain ⟨heq, hpasses⟩ := (foldl_passes (fun _ ↦ lightens_of_mem_passes) flow).2 (not_lt.mp hlt)
    rw [show next = flow from heq]
    exact hpasses

lemma optimize_optimize (isTemp : SlotId → Bool) (flow : Flow) :
    (flow.optimize isTemp).optimize isTemp = flow.optimize isTemp := by
  have hfixed := pass_optimize isTemp flow
  have hround : (flow.optimize isTemp).round isTemp = flow.optimize isTemp :=
    foldlRecOn (passes isTemp) (fun flow pass ↦ pass flow) (motive := (· = flow.optimize isTemp)) rfl
      fun _ h pass hpass ↦ h ▸ hfixed pass hpass
  rw [optimize, hround]
  simp

lemma exists_iterate (isTemp : SlotId → Bool) (flow : Flow) :
    ∃ n ≤ flow.weight, flow.optimize isTemp = (round isTemp)^[n] flow := by
  fun_induction optimize isTemp flow with
  | case1 flow next hlt ih =>
    obtain ⟨n, _, heq⟩ := ih
    exact ⟨n + 1, by omega, heq⟩
  | case2 flow next hlt =>
    exact ⟨0, Nat.zero_le _, ((foldl_passes (fun _ ↦ lightens_of_mem_passes) flow).2 (not_lt.mp hlt)).1⟩

lemma namesEnd (hn : flow.labels.Nodup) : flow.NamesEnd := by
  intro l
  rw [dropRepeatedLabels_eq, append_nil]
  change lookup (mergedName flow l) _ = none
  by_cases h : ∃ first, (l, first) ∈ droppedFrom none flow
  · obtain ⟨_, h⟩ := h
    rw [mergedName_of_dropped hn h]
    exact lookup_of_kept hn ((mem_labels_of_droppedFrom h).resolve_left nofun)
  · have hnone := lookup_of_forall (not_exists.mp h)
    rwa [mergedName, resolve_of_lookup hnone]

lemma namesEnd_iterate (hn : flow.labels.Nodup) (n : Nat) : NamesEnd ((round isTemp)^[n] flow) := by
  induction n generalizing flow with
  | zero => exact namesEnd hn
  | succ n ih => exact ih (hn.sublist (round_within isTemp flow).labels)

end Flow

/-- The repetition of rounds ends: a pass that changes anything makes the flow list lighter, and names are
looked up in chains that end. Where it ends no pass changes anything, so that a second optimization does not
either. -/
theorem PrimFunction.optimize_settles (f : PrimFunction) (level : Nat) (hn : (Flow.labels f.prims).Nodup) :
    (∀ pass ∈ Flow.passes f.isTemp, ∀ flow : Flow, pass flow ≠ flow → (pass flow).weight < flow.weight) ∧
      (∀ n, Flow.NamesEnd ((Flow.round f.isTemp)^[n] f.prims)) ∧
      (∃ n ≤ Flow.weight f.prims, (f.optimize level).prims = (Flow.round f.isTemp)^[n] f.prims) ∧
      (level ≠ 0 → ∀ pass ∈ Flow.passes f.isTemp, pass (f.optimize level).prims = (f.optimize level).prims) ∧
      (f.optimize level).optimize level = f.optimize level := by
  refine ⟨fun pass hpass flow hne ↦ (Flow.lightens_of_mem_passes hpass flow).resolve_left hne,
    Flow.namesEnd_iterate hn, ?_⟩
  by_cases hlevel : level = 0
  · simp only [hlevel, PrimFunction.optimize]
    exact ⟨⟨0, Nat.zero_le _, rfl⟩, by simp⟩
  · have heq : ∀ g : PrimFunction, g.optimize level = { g with prims := Flow.optimize g.isTemp g.prims } :=
      fun g ↦ if_neg (by simpa using hlevel)
    rw [heq, heq]
    refine ⟨Flow.exists_iterate _ _, fun _ ↦ Flow.pass_optimize _ _, ?_⟩
    exact congrArg (fun prims ↦ { f with prims }) (Flow.optimize_optimize f.isTemp f.prims)

theorem PrimFunction.optimize_settles_function :
    (Flow.labels Example.function.prims).Nodup ∧
      (Example.function.optimize 1).optimize 1 = Example.function.optimize 1 := by
  have hn : (Flow.labels Example.function.prims).Nodup := by decide
  exact ⟨hn, (PrimFunction.optimize_settles Example.function 1 hn).2.2.2.2⟩

def Prim.isCleanup : Prim → Bool
  | cleanupCall .. | cleanupReturn .. => true
  | _ => false

namespace Flow

variable {isTemp : SlotId → Bool} {flow flow' : Flow} {l : Label} {g : Flow → Flow}

def StartsEntry (flow : Flow) : Prop := ∃ p rest, flow = p :: rest ∧ p.value = .entry

/-- The list starts with the entry and defines every label that it refers to, none of them twice. -/
structure Whole (flow : Flow) : Prop where
  entry : flow.StartsEntry
  labels_nodup : flow.labels.Nodup
  defined : ∀ l ∈ flow.usedLabels, l ∈ flow.labels

/-- Every end of a cleanup lists the labels at which the calls on its link resume. -/
def ListsResumes (flow : Flow) : Prop :=
  ∀ p ∈ flow, ∀ q ∈ flow, ∀ start link resume resumes, p.value = .cleanupCall start link resume →
    q.value = .cleanupReturn link resumes → resume ∈ resumes

/-! ## Passes that keep the names of labels -/

/-- A flow list that refers to no more labels than another one, keeps those that it refers to and adds nothing to
cleanups. -/
structure Reduces (flow' flow : Flow) : Prop where
  entry : flow.StartsEntry → flow'.StartsEntry
  labels : flow'.labels.Sublist flow.labels
  defined : ∀ l ∈ flow.usedLabels, l ∈ flow.labels → l ∈ flow'.labels
  nodes : ∀ p ∈ flow', p ∈ flow ∨ (p.value.isCleanup = false ∧ ∀ l ∈ p.value.targets, l ∈ flow.usedLabels)

lemma mem_usedLabels : l ∈ flow.usedLabels ↔ ∃ p ∈ flow, l ∈ p.value.targets := mem_flatMap

lemma Reduces.whole (h : Reduces flow' flow) (hw : flow.Whole) : flow'.Whole where
  entry := h.entry hw.entry
  labels_nodup := hw.labels_nodup.sublist h.labels
  defined l hl := by
    obtain ⟨p, hp, hl⟩ := mem_usedLabels.mp hl
    have hused : l ∈ flow.usedLabels := by
      rcases h.nodes p hp with hp | ⟨-, ht⟩
      · exact mem_usedLabels.mpr ⟨p, hp, hl⟩
      · exact ht l hl
    exact h.defined l hused (hw.defined l hused)

lemma Reduces.listsResumes (h : Reduces flow' flow) (hr : flow.ListsResumes) : flow'.ListsResumes := by
  have hmem : ∀ p ∈ flow', p.value.isCleanup → p ∈ flow := fun p hp hc ↦
    (h.nodes p hp).resolve_right fun hno ↦ by simp [hno.1] at hc
  intro p hp q hq start link resume resumes hcall hret
  exact hr p (hmem p hp (by simp [hcall, isCleanup])) q (hmem q hq (by simp [hret, isCleanup])) start link
    resume resumes hcall hret

lemma mem_labels_of_seek (h : flow'.seek l = (flow.seek l).map g) (hl : l ∈ flow.labels) : l ∈ flow'.labels := by
  by_contra hno
  rw [seek_eq_none_iff.mpr hno, eq_comm, Option.map_eq_none_iff, seek_eq_none_iff] at h
  exact h hl

lemma Reduces.of_sublist (h : Sublist flow' flow) (hentry : flow.StartsEntry → flow'.StartsEntry)
    (hdefined : ∀ l ∈ flow.usedLabels, l ∈ flow.labels → l ∈ flow'.labels) : Reduces flow' flow :=
  ⟨hentry, h.filterMap _, hdefined, fun _ hp ↦ .inl (h.subset hp)⟩

lemma reduces_removeUnusedLabels (flow : Flow) : Reduces flow.removeUnusedLabels flow := by
  refine .of_sublist filter_sublist ?_ fun l hl ↦ mem_labels_of_seek (seek_keepUsed hl flow)
  rintro ⟨p, rest, rfl, hp⟩
  exact ⟨p, _, keepUsed_cons_of_none (by rw [hp]; rfl) rest, hp⟩

lemma reduces_removeDeadTemps (isTemp : SlotId → Bool) (flow : Flow) :
    Reduces (flow.removeDeadTemps isTemp) flow where
  entry := by
    rintro ⟨p, _, rfl, hp⟩
    exact ⟨p, _, filterMap_cons_some (f := liveNode isTemp _) (by simp [liveNode, hp, dst]), hp⟩
  labels := by rw [labels_removeDeadTemps]
  defined _ _ := by rw [labels_removeDeadTemps]; exact id
  nodes p' hp' := (mem_removeDeadTemps hp').imp_right fun ⟨p, _, _, _, _, _, hv⟩ ↦ by
    simp [hv, isCleanup, targets]

lemma Fuses.reduces (h : Fuses R g) (flow : Flow) (hR : ∀ p ∈ flow, ∀ q ∈ flow, ∀ p', R p q p' →
      p.value ≠ .entry ∧ p'.value.isCleanup = false ∧ ∀ l ∈ p'.value.targets, l ∈ flow.usedLabels) :
    Reduces (g flow) flow where
  entry := by
    rintro ⟨p, rest, rfl, hp⟩
    cases rest with
    | nil => exact ⟨p, [], h.single p, hp⟩
    | cons q rest =>
      rcases h.pair p q rest with ⟨p', hr, -⟩ | heq
      · exact absurd hp (hR p (by simp) q (by simp) p' hr).1
      · exact ⟨p, _, heq, hp⟩
  labels := by rw [h.labels]
  defined _ _ := by rw [h.labels]; exact id
  nodes p' hp' := (h.mem hp').imp_right fun ⟨p, hp, q, hq, hr⟩ ↦ (hR p hp q hq p' hr).2

lemma reduces_forwardTemps (isTemp : SlotId → Bool) (flow : Flow) : Reduces (flow.forwardTemps isTemp) flow := by
  refine (forwardFrom_fuses isTemp flow.reads flow.definitions).reduces flow ?_
  rintro p - q - _ ⟨t, _, _, hfw, rfl⟩
  have hp := hfw.produces
  cases hv : p.value <;>
    simp_all [redirected, withDst, isPure, isCall, isCleanup, targets]

lemma reduces_invertBranches (flow : Flow) : Reduces flow.invertBranches flow := by
  refine invertBranches_fuses.reduces flow ?_
  rintro p - q hq _ ⟨far, _, hj, rfl⟩
  have hfar : far ∈ flow.usedLabels := mem_usedLabels.mpr ⟨q, hq, by simp [hj, targets]⟩
  cases hv : p.value <;>
    simp_all [opposite, isBranch, invert, mapTargets, isCleanup, targets]

lemma reduces_removeUnreachable (flow : Flow) : Reduces flow.removeUnreachable flow := by
  refine .of_sublist (removeUnreachableFrom_sublist true flow) ?_ fun l _ ↦
    mem_labels_of_seek (seek_removeUnreachableFrom l true flow)
  rintro ⟨p, rest, rfl, hp⟩
  exact ⟨p, removeUnreachableFrom p.value.fallsThrough rest, rfl, hp⟩

lemma reduces_removeJumpsToNext (flow : Flow) : Reduces flow.removeJumpsToNext flow := by
  refine .of_sublist (removeJumpsToNext_sublist flow) ?_ fun l _ ↦ mem_labels_of_seek (seek_removeJumpsToNext l flow)
  rintro ⟨p, _, rfl, hp⟩
  exact ⟨p, _, removeJumpsToNext_cons (by simp [hp]), hp⟩

/-! ## New names -/

lemma mem_foldl_dedup (ls seen : List Label) :
    l ∈ ls.foldl (fun seen l ↦ if seen.contains l then seen else seen ++ [l]) seen ↔ l ∈ seen ∨ l ∈ ls := by
  induction ls generalizing seen with
  | nil => simp
  | cons m ls ih =>
    rw [foldl_cons, ih]
    split
    · grind
    · simp [or_assoc]

lemma mem_targets_mergedNode :
    l ∈ (mergedNode flow p).value.targets ↔ ∃ m ∈ p.value.targets, mergedName flow m = l := by
  cases hp : p.value with
  | cleanupReturn link resumes =>
    simp only [mergedNode, hp, mapTargets, dedupResumes, targets, mem_foldl_dedup, not_mem_nil, false_or, mem_map]
  | _ => simp [mergedNode, hp, mapTargets, dedupResumes, targets, eq_comm]

lemma mergedName_mem (hn : flow.labels.Nodup) (hl : l ∈ flow.labels) :
    mergedName flow l ∈ (keptFrom none flow).labels := by
  rcases mem_append.mp ((labels_perm none flow).mem_iff.mp hl) with hkept | hdropped
  · rwa [mergedName_of_kept hn hkept]
  · obtain ⟨⟨l, _⟩, hmem, rfl⟩ := mem_map.mp hdropped
    rw [mergedName_of_dropped hn hmem]
    exact (mem_labels_of_droppedFrom hmem).resolve_left nofun

lemma whole_mergeLabels (h : flow.Whole) : flow.mergeLabels.Whole := by
  rcases mergeLabels_eq flow with heq | heq
  · rwa [heq]
  · rw [heq]
    refine ⟨?_, labels_mergedFlow_nodup h.labels_nodup, fun l hl ↦ ?_⟩
    · obtain ⟨p, rest, rfl, hp⟩ := h.entry
      refine ⟨p, (keptFrom none rest).map (mergedNode (p :: rest)), ?_, hp⟩
      rw [mergedFlow, keptFrom_cons_other (by simp [hp]), map_cons]
      congr 1
      obtain ⟨_, _⟩ := p
      cases hp
      rfl
    · obtain ⟨_, hp', hl⟩ := mem_usedLabels.mp hl
      obtain ⟨p, hp, rfl⟩ := mem_map.mp hp'
      obtain ⟨m, hm, rfl⟩ := mem_targets_mergedNode.mp hl
      rw [labels_mergedFlow]
      exact mergedName_mem h.labels_nodup
        (h.defined m (mem_usedLabels.mpr ⟨p, (keptFrom_sublist none flow).subset hp, hm⟩))

lemma listsResumes_mergeLabels (h : flow.ListsResumes) : flow.mergeLabels.ListsResumes := by
  rcases mergeLabels_eq flow with heq | heq
  · rwa [heq]
  · rw [heq]
    intro p' hp' q' hq' _ _ _ _ hcall hret
    obtain ⟨p, hp, rfl⟩ := mem_map.mp hp'
    obtain ⟨q, hq, rfl⟩ := mem_map.mp hq'
    have hsub := (keptFrom_sublist none flow).subset
    cases hpv : p.value <;> simp only [mergedNode, hpv, mapTargets, dedupResumes, reduceCtorEq] at hcall
    cases hqv : q.value <;> simp only [mergedNode, hqv, mapTargets, dedupResumes, reduceCtorEq] at hret
    cases hcall
    cases hret
    exact (mem_foldl_dedup _ _).mpr (.inr (mem_map_of_mem (h p (hsub hp) q (hsub hq) _ _ _ _ hpv hqv)))

/-! ## All passes -/

lemma whole_of_mem_passes {pass : Flow → Flow} (h : pass ∈ passes isTemp) (flow : Flow) :
    (flow.Whole → (pass flow).Whole) ∧ (flow.ListsResumes → (pass flow).ListsResumes) := by
  have hreduces : ∀ {flow'}, Reduces flow' flow →
      (flow.Whole → flow'.Whole) ∧ (flow.ListsResumes → flow'.ListsResumes) :=
    fun hr ↦ ⟨hr.whole, hr.listsResumes⟩
  simp only [passes, mem_cons, not_mem_nil, or_false] at h
  rcases h with rfl | rfl | rfl | rfl | rfl | rfl | rfl
  · exact ⟨whole_mergeLabels, listsResumes_mergeLabels⟩
  · exact hreduces (reduces_removeUnusedLabels flow)
  · exact hreduces (reduces_removeDeadTemps isTemp flow)
  · exact hreduces (reduces_forwardTemps isTemp flow)
  · exact hreduces (reduces_invertBranches flow)
  · exact hreduces (reduces_removeUnreachable flow)
  · exact hreduces (reduces_removeJumpsToNext flow)

lemma optimize_keeps {P : Flow → Prop} (hP : ∀ pass ∈ passes isTemp, ∀ flow, P flow → P (pass flow)) (h : P flow) :
    P (flow.optimize isTemp) := by
  have hround : ∀ flow, P flow → P (flow.round isTemp) := fun flow h ↦
    foldlRecOn (passes isTemp) (fun flow pass ↦ pass flow) h fun flow h pass hpass ↦ hP pass hpass flow h
  obtain ⟨n, -, heq⟩ := exists_iterate isTemp flow
  rw [heq]
  exact Function.Iterate.rec P h hround n

end Flow

/-- Every pass and the whole optimization leave a flow list that starts with the entry and defines what it refers to,
once; and cleanups that list where their calls resume go on doing so. -/
theorem PrimFunction.whole_optimize (f : PrimFunction) (level : Nat) (h : Flow.Whole f.prims) :
    (∀ pass ∈ Flow.passes f.isTemp, (pass f.prims).Whole ∧
        (Flow.ListsResumes f.prims → (pass f.prims).ListsResumes)) ∧
      Flow.Whole (f.optimize level).prims ∧
      (Flow.ListsResumes f.prims → Flow.ListsResumes (f.optimize level).prims) := by
  refine ⟨fun pass hpass ↦ (Flow.whole_of_mem_passes hpass f.prims).imp (· h) id, ?_⟩
  rw [PrimFunction.optimize]
  split
  · exact ⟨h, id⟩
  · exact ⟨Flow.optimize_keeps (fun _ hpass flow ↦ (Flow.whole_of_mem_passes hpass flow).1) h,
      Flow.optimize_keeps fun _ hpass flow ↦ (Flow.whole_of_mem_passes hpass flow).2⟩

theorem PrimFunction.whole_optimize_function :
    Flow.Whole Example.function.prims ∧ Flow.Whole (Example.function.optimize 1).prims := by
  have h : Flow.Whole Example.function.prims := ⟨⟨_, _, rfl, rfl⟩, by decide, by decide⟩
  exact ⟨h, (PrimFunction.whole_optimize Example.function 1 h).2.1⟩

end W16Compiler
