import W16Compiler.Proofs.Prim.Labels
import W16Compiler.Proofs.Prim.Temporaries
import Mathlib

/-!
# Optimization keeps the meaning of flow lists

Every pass behaves like the flow list it is given and leaves a well-formed one, hence so does a round
of all seven, and so does the repetition of rounds.
-/

namespace W16Compiler

open List Prim

namespace Flow

variable {V : Type} {W : World V} {isTemp : SlotId → Bool} {flow : Flow} {reads : List SlotId} {mem : Cell → V}
  {dst : Place} {t : SlotId} {rep : Rep}

/-! ## What the passes leave -/

lemma removeUnusedLabels_within (flow : Flow) : Within flow.removeUnusedLabels flow := .of_sublist filter_sublist

lemma removeUnreachableFrom_sublist (reachable : Bool) (flow : Flow) :
    Sublist (removeUnreachableFrom reachable flow) flow := by
  induction flow generalizing reachable with
  | nil => exact .slnil
  | cons p rest ih =>
    rw [removeUnreachableFrom]
    split
    · exact (ih _).cons_cons p
    · exact (ih _).cons p

lemma removeUnreachable_within (flow : Flow) : Within flow.removeUnreachable flow :=
  .of_sublist (removeUnreachableFrom_sublist true flow)

lemma removeJumpsToNext_sublist (flow : Flow) : Sublist flow.removeJumpsToNext flow := by
  induction flow with
  | nil => exact .slnil
  | cons p rest ih =>
    rw [removeJumpsToNext]
    split
    · split
      · exact ih.cons p
      · exact ih.cons_cons p
    · exact ih.cons_cons p

lemma removeJumpsToNext_within (flow : Flow) : Within flow.removeJumpsToNext flow :=
  .of_sublist (removeJumpsToNext_sublist flow)

lemma mergeLabels_within (flow : Flow) : Within flow.mergeLabels flow := by
  rcases mergeLabels_eq flow with h | h
  · rw [h]
    exact .of_sublist (Sublist.refl _)
  · rw [h]
    have hkept : Within (keptFrom none flow) flow := .of_sublist (keptFrom_sublist none flow)
    refine Within.trans (Within.of_map (definedLabel_mergedNode flow) (fun p ↦ ?_) fun p ↦ ?_) hkept
    · cases hp : p.value <;>
        simp [mergedNode, hp, mapTargets, dedupResumes, blockSlot?, dst, dstRep]
    · cases hp : p.value <;>
        simp [mergedNode, hp, mapTargets, dedupResumes, Prim.loaded, operands, dst]

lemma invertBranches_within (flow : Flow) : Within flow.invertBranches flow := by
  refine .of_nodes (by rw [invertBranches_fuses.labels]) fun p' hp' ↦ (invertBranches_fuses.mem hp').imp_right ?_
  rintro ⟨p, hp, q, -, _, _, -, rfl⟩
  refine ⟨fun s hs ↦ ?_, fun s hs ↦ mem_loaded.mpr ⟨p, hp, ?_⟩⟩ <;>
    cases hv : p.value <;> simp_all [isBranch, opposite, invert, mapTargets, blockSlot?,
      Prim.loaded, dst, operands]

lemma mem_removeDeadTemps (h : p' ∈ flow.removeDeadTemps isTemp) :
    p' ∈ flow ∨ ∃ p ∈ flow, ∃ target words result, p.value = .call target words result ∧
      p'.value = .call target words none := by
  obtain ⟨p, hp, hk⟩ := mem_filterMap.mp h
  rcases liveNode_cases isTemp flow.reads p with heq | ⟨s, offset, hd⟩
  · exact .inl (Option.some.inj (heq.symm.trans hk) ▸ hp)
  · rcases hd.rest with ⟨-, heq⟩ | ⟨target, words, result, hv, heq⟩
    · cases heq.symm.trans hk
    · exact .inr ⟨p, hp, target, words, result, hv, by rw [← Option.some.inj (heq.symm.trans hk)]⟩

lemma labels_removeDeadTemps (isTemp : SlotId → Bool) (flow : Flow) :
    (flow.removeDeadTemps isTemp).labels = flow.labels := by
  change (flow.filterMap (liveNode isTemp flow.reads)).filterMap _ = flow.filterMap _
  rw [filterMap_filterMap]
  refine filterMap_congr fun p _ ↦ ?_
  cases hk : liveNode isTemp flow.reads p with
  | some q => exact definedLabel_liveNode hk
  | none =>
    rcases liveNode_cases isTemp flow.reads p with heq | ⟨s, offset, hd⟩
    · cases heq.symm.trans hk
    · exact hd.definedLabel.symm

lemma removeDeadTemps_within (isTemp : SlotId → Bool) (flow : Flow) : Within (flow.removeDeadTemps isTemp) flow := by
  refine .of_nodes (by rw [labels_removeDeadTemps]) fun p' hp' ↦ (mem_removeDeadTemps hp').imp_right ?_
  rintro ⟨p, hp, target, _, _, _, hv'⟩
  refine ⟨fun s hs ↦ ?_, fun s hs ↦ mem_loaded.mpr ⟨p, hp, ?_⟩⟩
  · simp [blockSlot?, hv', dst] at hs
  · cases target <;> simp_all [Prim.loaded, operands, dst]

lemma Forwards.blockSlot?_redirected (h : Forwards isTemp reads p q t rep dst) :
    (redirected p dst).value.blockSlot? = q.value.blockSlot? := by
  rw [blockSlot?, blockSlot?, h.dst_redirected, h.dstRep_redirected, h.copies]
  rfl

lemma Forwards.loaded_redirected (h : Forwards isTemp reads p q t rep dst) :
    (redirected p dst).value.loaded ⊆ p.value.loaded ++ q.value.loaded := by
  intro s hs
  rw [Prim.loaded, operands_redirected, h.dst_redirected] at hs
  rcases mem_append.mp hs with hs | hs
  · exact mem_append_left _ (mem_append_left _ hs)
  · refine mem_append_right _ (mem_append_right _ ?_)
    rw [h.copies]
    exact hs

lemma forwardTemps_within (isTemp : SlotId → Bool) (flow : Flow) : Within (flow.forwardTemps isTemp) flow := by
  have hf := forwardFrom_fuses isTemp flow.reads flow.definitions
  refine .of_nodes (by rw [forwardTemps, hf.labels]) fun p' hp' ↦ (hf.mem hp').imp_right ?_
  rintro ⟨p, hp, q, hq, t, _, _, hfw, rfl⟩
  refine ⟨fun s hs ↦ mem_blockSlots.mpr ⟨q, hq, hfw.blockSlot?_redirected ▸ hs⟩, fun s hs ↦ ?_⟩
  rcases mem_append.mp (hfw.loaded_redirected hs) with hs | hs
  · exact mem_loaded.mpr ⟨p, hp, hs⟩
  · exact mem_loaded.mpr ⟨q, hq, hs⟩

/-! ## All passes -/

lemma round_within (isTemp : SlotId → Bool) (flow : Flow) : Within (flow.round isTemp) flow :=
  (removeJumpsToNext_within _).trans <| (removeUnreachable_within _).trans <|
    (invertBranches_within _).trans <| (forwardTemps_within isTemp _).trans <|
    (removeDeadTemps_within isTemp _).trans <| (removeUnusedLabels_within _).trans <|
    mergeLabels_within flow

lemma round_alike (P : Provenance W) (hf : P.Fresh mem) (sp : Word)
    (hh : ∀ s, isTemp s → W.hidden s) (h : flow.WellFormed) : Alike W mem sp flow (flow.round isTemp) := by
  have h1 := h.of_within (mergeLabels_within _)
  have h2 := h1.of_within (removeUnusedLabels_within _)
  have h3 := h2.of_within (removeDeadTemps_within isTemp _)
  have h4 := h3.of_within (forwardTemps_within isTemp _)
  have h5 := h4.of_within (invertBranches_within _)
  have h6 := h5.of_within (removeUnreachable_within _)
  exact (mergeLabels_alike P hf sp h.labels_nodup).trans <|
    (removeUnusedLabels_alike P hf sp _).trans <|
    (removeDeadTemps_alike P hf sp hh _).trans <|
    (forwardTemps_alike P hf sp hh h3).trans <|
    (invertBranches_alike P hf sp h4.labels_nodup).trans <|
    (removeUnreachable_alike P hf sp _).trans <|
    removeJumpsToNext_alike P hf sp h6.labels_nodup

lemma optimize_flow_alike (P : Provenance W) (hf : P.Fresh mem) (sp : Word)
    (hh : ∀ s, isTemp s → W.hidden s) (h : flow.WellFormed) : Alike W mem sp flow (flow.optimize isTemp) := by
  induction hk : flow.weight using Nat.strongRecOn generalizing flow with
  | ind k ih =>
    have hround := round_alike P hf sp hh h
    rw [optimize]
    split
    · rename_i hlt
      exact hround.trans (ih _ (hk ▸ hlt) (h.of_within (round_within isTemp flow)) rfl)
    · exact hround

end Flow

/-- The optimizer keeps the meaning of a function at every level: the same calls with the same arguments
and the same memory but for temporaries, and the same end, whatever the values are and however calls
are answered, as long as no pointer into a slot comes from nowhere. -/
theorem PrimFunction.optimize_alike {V : Type} {W : World V} (f : PrimFunction) (level : Nat)
    (hf : Flow.WellFormed f.prims) (hh : ∀ s, f.isTemp s → W.hidden s) (P : Provenance W) {mem : Cell → V}
    (hm : P.Fresh mem) (sp : Word) : Flow.Alike W mem sp f.prims (f.optimize level).prims := by
  rw [PrimFunction.optimize]
  split
  · exact Process.Alike.refl _ _
  · exact Flow.optimize_flow_alike P hm sp hh hf

/-! ## An example -/

namespace Example

inductive Value where
  | word (w : Word)
  | pointer (s : SlotId) (offset : Int)

def low : List Value → Word
  | .word w :: _ => w
  | _ => 0

def sum : List Value → List Value → Value
  | [.pointer s offset], [.word w] => .pointer s (offset + w.toInt)
  | vs, ws => .word (low vs + low ws)

/-- Sums of words and pointers; a call returns seven and changes nothing. -/
def world (hidden : SlotId → Bool) : World Value where
  constant := .word
  slotAddress := .pointer
  param := 0
  symbol _ := 0
  locate
    | .word w, offset => .outer (w + .ofInt 16 offset)
    | .pointer s base, offset => .slot s (base + offset)
  unary _ _ vs _ := .word (-low vs)
  binary _ _ vs ws _ := sum vs ws
  cast _ _ vs _ := .word (low vs)
  order _ vs ws := compare (low vs).toInt (low ws).toInt
  isZero _ vs := low vs == 0
  hidden
  answer _ := .returns (fun _ ↦ none) fun _ ↦ .word 7

def provenance (hidden : SlotId → Bool) : Provenance (world hidden) where
  into v s := ∃ offset, v = .pointer s offset
  constant _ _ := nofun
  slotAddress s offset t := by
    rintro ⟨offset', h⟩
    cases h
    rfl
  locate v offset s word h := by
    cases v with
    | word w => cases h
    | pointer t base =>
      cases h
      exact ⟨base, rfl⟩
  unary _ _ _ _ _ := nofun
  binary _ _ vs ws _ s := by
    rintro ⟨offset, h⟩
    simp only [world, sum] at h
    split at h
    · cases h
      exact ⟨_, List.mem_append_left _ List.mem_cons_self, _, rfl⟩
    · cases h
  cast _ _ _ _ _ := nofun
  answer _ v s h := by
    rintro ⟨offset, rfl⟩
    rcases h with ⟨c, h⟩ | ⟨i, h⟩ <;> cases h

def node (p : Prim) : Item Prim := { value := p }

/-- Passes the address of a variable to a function, keeps the answer in a temporary on its way to the
variable, and returns it if it is not zero. -/
def function : PrimFunction where
  label := "f"
  exported := true
  loc := default
  slots := #[⟨1, true⟩, ⟨1, false⟩, ⟨1, true⟩]
  prims := [
    node .entry,
    node (.callStart 1),
    node (.assign (.word false) (.arg 0) (.address (.slot ⟨1⟩) 0)),
    node (.call (.direct "g") 1 (some (.slot ⟨0⟩ 0, .word true))),
    node (.assign (.word true) (.slot ⟨1⟩ 0) (.load (.slot ⟨0⟩ 0))),
    node (.binary .add (.word true) (.slot ⟨2⟩ 0) (.load (.slot ⟨1⟩ 0)) (.imm 1)),
    node (.test true (.word true) (.load (.slot ⟨1⟩ 0)) ⟨1⟩),
    node (.jump ⟨2⟩),
    node (.label ⟨0⟩),
    node (.label ⟨1⟩),
    node (.ret (some (.load (.slot ⟨1⟩ 0), .word true))),
    node (.label ⟨2⟩),
    node (.ret none)]

end Example

theorem PrimFunction.optimize_alike_function :
    Flow.WellFormed Example.function.prims ∧ (Example.function.optimize 1).prims.length = 8 ∧
      Flow.Alike (Example.world Example.function.isTemp) (fun _ ↦ .word 0) 0 Example.function.prims
        (Example.function.optimize 1).prims := by
  have hf : Flow.WellFormed Example.function.prims := ⟨by decide, by decide⟩
  refine ⟨hf, by cbv, ?_⟩
  exact PrimFunction.optimize_alike Example.function 1 hf (fun _ h ↦ h) (Example.provenance _)
    (fun _ _ h ↦ by cases h.choose_spec) 0

end W16Compiler
