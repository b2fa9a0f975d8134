import W16Compiler.Proofs.Frame.Resolution
import W16Compiler.Proofs.Lowering.Lifetime

/-!
# Layout of lowered functions

Layout gives every slot that is used its words in the frame, and resolves every access of a function on
every path to the word that it stands for.
-/

namespace W16Compiler

open W16Compiler.Frame

namespace Frame

lemma LaidAt.piece (h : LaidAt offsets frame ds whole) (hi : i ∈ whole) :
    ∃ d j, resolveInstr offsets frame d i.instr = .ok j ∧ i.code = expand j := by
  obtain ⟨k, hk⟩ := List.mem_iff_getElem?.mp hi
  obtain ⟨j, hj, hexpand⟩ := h.pieces k i hk
  exact ⟨_, j, hj, hexpand⟩

lemma levels_of_entry (hcalls : Flow.Calls none nodes) (h : Tagged (⟨.entry, loc⟩ :: nodes) tags) :
    Levels .outer tags ∧ Entered tags := by
  cases h with
  | cons hselect htags =>
    obtain ⟨hlevels, hentered⟩ := levels_of_calls hcalls htags
    cases hselect
    refine ⟨⟨.of_result rfl rfl, fun _ ↦ ⟨.frame, .enter, hlevels⟩⟩, ?_⟩
    exact entered_append (by simp [Instr.definedLabel]) hentered

lemma placed_iff_used {g g' : MachineFunction}
    {laid : List Laid} (hrows : Rows (g.code.filterMap fun i ↦ slotUse i.value) 0 0 g.slots.toList offsets g'.frame)
    (hlaid : LaidAt offsets g'.frame ds laid) (hinstrs : laid.map (·.instr) = g.code.map (·.value)) (s : SlotId) :
    (∃ w, offsetIn offsets s = some w) ↔ ∃ i ∈ g.code, slotUse i.value = some s := by
  constructor
  · rintro ⟨w, hw⟩
    have hplaced := (hrows.placed_iff s.index).mp ⟨w, offsetIn_eq_some.mp hw⟩
    rw [zero_add] at hplaced
    obtain ⟨i, hi, hused⟩ := List.mem_filterMap.mp hplaced.2
    exact ⟨i, hi, hused⟩
  · rintro ⟨i, hi, hused⟩
    have hmem : i.value ∈ laid.map (·.instr) := hinstrs ▸ List.mem_map_of_mem hi
    obtain ⟨piece, hpiece, hvalue⟩ := List.mem_map.mp hmem
    obtain ⟨d, j, hj, -⟩ := hlaid.piece hpiece
    rw [hvalue] at hj
    cases hi : i.value with
    | addImm rd base d | load rd base d | store rd base d =>
      rw [hi] at hused hj
      cases d with
      | slot s' o =>
        cases hused
        exact placed_of_resolveInstr hj rfl
      | _ => cases hused
    | _ =>
      rw [hi] at hused
      cases hused

end Frame

/-- In a lowered function every access to the frame, to the incoming arguments and to those of a call
goes to the right word on every path, and the function returns with the stack pointer that it was
entered with. -/
theorem PrimFunction.IsLowered.layout_resolves {n : Names} {f : PrimFunction} {g g' : MachineFunction}
    (hf : f.IsLowered n) (hg : f.select = .ok g) (hwords : total (g.slots.toList.map (·.words)) < twoTo 31)
    (hlayout : g.layout = (none, g')) :
    ∃ (offset : SlotId → Option Nat) (laid : List Laid),
      Tiles g.slots offset g'.frame ∧ (∀ s, (∃ w, offset s = some w) ↔ ∃ i ∈ g.code, slotUse i.value = some s) ∧
      Tagged f.prims (laid.map Laid.tag) ∧ laid.map (·.instr) = g.code.map (·.value) ∧
      laid.flatMap (·.code) = g'.code.map (·.value) ∧
      ∀ (E : Surroundings) (start : MachineState),
        (∀ rest v, Visits E laid start rest v → ∃ behind : Code, rest.flatMap (·.code) = behind.map (·.value) ∧
          (g'.code.process E fun _ ↦ true).Reaches ⟨.running (g'.code, start), []⟩
            ⟨.running (behind, v.state), v.past⟩) ∧
        ∀ i rest v, Visits E laid start (i :: rest) v → Resolved E offset g'.frame start.sp i v := by
  obtain ⟨loc, nodes, hprims, hcalls⟩ := hf.calls
  obtain ⟨tags, htagged, htags⟩ := exists_tagged (f.selected_of_select hg)
  obtain ⟨offsets, ds, laid, hplace, hmap, hcode, hlaid⟩ := exists_laidAt hlayout htagged htags
  have hrows := rows_placeSlots (g.code.filterMap fun i ↦ slotUse i.value) 0 0 g.slots.toList (by
    have : twoTo 31 ≤ twoTo 32 := by decide
    omega)
  rw [hplace] at hrows
  have hinstrs : laid.map (·.instr) = g.code.map (·.value) := by
    rw [← htags, ← hmap, List.map_map]
    rfl
  have hlevels : Levels .outer (laid.map Laid.tag) ∧ Entered (laid.map Laid.tag) := by
    rw [hmap]
    rw [hprims] at htagged
    exact levels_of_entry hcalls htagged
  refine ⟨offsetIn offsets, laid, hrows.tiles, placed_iff_used hrows hlaid hinstrs, hmap ▸ htagged, hinstrs,
    hcode, fun E start ↦ ⟨fun rest v hv ↦ ?_, fun i rest v hv ↦ ?_⟩⟩
  · exact hv.reaches (fun i hi ↦ hlaid.piece hi) hcode
  · exact hv.resolved hlaid hlevels.1 hlevels.2

namespace Frame.Example

def guarded : FunctionDef where
  decl := ⟨0⟩
  label := "f"
  exported := true
  result := .void
  params := []
  hiddenResult := false
  body :=
    let i : StmtInfo := ⟨.global, .builtin⟩
    let e : ExprInfo := ⟨.int, .builtin⟩
    let x : Expr := .var e ⟨0⟩
    let g (arg : Expr) : Expr := .call e (.direct "g") [arg]
    .block i [
      .localVar i ⟨0⟩ .uninitialized,
      .tryStmt i ⟨0⟩ (.expr i (.assign e x (g (.int e 7)))) none (some (.expr i (g x)))]
  paramScope := .global
  tries := [true]
  cases := 0
  loc := .builtin

def names : Names where
  types := .initial
  symbols := { decls := #[⟨"x", .variable .int .none .stack, .global, .builtin⟩] }

def Frames (d : FunctionDef) (size : Nat) : Prop :=
  ∃ f next g g', d.lower names 0 = .ok (f, next) ∧ f.select = .ok g ∧
    total (g.slots.toList.map (·.words)) < twoTo 31 ∧ g.layout = (none, g') ∧ g'.frame = size

lemma frames_iff {d : FunctionDef} {size : Nat} : Frames d size ↔ (match d.lower names 0 with
      | .error _ => false
      | .ok (f, _) => match f.select with
        | .error _ => false
        | .ok g => decide (total (g.slots.toList.map (·.words)) < twoTo 31) && g.layout.1.isNone &&
          g.layout.2.frame == size) = true := by
  constructor
  · rintro ⟨f, next, g, _, hlower, hselect, hwords, hlayout, hsize⟩
    simp [hlower, hselect, hwords, hlayout, hsize]
  · intro h
    split at h
    next => cases h
    next f next hlower =>
      split at h
      next => cases h
      next g hselect =>
        simp only [Bool.and_eq_true, decide_eq_true_eq, Option.isNone_iff_eq_none, beq_iff_eq] at h
        exact ⟨f, next, g, g.layout.2, hlower, hselect, h.1.1, Prod.ext h.1.2 rfl, h.2⟩

instance : Decidable (Frames d size) := decidable_of_iff _ frames_iff.symm

/-- The frame holds the variable, the exception record, the link of the cleanup and three temporaries. -/
theorem layout_resolves_guarded :
    ∃ (f : PrimFunction) (g g' : MachineFunction), f.IsLowered names ∧ f.select = .ok g ∧ g.layout = (none, g') ∧
      ∃ (offset : SlotId → Option Nat) (laid : List Laid),
        Tiles g.slots offset 8 ∧ laid.flatMap (·.code) = g'.code.map (·.value) ∧
        ∀ E start i rest v, Visits E laid start (i :: rest) v → Resolved E offset 8 start.sp i v := by
  have hframes : Frames guarded 8 := by decide +kernel
  obtain ⟨f, next, g, g', hlower, hselect, hwords, hlayout, hsize⟩ := hframes
  have hlowered : f.IsLowered names := .function guarded 0 next hlower
  obtain ⟨offset, laid, htiles, -, -, -, hcode, hpaths⟩ := hlowered.layout_resolves hselect hwords hlayout
  rw [hsize] at htiles hpaths
  exact ⟨f, g, g', hlowered, hselect, hlayout, offset, laid, htiles, hcode, fun E start ↦ (hpaths E start).2⟩

end Frame.Example

end W16Compiler
