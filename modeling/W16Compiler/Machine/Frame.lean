import W16Compiler.Fault.Internal
import W16Compiler.Machine.Basic

/-!
# Frame layout

The slots that the code refers to stand one after another in the frame. The depth of the stack
pointer is followed along all paths, and every symbolic displacement becomes a number: a word of a
slot is at the slot's offset plus the depth, a parameter behind the frame and the return address. A
displacement too large for its field goes through `r6`.
-/

namespace W16Compiler.Frame

/-- The width of the immediate fields of additions, loads and stores. -/
def dispBits : Nat := 6

/-! ## Slots -/

def slotUse : Instr → Option SlotId
  | .addImm _ _ (.slot s _) | .load _ _ (.slot s _) | .store _ _ (.slot s _) => some s
  | _ => none

/-- The offsets of the used slots from `next` on, the first slot being number `index`, and the
offset behind them all. -/
def placeSlots (used : List SlotId) (index next : Nat) : List Slot → List (Option Nat) × Nat
  | [] => ([], next)
  | s :: rest =>
    if used.contains ⟨index⟩ then
      let (offsets, size) := placeSlots used (index + 1) (addWords next s.words) rest
      (some next :: offsets, size)
    else
      let (offsets, size) := placeSlots used (index + 1) next rest
      (none :: offsets, size)

/-! ## Depths -/

def labelPlaces (code : List Instr) : List (Label × Nat) :=
  (code.zipIdx.filterMap fun (i, n) ↦ i.definedLabel.map (·, n)).reverse

/-- What an instruction at place `n`, reached at depth `d`, leads to: the labels that it refers to,
then the next instruction. -/
def flowFrom (function : String) (frame : Nat) (places : List (Label × Nat)) (length n : Nat)
    (i : Instr) (d : Int) : Except InternalFault (List (Nat × Int)) := do
  let after := wrap32 (d + i.stackEffect frame)
  let jumpDepth := if i matches .loadLabel .. then d else after
  let refs ← i.labelRefs.mapM fun l ↦
    match places.lookup l with
    | some target => pure (target, jumpDepth)
    | none => throw (.undefinedLabelIn function l.text)
  return if i.fallsThrough && n + 1 < length then refs ++ [(n + 1, after)] else refs

/-- Takes the latest entry of the work list first. Each instruction adds to the list once, so the
steps are bounded by the number of instructions and references. -/
def walk (function : String) (frame : Nat) (places : List (Label × Nat)) (code : Array Instr) :
    Nat → List (Nat × Int) → Array (Option Int) → Except InternalFault (Array (Option Int))
  | 0, _, depths => .ok depths
  | _, [], depths => .ok depths
  | fuel + 1, (n, d) :: work, depths =>
    match code[n]?, (depths[n]?).join with
    | none, _ => walk function frame places code fuel work depths
    | some _, some seen =>
      if seen = d then walk function frame places code fuel work depths
      else .error (.depthConflict function seen d)
    | some i, none => do
      let next ← flowFrom function frame places code.size n i d
      walk function frame places code fuel (next.reverse ++ work) (depths.setIfInBounds n (some d))

/-- How deep the stack is before each instruction that is reached. The function starts as much above
the level of its statements as the frame is large. -/
def depths (f : MachineFunction) : Except InternalFault (Array (Option Int)) :=
  let code := f.code.map (·.value)
  let fuel := 2 + total (code.map fun i ↦ i.labelRefs.length + 1)
  walk f.label f.frame (labelPlaces code) code.toArray fuel
    (if code.isEmpty then [] else [(0, wrap32 (-f.frame))]) (Array.replicate code.length none)

/-! ## Displacements -/

def resolveDisp (offsets : List (Option Nat)) (frame : Nat) (depth : Int) :
    Disp → Except InternalFault Disp
  | .num v => .ok (.num v)
  | .slot s o =>
    match (offsets[s.index]?).join with
    | some base => .ok (.num (wrap32 (base + o + depth)))
    | none => .error (.noFrameOffset s.index)
  | .param o => .ok (.num (wrap32 (frame + 1 + o + depth)))
  | .frame k => .ok (.num (wrap32 (k * frame)))

def resolveInstr (offsets : List (Option Nat)) (frame : Nat) (depth : Int) :
    Instr → Except InternalFault Instr
  | .addImm rd ra imm => do return .addImm rd ra (← resolveDisp offsets frame depth imm)
  | .load rd base disp => do return .load rd base (← resolveDisp offsets frame depth disp)
  | .store rs base disp => do return .store rs base (← resolveDisp offsets frame depth disp)
  | i => .ok i

def resolveAll (offsets : List (Option Nat)) (frame : Nat) :
    List (Item Instr × Option Int) → Option InternalFault × Code
  | [] => (none, [])
  | (i, depth) :: rest =>
    match resolveInstr offsets frame (depth.getD 0) i.value with
    | .ok instr =>
      let (fault, code) := resolveAll offsets frame rest
      (fault, { i with value := instr } :: code)
    | .error fault => (some fault, i :: rest.map (·.1))

/-- What stands for an instruction whose displacement may be too large; an addition of nothing to
the stack pointer goes away. -/
def expand : Instr → List Instr
  | .addImm rd ra (.num v) =>
    if rd = .sp && ra = .sp && v = 0 then []
    else if fitsSigned v dispBits then [.addImm rd ra (.num v)]
    else [.loadImm .r6 v, .alu .add rd ra .r6]
  | .load rd base (.num v) =>
    if fitsSigned v dispBits then [.load rd base (.num v)]
    else [.loadImm .r6 v, .alu .add .r6 base .r6, .load rd .r6 (.num 0)]
  | .store rs base (.num v) =>
    if fitsSigned v dispBits then [.store rs base (.num v)]
    else [.loadImm .r6 v, .alu .add .r6 base .r6, .store rs .r6 (.num 0)]
  | i => [i]

def expandAll (code : Code) : Code := code.flatMap fun i ↦ (expand i.value).map (⟨·, i.loc⟩)

end W16Compiler.Frame

namespace W16Compiler

/-- The function with its frame laid out and its displacements resolved. After a fault it is as far
as the layout came. -/
def MachineFunction.layout (f : MachineFunction) : Option InternalFault × MachineFunction :=
  let used := f.code.filterMap fun i ↦ Frame.slotUse i.value
  let (offsets, frame) := Frame.placeSlots used 0 0 f.slots.toList
  let f := { f with frame }
  match Frame.depths f with
  | .error fault => (some fault, f)
  | .ok depths =>
    match Frame.resolveAll offsets frame (f.code.zip depths.toList) with
    | (some fault, code) => (some fault, { f with code })
    | (none, code) => (none, { f with code := Frame.expandAll code })

end W16Compiler
