import W16Compiler.Machine.Basic

/-!
# Liveness of registers

A register is live at a point if some path from there reads it before writing it. What is live at
each label is found by sweeps from the end of the code to its start, repeated until nothing is
added. Instructions that only compute a register that is not live afterwards are removed.
-/

namespace W16Compiler

abbrev LabelLive := List (Label × RegSet)

namespace Liveness

def atLabels (live : LabelLive) (ls : List Label) : RegSet :=
  ls.foldl (fun s l ↦ s.union ((live.lookup l).getD .empty)) .empty

def after (live : LabelLive) (next : RegSet) (i : Instr) : RegSet :=
  (if i.fallsThrough then next else .empty).union (atLabels live i.successors)

def before (out : RegSet) (i : Instr) : RegSet := i.reads.union (out.minus i.writes)

/-- What is live before and behind each instruction, as far as `live` is right for the labels. -/
def sweep (live : LabelLive) : Code → List (RegSet × RegSet)
  | [] => []
  | i :: rest =>
    let later := sweep live rest
    let out := after live ((later.head?.map (·.1)).getD .empty) i.value
    (before out i.value, out) :: later

def labelsOf (code : Code) (sets : List (RegSet × RegSet)) : LabelLive :=
  ((code.zip sets).filterMap fun (i, s) ↦ i.value.definedLabel.map (·, s.1)).reverse

/-- Every round but the last adds a register to the set of some label. -/
def iterate (code : Code) : Nat → LabelLive → LabelLive
  | 0, live => live
  | rounds + 1, live =>
    let next := labelsOf code (sweep live code)
    if next = live then live else iterate code rounds next

def atAllLabels (code : Code) : LabelLive :=
  let start := labelsOf code (code.map fun _ ↦ (.empty, .empty))
  iterate code (8 * start.length + 1) start

def liveOut (code : Code) : List RegSet := (sweep (atAllLabels code) code).map (·.2)

def isDead (i : Instr) (out : RegSet) : Bool := i.isRemovable && !i.writes.intersects out

def removeOnce (code : Code) : Code :=
  ((code.zip (liveOut code)).filter fun (i, out) ↦ !isDead i.value out).map (·.1)

end Liveness

def Code.removeDead (code : Code) : Code :=
  let next := Liveness.removeOnce code
  if next.length < code.length then removeDead next else code
termination_by code.length

end W16Compiler
