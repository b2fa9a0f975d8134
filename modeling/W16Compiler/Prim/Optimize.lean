import W16Compiler.Prim.Basic

/-!
# Optimization of flow lists

Seven passes over the nodes of one function are repeated until none of them applies. A pass that
changes anything takes a node away, or the result of a call, so the nodes together with the calls
that keep a result become fewer in each round but the last.
-/

namespace W16Compiler

abbrev Flow := List (Item Prim)

namespace Flow

/-! ## Labels -/

/-- Drops the labels that directly follow another one, which is `before` if it stands just ahead;
also answers which label takes the place of each dropped one, the latest first. -/
def dropRepeatedLabels (before : Option Label) (renames : List (Label × Label)) :
    Flow → Flow × List (Label × Label)
  | [] => ([], renames)
  | p :: rest =>
    match p.value, before with
    | .label second, some first => dropRepeatedLabels before ((second, first) :: renames) rest
    | .label l, none =>
      let (flow, renames) := dropRepeatedLabels (some l) renames rest
      (p :: flow, renames)
    | _, _ =>
      let (flow, renames) := dropRepeatedLabels none renames rest
      (p :: flow, renames)

/-- The label that stands for `l` in the end; no chain of renamings is longer than their number. -/
def resolve (renames : List (Label × Label)) : Nat → Label → Label
  | 0, l => l
  | steps + 1, l =>
    match renames.lookup l with
    | some next => resolve renames steps next
    | none => l

/-- A cleanup that returns to one label by two names lists it once. -/
def dedupResumes : Prim → Prim
  | .cleanupReturn link resumes =>
    .cleanupReturn link (resumes.foldl (fun seen l ↦ if seen.contains l then seen else seen ++ [l]) [])
  | p => p

/-- Labels that stand side by side become the first of them. -/
def mergeLabels (flow : Flow) : Flow :=
  let (merged, renames) := dropRepeatedLabels none [] flow
  if renames.isEmpty then flow
  else
    merged.map fun p ↦
      { p with value := dedupResumes (p.value.mapTargets (resolve renames renames.length)) }

def usedLabels (flow : Flow) : List Label := flow.flatMap (·.value.targets)

def removeUnusedLabels (flow : Flow) : Flow :=
  let used := flow.usedLabels
  flow.filter fun p ↦
    match p.value.definedLabel with
    | some l => used.contains l
    | none => true

/-! ## Temporaries -/

def reads (flow : Flow) : List SlotId := flow.flatMap (·.value.readSlots)

def definitions (flow : Flow) : List SlotId := flow.filterMap fun p ↦ p.value.dst.bind (·.slot?)

/-- What is left of a node whose result nobody reads. -/
def withoutResult (p : Item Prim) : Option (Item Prim) :=
  match p.value with
  | .call target words _ => some { p with value := .call target words none }
  | v => if v.isPure then none else some p

def removeDeadTemps (isTemp : SlotId → Bool) (flow : Flow) : Flow :=
  let reads := flow.reads
  flow.filterMap fun p ↦
    match p.value.dst with
    | some (.slot s _) => if isTemp s && !reads.contains s then withoutResult p else some p
    | _ => some p

/-- The temporary that a node computes, and its representation, if the value is stored nowhere else
and read just once. -/
def producedOnce (isTemp : SlotId → Bool) (reads defs : List SlotId) (p : Prim) :
    Option (SlotId × Rep) :=
  if !(p.isPure || p.isCall) then none
  else
    match p.dst, p.dstRep with
    | some (.slot s 0), some rep =>
      if isTemp s && defs.count s == 1 && reads.count s == 1 then some (s, rep) else none
    | _, _ => none

def copyOf (temp : SlotId × Rep) : Prim → Option Place
  | .assign rep dst (.load src) =>
    if rep = temp.2 && src = .slot temp.1 0 then some dst else none
  | _ => none

def forwardFrom (isTemp : SlotId → Bool) (reads defs : List SlotId) : Flow → Flow
  | [] => []
  | [p] => [p]
  | p :: q :: rest =>
    match (producedOnce isTemp reads defs p.value).bind (copyOf · q.value) with
    | some dst => { p with value := p.value.withDst dst } :: forwardFrom isTemp reads defs rest
    | none => p :: forwardFrom isTemp reads defs (q :: rest)

/-- A computation into a temporary that the next node copies goes to the copy's place directly. -/
def forwardTemps (isTemp : SlotId → Bool) (flow : Flow) : Flow :=
  forwardFrom isTemp flow.reads flow.definitions flow

/-! ## Jumps -/

def startsWith (flow : Flow) (l : Label) : Bool := flow.head?.bind (·.value.definedLabel) == some l

/-- A branch over a jump becomes the opposite branch to the jump's target. -/
def invertBranches : Flow → Flow
  | [] => []
  | [p] => [p]
  | p :: q :: rest =>
    match p.value.isBranch, p.value.targets, q.value with
    | true, near :: _, .jump far =>
      if startsWith rest near then
        { p with value := p.value.invert.mapTargets fun _ ↦ far } :: invertBranches rest
      else p :: invertBranches (q :: rest)
    | _, _, _ => p :: invertBranches (q :: rest)

/-- Removes what stands between a node that control does not pass and the next label. -/
def removeUnreachableFrom (reachable : Bool) : Flow → Flow
  | [] => []
  | p :: rest =>
    if reachable || p.value.definedLabel.isSome then
      p :: removeUnreachableFrom p.value.fallsThrough rest
    else removeUnreachableFrom false rest

def removeUnreachable (flow : Flow) : Flow := removeUnreachableFrom true flow

def removeJumpsToNext : Flow → Flow
  | [] => []
  | p :: rest =>
    match p.value with
    | .jump l => if startsWith rest l then removeJumpsToNext rest else p :: removeJumpsToNext rest
    | _ => p :: removeJumpsToNext rest

/-! ## All passes -/

def round (isTemp : SlotId → Bool) (flow : Flow) : Flow :=
  let flow := mergeLabels flow
  let flow := removeUnusedLabels flow
  let flow := removeDeadTemps isTemp flow
  let flow := forwardTemps isTemp flow
  let flow := invertBranches flow
  let flow := removeUnreachable flow
  removeJumpsToNext flow

def weight (flow : Flow) : Nat :=
  flow.length + flow.countP fun p ↦ p.value.isCall && p.value.dst.isSome

/-- Repeats the round as long as it makes the flow lighter. -/
def optimize (isTemp : SlotId → Bool) (flow : Flow) : Flow :=
  let next := round isTemp flow
  if next.weight < flow.weight then optimize isTemp next else next
termination_by flow.weight

end Flow

def PrimFunction.optimize (f : PrimFunction) (level : Nat) : PrimFunction :=
  if level == 0 then f else { f with prims := Flow.optimize f.isTemp f.prims }

end W16Compiler
