import W16Compiler.Location

/-!
# Linked lists with stable handles

The nodes of a list stand in a table and are linked in both directions, so that a handle stays valid
whatever is inserted or removed elsewhere. A removed node stays in the table, unlinked.
-/

namespace W16Compiler

/-- The place of a node. A list of fewer than two to the power of thirty-two nodes has one for each. -/
structure NodeId where
  index : Nat
  deriving DecidableEq, Inhabited, Repr

structure Arena.Node (α : Type) where
  value : α
  loc : Option Location
  prev : Option NodeId := none
  next : Option NodeId := none
  live : Bool := true
  deriving DecidableEq

structure Arena (α : Type) where
  nodes : Array (Arena.Node α) := #[]
  head : Option NodeId := none
  tail : Option NodeId := none
  length : Nat := 0

namespace Arena

variable {α : Type}

/-- How the links of a list can be broken. -/
inductive Fault where
  | dangling (id : NodeId)
  | removedLinked (id : NodeId)
  | backLink (id : NodeId)
  | cycle
  | staleTail
  | wrongLength (length count : Nat)
  deriving DecidableEq

def Fault.message : Fault → String
  | dangling id => s!"dangling node handle {id.index}"
  | removedLinked id => s!"removed node {id.index} still linked"
  | backLink id => s!"broken back link at node {id.index}"
  | cycle => "instruction list contains a cycle"
  | staleTail => "instruction list tail is stale"
  | wrongLength length count => s!"instruction list length {length} but {count} nodes linked"

def node? (a : Arena α) (id : NodeId) : Option (Node α) := a.nodes[id.index]?

def next (a : Arena α) (id : NodeId) : Option NodeId := (a.node? id).bind (·.next)

def prev (a : Arena α) (id : NodeId) : Option NodeId := (a.node? id).bind (·.prev)

def get? (a : Arena α) (id : NodeId) : Option α := (a.node? id).map (·.value)

def loc (a : Arena α) (id : NodeId) : Option Location := (a.node? id).bind (·.loc)

def contains (a : Arena α) (id : NodeId) : Bool := ((a.node? id).map (·.live)).getD false

def modify (a : Arena α) (id : NodeId) (f : Node α → Node α) : Arena α :=
  { a with nodes := a.nodes.modify id.index f }

/-- Makes `id` what comes after `before`, or the head if nothing stands before it. -/
def linkNext (a : Arena α) (before id : Option NodeId) : Arena α :=
  match before with
  | some p => a.modify p fun n ↦ { n with next := id }
  | none => { a with head := id }

/-- Makes `id` what comes before `after`, or the tail if nothing stands behind it. -/
def linkPrev (a : Arena α) (after id : Option NodeId) : Arena α :=
  match after with
  | some n => a.modify n fun m ↦ { m with prev := id }
  | none => { a with tail := id }

def insertBetween (a : Arena α) (before after : Option NodeId) (value : α) (loc : Option Location) :
    NodeId × Arena α :=
  let id : NodeId := ⟨a.nodes.size⟩
  let a := { a with nodes := a.nodes.push { value, loc, prev := before, next := after },
                    length := a.length + 1 }
  (id, (a.linkNext before (some id)).linkPrev after (some id))

def pushBack (a : Arena α) (value : α) (loc : Option Location) : NodeId × Arena α :=
  a.insertBetween a.tail none value loc

def insertBefore (a : Arena α) (id : NodeId) (value : α) (loc : Option Location) : NodeId × Arena α :=
  a.insertBetween (a.prev id) (some id) value (loc <|> a.loc id)

def insertAfter (a : Arena α) (id : NodeId) (value : α) : NodeId × Arena α :=
  a.insertBetween (some id) (a.next id) value (a.loc id)

def replace (a : Arena α) (id : NodeId) (value : α) : Option α × Arena α :=
  (a.get? id, a.modify id fun n ↦ { n with value })

def remove (a : Arena α) (id : NodeId) : Option NodeId × Arena α :=
  if !a.contains id then (a.next id, a)
  else
    let before := a.prev id
    let after := a.next id
    let a := a.modify id fun n ↦ { n with live := false }
    let a := (a.linkNext before after).linkPrev after before
    (after, { a with length := a.length - 1 })

/-- At most `fuel` handles along the links. -/
def follow (a : Arena α) : Nat → Option NodeId → List NodeId
  | 0, _ => []
  | _, none => []
  | fuel + 1, some id => id :: a.follow fuel (a.next id)

def ids (a : Arena α) : List NodeId := a.follow a.nodes.size a.head

/-- Walks along the links; `count` nodes have been seen, the last of them `before`. A walk over more
nodes than there are goes in a circle. -/
def verifyFrom (a : Arena α) (count : Nat) (before : Option NodeId) : Option NodeId → Option Fault
  | none =>
    if before ≠ a.tail then some .staleTail
    else if count ≠ a.length then some (.wrongLength a.length count)
    else none
  | some id =>
    match a.node? id with
    | none => some (.dangling id)
    | some n =>
      if !n.live then some (.removedLinked id)
      else if n.prev ≠ before then some (.backLink id)
      else if _h : count + 1 > a.nodes.size then some .cycle
      else a.verifyFrom (count + 1) (some id) n.next
termination_by a.nodes.size - count

def verify (a : Arena α) : Option Fault := a.verifyFrom 0 none a.head

end Arena

end W16Compiler
