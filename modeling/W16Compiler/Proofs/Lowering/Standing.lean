import W16Compiler.Proofs.Lowering.Logic

/-!
# Where a point of a flow list stands

A point of a flow list stands inside of try statements. Of each of them it is known whether its record is
on the chain of exception records and whether its cleanup has been run. Every node says where the points
that control gets to from it have to stand. If all nodes agree, where a point stands does not depend on the
way there.
-/

namespace W16Compiler

/-- Whether control goes on from a node to the next one and nowhere else. -/
def Prim.isSteady : Prim → Bool
  | .entry | .callStart _ | .cast .. | .unary .. | .binary .. | .assign .. => true
  | _ => false

lemma Prim.fallsThrough_of_isSteady {p : Prim} (h : p.isSteady) : p.fallsThrough := by
  cases p <;> first | rfl | cases h

lemma Prim.definedLabel_of_isSteady {p : Prim} (h : p.isSteady) : p.definedLabel = none := by
  cases p <;> first | rfl | cases h

namespace Lowering

/-- What has been done for a try statement around a point. -/
inductive Layer where
  | guarded (id : TryId)
  /-- Its record is off the chain, and its cleanup is still to be run. -/
  | due (id : TryId)
  /-- Its cleanup has been called and not been started. -/
  | entering (id : TryId)
  | cleaning (id : TryId)
  deriving DecidableEq

namespace Layer

def id : Layer → TryId
  | guarded id | due id | entering id | cleaning id => id

def isSettled : Layer → Bool
  | guarded _ | cleaning _ => true
  | due _ | entering _ => false

def isCleaning : Layer → Bool
  | cleaning _ => true
  | _ => false

def isOwing : Layer → Bool
  | cleaning _ => false
  | _ => true

end Layer

/-- The try statements around a point, the innermost first. -/
abbrev Standing := List Layer

namespace Standing

def Sheds (X Y : Standing) : Prop := ∃ e, X = e ++ Y ∧ ∀ x ∈ e, x.isCleaning

def Settled (X : Standing) : Prop := ∀ x ∈ X, x.isSettled

lemma Sheds.refl (X : Standing) : Sheds X X := ⟨[], rfl, fun _ hx ↦ (List.not_mem_nil hx).elim⟩

lemma Sheds.cons {X Y : Standing} {x : Layer} (h : Sheds X Y) (hx : x.isCleaning) : Sheds (x :: X) Y := by
  obtain ⟨e, rfl, he⟩ := h
  exact ⟨x :: e, rfl, List.forall_mem_cons.mpr ⟨hx, he⟩⟩

end Standing

/-! ## Notes -/

/-- A try that was begun: its slots, and what stands around it. -/
structure Started where
  record : SlotId
  cleanup : Option (Label × SlotId)
  outer : Standing
  path : Path
  scope : ScopeId

def Started.raised (t : Started) (id : TryId) : Standing :=
  if t.cleanup.isSome then .due id :: t.outer else t.outer

/-- What is known of labels, tries and slots while a body is lowered. -/
structure Notes where
  labels : Label → Option Standing
  tries : List (TryId × Started)
  /-- The slots below this one have been given out. -/
  slots : Nat

namespace Notes

instance : Preorder Notes where
  le g g' := (∀ l X, g.labels l = some X → g'.labels l = some X) ∧ g.tries ⊆ g'.tries ∧ g.slots ≤ g'.slots
  le_refl g := ⟨fun _ _ h ↦ h, fun _ h ↦ h, Nat.le_refl _⟩
  le_trans _ _ _ h h' := ⟨fun l X hl ↦ h'.1 l X (h.1 l X hl), fun _ hx ↦ h'.2.1 (h.2.1 hx), Nat.le_trans h.2.2 h'.2.2⟩

variable {g g' : Notes} {X Y Z : Standing} {l : Label} {p : Prim} {flow : Flow}

lemma labels_mono (hg : g ≤ g') (h : g.labels l = some X) : g'.labels l = some X := hg.1 l X h

lemma tries_mono (hg : g ≤ g') (h : x ∈ g.tries) : x ∈ g'.tries := hg.2.1 h

/-! ## Nodes -/

/-- A node may stand at a point, and another point behind it. -/
inductive Admits (g : Notes) : Standing → Prim → Standing → Prop where
  | steady {X : Standing} {p : Prim} (hp : p.isSteady) : Admits g X p X
  | call {X : Standing} {target : CallTarget} {n : Nat} {result : Option (Place × Rep)} (hX : X.Settled) :
    Admits g X (.call target n result) X
  | label {X : Standing} {l : Label} (hl : g.labels l = some X) : Admits g X (.label l) X
  | catchEntry {X : Standing} {l : Label} {dst : Option Place} (hl : g.labels l = some X) :
    Admits g X (.catchEntry l dst) X
  | compare {X Z : Standing} {cond : Cond} {rep : Rep} {lhs rhs : Operand} {l : Label}
    (hl : g.labels l = some Z) (hshed : X.Sheds Z) : Admits g X (.compare cond rep lhs rhs l) X
  | test {X Z : Standing} {nonzero : Bool} {rep : Rep} {value : Operand} {l : Label}
    (hl : g.labels l = some Z) (hshed : X.Sheds Z) : Admits g X (.test nonzero rep value l) X
  | jump {X Y Z : Standing} {l : Label} (hl : g.labels l = some Z) (hshed : X.Sheds Z) : Admits g X (.jump l) Y
  | throwValue {X Y : Standing} {value : Operand} (hX : X.Settled) : Admits g X (.throwValue value) Y
  | ret {X Y : Standing} {value : Option (Operand × Rep)} (hshed : X.Sheds []) : Admits g X (.ret value) Y
  /-- The handler of a statement with a cleanup is protected by the same record. -/
  | tryBegin {X : Standing} {id : TryId} {t : Started} {h : Label} (ht : (id, t) ∈ g.tries)
    (hX : X = t.outer ∨ X = t.raised id) (hh : g.labels h = some (t.raised id)) :
    Admits g X (.tryBegin t.record h) (.guarded id :: t.outer)
  | tryEnd {id : TryId} {t : Started} (ht : (id, t) ∈ g.tries) :
    Admits g (.guarded id :: t.outer) (.tryEnd t.record) (t.raised id)
  | cleanupCall {Y : Standing} {id : TryId} {t : Started} {start resume : Label} {link : SlotId}
    (ht : (id, t) ∈ g.tries) (hcleanup : t.cleanup = some (start, link))
    (hstart : g.labels start = some (.entering id :: t.outer)) (hresume : g.labels resume = some t.outer) :
    Admits g (.due id :: t.outer) (.cleanupCall start link resume) Y
  | cleanupEntry {id : TryId} {t : Started} {start : Label} {link : SlotId} (ht : (id, t) ∈ g.tries)
    (hcleanup : t.cleanup = some (start, link)) (hstart : g.labels start = some (.entering id :: t.outer)) :
    Admits g (.entering id :: t.outer) (.cleanupEntry start link) (.cleaning id :: t.outer)
  | cleanupReturn {Y : Standing} {id : TryId} {t : Started} {start : Label} {link : SlotId}
    {resumes : List Label} (ht : (id, t) ∈ g.tries) (hcleanup : t.cleanup = some (start, link)) :
    Admits g (.cleaning id :: t.outer) (.cleanupReturn link resumes) Y

lemma Admits.mono (hg : g ≤ g') (h : g.Admits X p Y) : g'.Admits X p Y := by
  cases h with
  | steady hp => exact .steady hp
  | call hX => exact .call hX
  | label hl => exact .label (labels_mono hg hl)
  | catchEntry hl => exact .catchEntry (labels_mono hg hl)
  | compare hl hshed => exact .compare (labels_mono hg hl) hshed
  | test hl hshed => exact .test (labels_mono hg hl) hshed
  | jump hl hshed => exact .jump (labels_mono hg hl) hshed
  | throwValue hX => exact .throwValue hX
  | ret hshed => exact .ret hshed
  | tryBegin ht hX hh => exact .tryBegin (tries_mono hg ht) hX (labels_mono hg hh)
  | tryEnd ht => exact .tryEnd (tries_mono hg ht)
  | cleanupCall ht hcleanup hstart hresume =>
    exact .cleanupCall (tries_mono hg ht) hcleanup (labels_mono hg hstart) (labels_mono hg hresume)
  | cleanupEntry ht hcleanup hstart => exact .cleanupEntry (tries_mono hg ht) hcleanup (labels_mono hg hstart)
  | cleanupReturn ht hcleanup => exact .cleanupReturn (tries_mono hg ht) hcleanup

lemma Admits.of_not_fallsThrough (h : g.Admits X p Y) (hp : p.fallsThrough = false) : g.Admits X p Z := by
  cases h with
  | steady hsteady => rw [Prim.fallsThrough_of_isSteady hsteady] at hp; cases hp
  | jump hl hshed => exact .jump hl hshed
  | throwValue hX => exact .throwValue hX
  | ret hshed => exact .ret hshed
  | cleanupCall ht hcleanup hstart hresume => exact .cleanupCall ht hcleanup hstart hresume
  | cleanupReturn ht hcleanup => exact .cleanupReturn ht hcleanup
  | _ => cases hp

lemma Admits.labels_of_definedLabel (h : g.Admits X p Y) (hp : p.definedLabel = some l) : g.labels l = some X := by
  cases h with
  | steady hsteady => rw [Prim.definedLabel_of_isSteady hsteady] at hp; cases hp
  | label hl | catchEntry hl => cases hp; exact hl
  | cleanupEntry ht hcleanup hstart => cases hp; exact hstart
  | _ => cases hp

/-- Every node of a flow list may stand where the one before it leads. -/
inductive Leads (g : Notes) : Standing → Flow → Standing → Prop where
  | nil {X : Standing} : Leads g X [] X
  | cons {X Y Z : Standing} {p : Item Prim} {rest : Flow} (hp : g.Admits X p.value Y) (hrest : Leads g Y rest Z) :
    Leads g X (p :: rest) Z

lemma Leads.mono (hg : g ≤ g') (h : g.Leads X flow Y) : g'.Leads X flow Y := by
  induction h with
  | nil => exact .nil
  | cons hp _ ih => exact .cons (hp.mono hg) ih

lemma Leads.append (h : g.Leads X flow Y) (h' : g.Leads Y flow' Z) : g.Leads X (flow ++ flow') Z := by
  induction h with
  | nil => exact h'
  | cons hp _ ih => exact .cons hp (ih h')

lemma Leads.map (hf : ∀ p, f p = p ∨ ∃ link resumes resumes', p.value = .cleanupReturn link resumes ∧
      (f p).value = .cleanupReturn link resumes') (h : g.Leads X flow Y) : g.Leads X (flow.map f) Y := by
  induction h with
  | nil => exact .nil
  | @cons _ _ _ p _ hp _ ih =>
    rw [List.map_cons]
    rcases hf p with heq | ⟨link, resumes, resumes', hvalue, heq⟩
    · rw [heq]
      exact .cons hp ih
    · refine .cons ?_ ih
      rw [heq]
      rw [hvalue] at hp
      cases hp with
      | steady hsteady => cases hsteady
      | cleanupReturn ht hcleanup => exact .cleanupReturn ht hcleanup

end Notes

end Lowering

end W16Compiler
