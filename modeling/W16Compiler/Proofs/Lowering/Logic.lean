import W16Compiler.Lowering.Control
import W16Compiler.Proofs.Faults
import W16Compiler.Proofs.Prim.Outgoing
import Mathlib.Data.Nat.Basic

/-!
# Following what is written

While a body is lowered, something is known of the nodes that have been written: where control is when
it gets behind them, and where it is at the labels. A regime says what is known, and it is lawful if
every way of writing a node keeps it up. Then all that is put together from such steps does, too.
-/

namespace W16Compiler.Lowering

open List

inductive Part where
  | body
  | handler
  | cleanup
  deriving DecidableEq

/-- The clauses of try statements around a point of a body, the innermost first. -/
abbrev Path := List (TryId × Part)

structure Regime where
  context : Context
  Notes : Type
  /-- Where the nodes that have been written lead. -/
  Point : Type
  order : Preorder Notes
  inside : Path → Point
  /-- The point inside of clauses where words are reserved for the arguments of a call. -/
  reserved : Path → Nat → Point
  Holds : Notes → Point → State → Prop
  /-- Control that goes to a label gets inside of these clauses. -/
  At : Notes → Path → Label → Prop
  /-- The try statements that have not been started yet. -/
  Fresh : Notes → List TryId → Prop

attribute [instance] Regime.order

variable {α β : Type} {node : Prim} {b : Bool} {a : α} {R : Regime} {C : Context} {c : Path} {ids todo : List TryId}
  {g g₀ : R.Notes} {x : LowerM α}

namespace Regime

/-- What is written leads from one point to another, while try statements may be started until so many
are left. -/
def Yields (R : Regime) (C : Context) (g : R.Notes) (p : R.Point) (todo : List TryId) (x : LowerM α)
    (p' : R.Point) (left : List TryId) (post : R.Notes → α → Prop) : Prop :=
  ∀ s a s', R.Fresh g todo → R.Holds g p s → x C s = .ok (a, s') →
    ∃ g', g ≤ g' ∧ R.Fresh g' left ∧ R.Holds g' p' s' ∧ post g' a

/-- The contexts of a body differ only in the loops around. -/
def Fits (R : Regime) (C : Context) : Prop := C = { R.context with breakables := C.breakables }

variable {p p1 p2 : R.Point} {mid left : List TryId} {post post1 : R.Notes → α → Prop}

namespace Yields

lemma pure (h : post g a) : R.Yields C g p todo (pure a) p todo post := by
  intro s b s' hfresh hs hx
  cases hx
  exact ⟨g, le_refl g, hfresh, hs, h⟩

lemma bind {f : α → LowerM β} {post : R.Notes → β → Prop} (hx : R.Yields C g p todo x p1 mid post1)
    (hf : ∀ g1 a, g ≤ g1 → post1 g1 a → R.Yields C g1 p1 mid (f a) p2 left post) :
    R.Yields C g p todo (x >>= f) p2 left post := by
  intro s b s' hfresh hs hrun
  obtain ⟨a, s1, hx1, hf1⟩ := bindState_eq_ok.mp (show (x C >>= fun a ↦ f a C) s = .ok (b, s') from hrun)
  obtain ⟨g1, hle1, hfresh1, hs1, hpost1⟩ := hx s a s1 hfresh hs hx1
  obtain ⟨g2, hle2, hrest⟩ := hf g1 a hle1 hpost1 s1 b s' hfresh1 hs1 hf1
  exact ⟨g2, le_trans hle1 hle2, hrest⟩

lemma mono (hx : R.Yields C g p todo x p1 left post1) (h : ∀ g' a, g ≤ g' → post1 g' a → post g' a) :
    R.Yields C g p todo x p1 left post := by
  intro s a s' hfresh hs hrun
  obtain ⟨g', hle, hfresh', hs', hpost⟩ := hx s a s' hfresh hs hrun
  exact ⟨g', hle, hfresh', hs', h g' a hle hpost⟩

lemma assuming (h : ∀ s, R.Fresh g todo → R.Holds g p s → R.Yields C g p todo x p1 left post) :
    R.Yields C g p todo x p1 left post :=
  fun s a s' hfresh hs hrun ↦ h s hfresh hs s a s' hfresh hs hrun

lemma conseq (hp : ∀ s, R.Holds g p s → R.Holds g q s)
    (hx : R.Yields C g q todo x q1 left post) (hq : ∀ g' s, g ≤ g' → R.Holds g' q1 s → R.Holds g' p1 s) :
    R.Yields C g p todo x p1 left post := by
  intro s a s' hfresh hs hrun
  obtain ⟨g', hle, hfresh', hs', hpost⟩ := hx s a s' hfresh (hp s hs) hrun
  exact ⟨g', hle, hfresh', hq g' s' hle hs', hpost⟩

lemma fail (f : InternalFault) : R.Yields C g p todo (fail f : LowerM α) p1 left post := by
  intro s a s' _ _ hrun
  cases hrun

lemma read {f : Context → LowerM α} (hf : R.Yields C g p todo (f C) p1 left post) :
    R.Yields C g p todo (read >>= f) p1 left post := hf

lemma get : R.Yields C g p todo get p todo fun _ _ ↦ True := by
  intro s a s' hfresh hs hx
  cases hx
  exact ⟨g, le_refl g, hfresh, hs, trivial⟩

lemma getBind {f : State → LowerM β} {post : R.Notes → β → Prop}
    (hf : ∀ s, R.Holds g p s → R.Yields C g p todo (f s) p1 left post) :
    R.Yields C g p todo (MonadState.get >>= f) p1 left post :=
  fun s b s' hfresh hs hrun ↦ hf s hs s b s' hfresh hs hrun

lemma map {f : α → β} {post : R.Notes → β → Prop} (hx : R.Yields C g p todo x p1 left fun g a ↦ post g (f a)) :
    R.Yields C g p todo (f <$> x) p1 left post := by
  rw [map_eq_pure_bind]
  exact hx.bind fun g1 a _ ha ↦ .pure ha

lemma ite {y : LowerM α} (hx : b = true → R.Yields C g p todo x p1 left post)
    (hy : b = false → R.Yields C g p todo y p1 left post) : R.Yields C g p todo (if b then x else y) p1 left post := by
  cases b with
  | true => exact hx rfl
  | false => exact hy rfl

lemma discard (hx : R.Yields C g p todo x p1 left post) : R.Yields C g p todo (discard x) p1 left fun _ _ ↦ True :=
  .map (hx.mono fun _ _ _ _ ↦ trivial)

end Yields

end Regime

/-! ## Code that is written -/

structure Discipline where
  label : String → Option (Path × ScopeId)
  marker : Nat → Option Path
  here : Path → Path → Prop
  direct : Path → Path → Prop
  direct_refl : ∀ c, direct c c
  here_refl : ∀ c, here c c
  /-- From where to where a jump may go that leaves try statements, and the scopes there. -/
  jump : Path → ScopeId → Path → ScopeId → Prop
  returns : Path → ScopeId → Prop
  tries : Path → ScopeId → TryId → Bool → Prop

namespace Regime

variable (R : Regime) (C : Context) (c : Path) (ids : List TryId) (g₀ : R.Notes)

/-- What is written for code inside of clauses stays there, and starts the given try statements. -/
def Runs (x : LowerM α) (post : R.Notes → α → Prop) : Prop :=
  ∀ g left, g₀ ≤ g → R.Yields C g (R.inside c) (ids ++ left) x (R.inside c) left post

end Regime

/-! ## Code in sequence -/

section

variable {ids' : List TryId} {g1 : R.Notes} {y : LowerM α} {f : α → LowerM β} {post1 : R.Notes → α → Prop} {post : R.Notes → β → Prop}

namespace Regime.Runs

lemma pure {b : β} (h : ∀ g, g₀ ≤ g → post g b) : R.Runs C c [] g₀ (pure b) post := fun g _ hg ↦ .pure (h g hg)

lemma later (hx : R.Runs C c ids g₀ x post1) (h : g₀ ≤ g1) : R.Runs C c ids g1 x post1 :=
  fun g left hg ↦ hx g left (le_trans h hg)

lemma both (hx : R.Runs C c ids g₀ x post1) (hf : ∀ g a, g₀ ≤ g → post1 g a → R.Runs C c ids' g (f a) post) :
    R.Runs C c (ids ++ ids') g₀ (x >>= f) post := by
  intro g left hg
  rw [append_assoc]
  exact (hx g (ids' ++ left) hg).bind fun g1 a hg1 ha ↦ hf g1 a (le_trans hg hg1) ha g1 left (le_refl g1)

lemma first (hx : R.Runs C c [] g₀ x post1) (hf : ∀ g a, g₀ ≤ g → post1 g a → R.Runs C c ids g (f a) post) :
    R.Runs C c ids g₀ (x >>= f) post :=
  both hx hf

lemma last (hx : R.Runs C c ids g₀ x post1) (hf : ∀ g a, g₀ ≤ g → post1 g a → R.Runs C c [] g (f a) post) :
    R.Runs C c ids g₀ (x >>= f) post :=
  append_nil ids ▸ both hx hf

lemma returning {Q : β → Prop} {b : β} (hx : R.Runs C c ids g₀ x post1) (h : Q b) :
    R.Runs C c ids g₀ (x >>= fun _ ↦ Pure.pure b) fun _ b ↦ Q b :=
  hx.last fun _ _ _ _ ↦ .pure fun _ _ ↦ h

lemma fail (e : InternalFault) : R.Runs C c ids g₀ (fail e : LowerM α) post1 := fun _ _ _ ↦ .fail e

lemma read {f : Context → LowerM β} (hf : R.Runs C c ids g₀ (f C) post) : R.Runs C c ids g₀ (read >>= f) post := hf

lemma get : R.Runs C c [] g₀ get fun _ _ ↦ True := fun _ _ _ ↦ .get

lemma repOf {type : TypeId} {f : Rep → LowerM β} (hf : ∀ rep, R.Runs C c ids g₀ (f rep) post) :
    R.Runs C c ids g₀ (repOf type >>= f) post := hf _

lemma reachable : R.Runs C c [] g₀ reachable fun _ _ ↦ True := get.first fun _ _ _ _ ↦ .pure fun _ _ ↦ trivial

lemma ite (hx : b = true → R.Runs C c ids g₀ x post1)
    (hy : b = false → R.Runs C c ids g₀ y post1) : R.Runs C c ids g₀ (if b then x else y) post1 := by
  cases b with
  | true => exact hx rfl
  | false => exact hy rfl

lemma iteProp {q : Prop} [Decidable q] (hx : q → R.Runs C c ids g₀ x post1)
    (hy : ¬q → R.Runs C c ids g₀ y post1) : R.Runs C c ids g₀ (if q then x else y) post1 := by
  split
  · exact hx ‹_›
  · exact hy ‹_›

lemma discard (hx : R.Runs C c ids g₀ x post1) : R.Runs C c ids g₀ (discard x) fun _ _ ↦ True :=
  fun g left hg ↦ (hx g left hg).discard

end Regime.Runs

end

inductive Pieces {α : Type} (P : List TryId → α → Prop) : List TryId → List α → Prop where
  | nil : Pieces P [] []
  | cons {ids ids' : List TryId} {a : α} {as : List α} (h : P ids a) (hrest : Pieces P ids' as) :
    Pieces P (ids ++ ids') (a :: as)

section

variable {as : List α}

lemma Pieces.mono (h : Pieces P ids as) (hPQ : ∀ ids a, P ids a → Q ids a) : Pieces Q ids as := by
  induction h with
  | nil => exact .nil
  | cons h _ ih => exact .cons (hPQ _ _ h) ih

lemma Pieces.mapM {f : α → LowerM β} {post : β → Prop}
    (h : Pieces (fun ids a ↦ R.Runs C c ids g₀ (f a) fun _ b ↦ post b) ids as) :
    R.Runs C c ids g₀ (as.mapM f) fun _ bs ↦ ∀ b ∈ bs, post b := by
  induction h with
  | nil =>
    rw [mapM_nil]
    exact .pure fun _ _ b hb ↦ (not_mem_nil hb).elim
  | cons h _ ih =>
    rw [mapM_cons]
    refine h.both fun g b hg hb ↦ (ih.later hg).last fun _ bs _ hbs ↦ .pure fun _ _ b' hb' ↦ ?_
    rcases mem_cons.mp hb' with rfl | hb'
    · exact hb
    · exact hbs b' hb'

lemma Pieces.forM {f : α → LowerM Unit} (h : Pieces (fun ids a ↦ R.Runs C c ids g₀ (f a) fun _ _ ↦ True) ids as) :
    R.Runs C c ids g₀ (as.forM f) fun _ _ ↦ True := by
  induction h with
  | nil => exact .pure fun _ _ ↦ trivial
  | cons h _ ih => exact h.both fun g _ hg _ ↦ ih.later hg

lemma forIn_eq_forM (as : List α) (f : α → LowerM Unit) :
    forIn as PUnit.unit (fun a _ ↦ do f a; pure (ForInStep.yield PUnit.unit)) = as.forM f := by
  induction as with
  | nil => rfl
  | cons a as ih =>
    rw [forIn_cons, bind_assoc]
    simp only [pure_bind]
    exact bind_congr fun _ ↦ ih

lemma forIn_bind_eq_forM (as : List α) (f : α → LowerM β) (k : α → β → LowerM Unit) :
    forIn as PUnit.unit (fun a _ ↦ do
        let b ← f a
        k a b
        pure (ForInStep.yield PUnit.unit)) = as.forM fun a ↦ f a >>= k a := by
  simpa only [bind_assoc] using forIn_eq_forM as fun a ↦ f a >>= k a

end

/-- What is written for each way of using an expression stays inside of its clauses, and names no word
of outgoing arguments. -/
structure Lowered.Sound (R : Regime) (D : Discipline) (C : Context) (c : Path) (ids : List TryId)
    (g₀ : R.Notes) (e : Lowered) : Prop where
  value : R.Runs C c ids g₀ e.value fun _ v ↦ v.IsFree
  place : R.Runs C c ids g₀ e.place fun _ p ↦ p.IsFree
  effect : R.Runs C c ids g₀ e.effect fun _ _ ↦ True
  branch : ∀ g sense l d, g₀ ≤ g → R.At g d l → D.direct c d → R.Runs C c ids g (e.branch sense l) fun _ _ ↦ True

/-- What is written for each way of using a statement stays inside of its clauses. -/
structure LoweredStmt.Sound (R : Regime) (C : Context) (c : Path) (ids : List TryId) (g₀ : R.Notes)
    (s : LoweredStmt) : Prop where
  run : R.Runs C c ids g₀ s.run fun _ _ ↦ True
  last : R.Runs C c ids g₀ s.last fun _ v ↦ v.IsFree
  body : R.Runs C c ids g₀ s.body fun _ v ↦ v.IsFree

/-! ## Laws -/

/-- A state in which the same nodes have been written and the same is to be written at the end. -/
structure State.Similar (s s' : State) : Prop where
  prims : s'.prims = s.prims
  reachable : s'.reachable = s.reachable
  nextLabel : s'.nextLabel = s.nextLabel
  slots : s.slots.size ≤ s'.slots.size
  tries : s'.tries = s.tries
  exits : s'.exits = s.exits
  exitLabels : s'.exitLabels = s.exitLabels
  returnLabel : s'.returnLabel = s.returnLabel

def Silent (C : Context) (x : LowerM α) (post : α → Prop) : Prop :=
  ∀ s a s', x C s = .ok (a, s') → s.Similar s' ∧ post a

section

variable {post : α → Prop}

lemma Silent.pure (h : post a) : Silent C (pure a) post := by
  intro s b s' hrun
  cases hrun
  exact ⟨⟨rfl, rfl, rfl, le_rfl, rfl, rfl, rfl, rfl⟩, h⟩

lemma Silent.getBind {f : State → LowerM α} (hf : ∀ s, Silent C (f s) post) : Silent C (get >>= f) post :=
  fun s ↦ hf s s

lemma Silent.readBind {f : Context → LowerM α} (hf : Silent C (f C) post) : Silent C (read >>= f) post := hf

lemma Silent.returning (hx : Silent C x fun _ ↦ True) {f : α → β} {post : β → Prop} (hf : ∀ a, post (f a)) :
    Silent C (do return f (← x)) post := by
  intro s b s' hrun
  obtain ⟨a, _, hx1, hf1⟩ := bindState_eq_ok.mp (show (x C >>= fun a ↦ Pure.pure (f a)) s = .ok (b, s') from hrun)
  cases hf1
  exact ⟨(hx s a s' hx1).1, hf a⟩

lemma silent_newSlot (words : Nat) (temp : Bool) : Silent C (newSlot words temp) fun _ ↦ True := by
  intro s a s' hrun
  cases hrun
  exact ⟨⟨rfl, rfl, rfl, by simp, rfl, rfl, rfl, rfl⟩, trivial⟩

lemma silent_locate (loc : Location) : Silent C (locate loc) fun _ ↦ True := by
  intro s a s' hrun
  cases hrun
  exact ⟨⟨rfl, rfl, rfl, le_rfl, rfl, rfl, rfl, rfl⟩, trivial⟩

lemma silent_resultSlot (rep : Rep) : Silent C (resultSlot rep) fun _ ↦ True := by
  refine .getBind fun s0 ↦ ?_
  split
  · exact .pure trivial
  · intro s a s' hrun
    cases hrun
    exact ⟨⟨rfl, rfl, rfl, by simp, rfl, rfl, rfl, rfl⟩, trivial⟩

lemma silent_localSlot (decl : DeclId) : Silent C (localSlot decl) fun _ ↦ True := by
  refine .getBind fun s0 ↦ ?_
  split
  · exact .pure trivial
  · intro s a s' hrun
    cases hrun
    exact ⟨⟨rfl, rfl, rfl, by simp, rfl, rfl, rfl, rfl⟩, trivial⟩

lemma silent_variablePlace (decl : DeclId) : Silent C (variablePlace decl) (·.IsFree) := by
  refine .readBind ?_
  dsimp only
  split
  case h_5 => exact (silent_localSlot decl).returning fun _ _ ↦ trivial
  case h_6 =>
    intro s a s' hrun
    cases hrun
  all_goals exact .pure fun _ ↦ trivial

end

/-- Every way of writing a node keeps up what is known. -/
structure Regime.Lawful (R : Regime) (D : Discipline) : Prop where
  at_mono : ∀ {g g' c l}, g ≤ g' → R.At g c l → R.At g' c l
  similar : ∀ {g p s s'}, R.Holds g p s → s.Similar s' → R.Holds g p s'
  newLabel : ∀ {C g p todo} d, R.Yields C g p todo newLabel p todo fun g' l ↦ R.At g' d l
  emit : ∀ {C g c todo node}, node.IsOrdinary → (∀ l ∈ node.targets, ∃ d, R.At g d l ∧ D.direct c d) →
    R.Yields C g (R.inside c) todo (emit node) (R.inside c) todo fun _ _ ↦ True
  mark : ∀ {C g c todo l d}, R.At g d l → D.here d c →
    R.Yields C g (R.inside c) todo (mark l) (R.inside c) todo fun _ _ ↦ True
  callStart : ∀ {C g c todo} n,
    R.Yields C g (R.inside c) todo (Lowering.emit (.callStart n)) (R.reserved c n) todo fun _ _ ↦ True
  argument : ∀ {C g c todo n w rep src}, w + rep.words ≤ n → src.IsFree →
    R.Yields C g (R.reserved c n) todo (Lowering.emit (.assign rep (.arg w) src)) (R.reserved c n) todo
      fun _ _ ↦ True
  call : ∀ {C g c todo n target result}, (Prim.call target n result).Touches (fun _ ↦ False) →
    R.Yields C g (R.reserved c n) todo (Lowering.emit (.call target n result)) (R.inside c) todo fun _ _ ↦ True
  jumpTo : ∀ {C g c todo source l d scope}, R.Fits C → R.At g d l → D.jump c source d scope →
    R.Yields C g (R.inside c) todo (jumpTo source l scope) (R.inside c) todo fun _ _ ↦ True
  returnFrom : ∀ {C g c todo scope value}, R.Fits C → D.returns c scope → (∀ v, value = some v → v.IsFree) →
    R.Yields C g (R.inside c) todo (returnFrom scope value) (R.inside c) todo fun _ _ ↦ True
  tryStatement : ∀ {C g c i id body handler cleanup b h k}, R.Fits C → D.tries c i.scope id cleanup.isSome →
    body.Sound R C ((id, .body) :: c) b g →
    (∀ v code, handler = some (v, code) → code.Sound R C ((id, .handler) :: c) h g) →
    (∀ code, cleanup = some code → code.Sound R C ((id, .cleanup) :: c) k g) →
    R.Runs C c (id :: (b ++ (h ++ k))) g (tryStatement i id body handler cleanup) fun _ _ ↦ True

/-! ## Steps -/

namespace Regime.Lawful

variable {D : Discipline} (L : R.Lawful D) {d : Path} {l : Label} {p : R.Point}

include L

lemma labels (d : Path) : R.Runs C c [] g₀ Lowering.newLabel fun g l ↦ R.At g d l := fun _ _ _ ↦ L.newLabel d

lemma emits (hnode : node.IsOrdinary) (htargets : ∀ l ∈ node.targets, ∃ d, R.At g₀ d l ∧ D.direct c d) :
    R.Runs C c [] g₀ (Lowering.emit node) fun _ _ ↦ True := by
  intro g _ hg
  refine L.emit hnode fun l hl ↦ ?_
  obtain ⟨d, hat, hdirect⟩ := htargets l hl
  exact ⟨d, L.at_mono hg hat, hdirect⟩

lemma writes (hnode : node.IsOrdinary) (htargets : node.targets = []) :
    R.Runs C c [] g₀ (Lowering.emit node) fun _ _ ↦ True :=
  L.emits hnode (by simp [htargets])

lemma marks (hat : R.At g₀ d l) (hhere : D.here d c) : R.Runs C c [] g₀ (Lowering.mark l) fun _ _ ↦ True :=
  fun _ _ hg ↦ L.mark (L.at_mono hg hat) hhere

lemma jumps (hat : R.At g₀ d l) (hdirect : D.direct c d) : R.Runs C c [] g₀ (jump l) fun _ _ ↦ True := by
  have hnode : (Prim.jump l).IsOrdinary := ⟨rfl, by simp [Prim.operands], by simp [Prim.dst]⟩
  refine Runs.reachable.first fun g b hg _ ↦ .ite (fun _ ↦ L.emits hnode fun l' hl' ↦ ?_) fun _ ↦ ?_
  · rw [List.mem_singleton.mp hl']
    exact ⟨d, L.at_mono hg hat, hdirect⟩
  · exact .pure fun _ _ ↦ trivial

lemma keeps {α : Type} {x : LowerM α} {post : α → Prop} (hx : Silent C x post) :
    R.Yields C g p todo x p todo fun _ a ↦ post a := by
  intro s a s' hfresh hs hrun
  obtain ⟨hsimilar, hpost⟩ := hx s a s' hrun
  exact ⟨g, le_refl g, hfresh, L.similar hs hsimilar, hpost⟩

lemma slot (words : Nat) (temp : Bool) : R.Yields C g p todo (newSlot words temp) p todo fun _ _ ↦ True :=
  L.keeps (silent_newSlot words temp)

lemma locates (loc : Location) : R.Runs C c [] g₀ (locate loc) fun _ _ ↦ True :=
  fun _ _ _ ↦ L.keeps (silent_locate loc)

lemma localSlots (decl : DeclId) : R.Runs C c [] g₀ (localSlot decl) fun _ _ ↦ True :=
  fun _ _ _ ↦ L.keeps (silent_localSlot decl)

lemma variablePlaces (decl : DeclId) : R.Runs C c [] g₀ (variablePlace decl) fun _ p ↦ p.IsFree :=
  fun _ _ _ ↦ L.keeps (silent_variablePlace decl)

end Regime.Lawful

/-! ## Nodes -/

/-- The state after a node is written, behind a label if control would not get there. -/
def State.emitted (s : State) (p : Prim) : State :=
  let labelled := p.definedLabel.isSome
  if s.reachable || labelled then
    { s with reachable := labelled || p.fallsThrough, prims := s.prims.push ⟨p, some s.loc⟩ }
  else
    { s with
      nextLabel := s.nextLabel + 1
      reachable := labelled || p.fallsThrough
      prims := (s.prims.push ⟨.label ⟨s.nextLabel⟩, some s.loc⟩).push ⟨p, some s.loc⟩ }

lemma emit_apply (p : Prim) (C : Context) (s : State) : emit p C s = .ok ((), s.emitted p) := by
  change (if (s.reachable || p.definedLabel.isSome) = true then _ else _ : LowerM Unit) C s = _
  unfold State.emitted
  dsimp only
  split
  · rfl
  · rfl

end W16Compiler.Lowering
