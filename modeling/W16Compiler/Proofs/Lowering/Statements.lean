import W16Compiler.Proofs.Lowering.Values

/-!
# What is written for statements

Under a lawful regime the nodes for a statement stay inside of the clauses that it stands in, if those
for its parts do. The body of a loop is written in a context that knows the ends of the loop.
-/

namespace W16Compiler.Lowering

open Lowering LoweredStmt List

def Context.within (C : Context) (b : Breakable) : Context :=
  { C with breakables := b :: C.breakables }

def LoopBody (R : Regime) (C : Context) (c : Path) (ids : List TryId) (g₀ : R.Notes)
    (scope : ScopeId) (continues : Bool) (body : LoweredStmt) : Prop :=
  ∀ g exit next, g₀ ≤ g → R.At g c exit → (∀ l, next = some l → R.At g c l) → next.isSome = continues →
    body.Sound R (C.within ⟨exit, next, scope⟩) c ids g

namespace Regime.Lawful

variable {R : Regime} {D : Discipline} (L : R.Lawful D) {C : Context} {c d : Path} {g₀ : R.Notes} {l : Label}
  {ids ids1 ids2 ids3 ids4 : List TryId} {loc : Location} {i : StmtInfo} {e cond value : Lowered}

include L

/-! ## Statements by what they have -/

lemma ofRun (h : R.Runs C c ids g₀ code fun _ _ ↦ True) : (LoweredStmt.ofRun loc code).Sound R C c ids g₀ := by
  have hrun : R.Runs C c ids g₀ (LoweredStmt.ofRun loc code).run fun _ _ ↦ True :=
    (L.locates loc).first fun _ _ hg _ ↦ h.later hg
  have hvalue : R.Runs C c ids g₀ (LoweredStmt.ofRun loc code).last fun _ v ↦ v.IsFree :=
    hrun.returning (Operand.isFree_imm 0)
  exact ⟨hrun, hvalue, hvalue⟩

lemma ofExpr (he : e.Sound R D C c ids g₀) : (LoweredStmt.ofExpr loc e).Sound R C c ids g₀ := by
  have hvalue : R.Runs C c ids g₀ (LoweredStmt.ofExpr loc e).last fun _ v ↦ v.IsFree := by
    refine (L.locates loc).first fun g _ hg _ ↦ (he.value.later hg).last fun _ v _ hv ↦ ?_
    refine .repOf fun rep ↦ ?_
    split
    · refine .ite (fun _ ↦ .pure fun _ _ ↦ hv) fun _ ↦ ?_
      exact (L.copies hv).first fun _ p _ hp ↦ .pure fun _ _ ↦ hp
    · exact .pure fun _ _ ↦ hv
  exact ⟨(L.ofRun he.effect).run, hvalue, hvalue⟩

omit L in
lemma valueOf {body : List LoweredStmt} (h : Pieces (fun ids s ↦ s.Sound R C c ids g₀) ids body) :
    R.Runs C c ids g₀ (valueOf body) fun _ v ↦ v.IsFree := by
  induction h with
  | nil => exact .pure fun _ _ ↦ Operand.isFree_imm 0
  | @cons _ _ _ rest hs hrest ih =>
    cases rest with
    | nil =>
      cases hrest
      rw [append_nil]
      exact hs.last
    | cons s' rest => exact hs.run.both fun _ _ hg _ ↦ ih.later hg

lemma ofBlock {body : List LoweredStmt} (h : Pieces (fun ids s ↦ s.Sound R C c ids g₀) ids body) :
    (ofBlock loc body).Sound R C c ids g₀ := by
  have hall : R.Runs C c ids g₀ (body.forM (·.run)) fun _ _ ↦ True := (h.mono fun _ _ hs ↦ hs.run).forM
  exact ⟨(L.ofRun hall).run, (L.ofRun hall).last, valueOf h⟩

/-! ## Branches and loops -/

lemma branch (hcond : cond.Sound R D C c ids1 g₀)
    (hyes : yes.Sound R C c ids2 g₀) (hno : ∀ s, no = some s → s.Sound R C c ids3 g₀) (hnone : no = none → ids3 = []) :
    R.Runs C c (ids1 ++ (ids2 ++ ids3)) g₀ (branch cond yes no) fun _ _ ↦ True := by
  refine (L.labels c).first fun g1 other hg1 hother ↦ ?_
  refine (hcond.branch g1 false other c hg1 hother (D.direct_refl c)).both fun g2 _ hg2 _ ↦ ?_
  refine (hyes.run.later (le_trans hg1 hg2)).both fun g3 _ hg3 _ ↦ ?_
  have hother3 := L.at_mono (le_trans hg2 hg3) hother
  cases no with
  | none =>
    rw [hnone rfl]
    exact L.marks hother3 (D.here_refl c)
  | some s =>
    refine (L.labels c).first fun g4 _ hg4 hdone ↦ ?_
    refine (L.jumps hdone (D.direct_refl c)).first fun g5 _ hg5 _ ↦ ?_
    refine (L.marks (L.at_mono (le_trans hg4 hg5) hother3) (D.here_refl c)).first fun g6 _ hg6 _ ↦ ?_
    have hle := le_trans hg1 (le_trans hg2 (le_trans hg3 (le_trans hg4 (le_trans hg5 hg6))))
    refine ((hno s rfl).run.later hle).last fun g7 _ hg7 _ ↦ ?_
    exact L.marks (L.at_mono (le_trans hg5 (le_trans hg6 hg7)) hdone) (D.here_refl c)

variable {body : LoweredStmt} {cases : List (Int × Nat)} {name : String} {α : Type} {p : Place}

omit L in
lemma loopBody {scope : ScopeId} {continues : Bool} {g : R.Notes} {exit : Label} {next : Option Label}
    (hbody : LoopBody R C c ids g₀ scope continues body) (hg : g₀ ≤ g) (hexit : R.At g c exit)
    (hnext : ∀ l, next = some l → R.At g c l) (hcontinues : next.isSome = continues) :
    R.Runs C c ids g (Lowering.inside ⟨exit, next, scope⟩ body.run) fun _ _ ↦ True :=
  (hbody g exit next hg hexit hnext hcontinues).run

lemma whileLoop (hcond : cond.Sound R D C c ids1 g₀) (hbody : LoopBody R C c ids2 g₀ i.scope true body) :
    R.Runs C c (ids1 ++ ids2) g₀ (Lowering.whileLoop i cond body) fun _ _ ↦ True := by
  refine (L.labels c).first fun g1 top hg1 htop ↦ (L.labels c).first fun g2 exit hg2 hexit ↦ ?_
  have htop2 := L.at_mono hg2 htop
  refine (L.marks htop2 (D.here_refl c)).first fun g3 _ hg3 _ ↦ ?_
  have h3 := le_trans hg1 (le_trans hg2 hg3)
  have hexit3 := L.at_mono hg3 hexit
  refine (hcond.branch g3 false exit c h3 hexit3 (D.direct_refl c)).both fun g4 _ hg4 _ ↦ ?_
  have htop4 := L.at_mono (le_trans hg3 hg4) htop2
  have hexit4 := L.at_mono hg4 hexit3
  refine (loopBody hbody (le_trans h3 hg4) hexit4 (fun l hl ↦ ?_) rfl).last fun g5 _ hg5 _ ↦ ?_
  · cases hl
    exact htop4
  · refine (L.jumps (L.at_mono hg5 htop4) (D.direct_refl c)).first fun g6 _ hg6 _ ↦ ?_
    exact L.marks (L.at_mono (le_trans hg5 hg6) hexit4) (D.here_refl c)

lemma doLoop (hbody : LoopBody R C c ids1 g₀ i.scope true body) (hcond : cond.Sound R D C c ids2 g₀) :
    R.Runs C c (ids1 ++ ids2) g₀ (Lowering.doLoop i body cond) fun _ _ ↦ True := by
  refine (L.labels c).first fun g1 top hg1 htop ↦ (L.labels c).first fun g2 _ hg2 hnext ↦ ?_
  refine (L.labels c).first fun g3 _ hg3 hexit ↦ ?_
  have htop3 := L.at_mono (le_trans hg2 hg3) htop
  refine (L.marks htop3 (D.here_refl c)).first fun g4 _ hg4 _ ↦ ?_
  have h4 := le_trans hg1 (le_trans hg2 (le_trans hg3 hg4))
  have hnext4 := L.at_mono (le_trans hg3 hg4) hnext
  have hexit4 := L.at_mono hg4 hexit
  refine (loopBody hbody h4 hexit4 (fun l hl ↦ ?_) rfl).both fun g5 _ hg5 _ ↦ ?_
  · cases hl
    exact hnext4
  · refine (L.marks (L.at_mono hg5 hnext4) (D.here_refl c)).first fun g6 _ hg6 _ ↦ ?_
    refine (L.locates i.loc).first fun g7 _ hg7 _ ↦ ?_
    have h47 := le_trans hg5 (le_trans hg6 hg7)
    have htop7 := L.at_mono (le_trans hg4 h47) htop3
    refine (hcond.branch g7 true top c (le_trans h4 h47) htop7 (D.direct_refl c)).last fun g8 _ hg8 _ ↦ ?_
    exact L.marks (L.at_mono (le_trans h47 hg8) hexit4) (D.here_refl c)

omit L in
lemma optional (h : ∀ a, o = some a → R.Runs C c ids g₀ (f a) fun _ _ ↦ True) (hnone : o = none → ids = []) :
    R.Runs C c ids g₀ (o.forM f) fun _ _ ↦ True := by
  cases o with
  | none =>
    rw [hnone rfl]
    exact .pure fun _ _ ↦ trivial
  | some a => exact h a rfl

lemma forLoop {cond step : Option Lowered}
    (hinit : ∀ s, init = some s → s.Sound R C c ids1 g₀) (hinit' : init = none → ids1 = [])
    (hcond : ∀ e, cond = some e → e.Sound R D C c ids2 g₀) (hcond' : cond = none → ids2 = [])
    (hbody : LoopBody R C c ids3 g₀ i.scope true body) (hstep : ∀ e, step = some e → e.Sound R D C c ids4 g₀)
    (hstep' : step = none → ids4 = []) :
    R.Runs C c (ids1 ++ (ids2 ++ (ids3 ++ ids4))) g₀ (forLoop i init cond step body) fun _ _ ↦ True := by
  refine (optional (fun s hs ↦ (hinit s hs).run) hinit').both fun g0' _ hg0 _ ↦ ?_
  refine (L.labels c).first fun g1 top hg1 htop ↦ (L.labels c).first fun g2 _ hg2 hnext ↦ ?_
  refine (L.labels c).first fun g3 exit hg3 hexit ↦ (L.locates i.loc).first fun g4 _ hg4 _ ↦ ?_
  have htop4 := L.at_mono (le_trans hg2 (le_trans hg3 hg4)) htop
  refine (L.marks htop4 (D.here_refl c)).first fun g5 _ hg5 _ ↦ ?_
  have h5 := le_trans hg0 (le_trans hg1 (le_trans hg2 (le_trans hg3 (le_trans hg4 hg5))))
  have hexit5 := L.at_mono (le_trans hg4 hg5) hexit
  refine (optional (fun e he ↦ ?_) hcond').both fun g6 _ hg6 _ ↦ ?_
  · exact (hcond e he).branch g5 false exit c h5 hexit5 (D.direct_refl c)
  have hnext6 := L.at_mono (le_trans hg3 (le_trans hg4 (le_trans hg5 hg6))) hnext
  have hexit6 := L.at_mono hg6 hexit5
  refine (loopBody hbody (le_trans h5 hg6) hexit6 (fun l hl ↦ ?_) rfl).both fun g7 _ hg7 _ ↦ ?_
  · cases hl
    exact hnext6
  refine (L.marks (L.at_mono hg7 hnext6) (D.here_refl c)).first fun g8 _ hg8 _ ↦ ?_
  refine (L.locates i.loc).first fun g9 _ hg9 _ ↦ ?_
  have h69 := le_trans hg7 (le_trans hg8 hg9)
  have h9 := le_trans h5 (le_trans hg6 h69)
  refine (optional (fun e he ↦ (hstep e he).effect.later h9) hstep').last fun g10 _ hg10 _ ↦ ?_
  have h610 := le_trans h69 hg10
  refine (L.jumps (L.at_mono (le_trans hg5 (le_trans hg6 h610)) htop4) (D.direct_refl c)).first fun _ _ hg11 _ ↦ ?_
  exact L.marks (L.at_mono (le_trans h610 hg11) hexit6) (D.here_refl c)

/-! ## Switches -/

omit L in
lemma caseLabels (marker : Nat) : R.Runs C c [] g₀ (caseLabel marker) fun _ l ↦ C.cases[marker]? = some l := by
  refine .read ?_
  split
  · exact .pure fun _ _ ↦ ‹_›
  · exact .fail _

lemma comparesCases (hv : v.IsFree)
    (hcases : ∀ m ∈ cases.map (·.2), ∀ l, C.cases[m]? = some l → ∃ d, R.At g₀ d l ∧ D.direct c d) :
    R.Runs C c [] g₀ (cases.forM fun x ↦ do
      Lowering.compare .eq rep v (.imm x.1) (← Lowering.caseLabel x.2)) fun _ _ ↦ True := by
  induction cases generalizing g₀ with
  | nil => exact .pure fun _ _ ↦ trivial
  | cons entry cases ih =>
    obtain ⟨constant, marker⟩ := entry
    have hfirst : R.Runs C c [] g₀ (do
        Lowering.compare .eq rep v (.imm constant) (← Lowering.caseLabel marker)) fun _ _ ↦ True := by
      refine (caseLabels marker).first fun g l hg hl ↦ ?_
      obtain ⟨d, hat, hdirect⟩ := hcases marker mem_cons_self l hl
      exact L.compare hv (Operand.isFree_imm _) (L.at_mono hg hat) hdirect
    refine hfirst.first fun g _ hg _ ↦ ih fun m hm l hl ↦ ?_
    obtain ⟨d, hat, hdirect⟩ := hcases m (mem_cons_of_mem _ hm) l hl
    exact ⟨d, L.at_mono hg hat, hdirect⟩

lemma switch {default : Option Nat} (hvalue : value.Sound R D C c ids1 g₀)
    (hbody : LoopBody R C c ids2 g₀ i.scope false body)
    (hcases : ∀ m ∈ cases.map (·.2) ++ default.toList, ∀ l, C.cases[m]? = some l → ∃ d, R.At g₀ d l ∧ D.direct c d) :
    R.Runs C c (ids1 ++ ids2) g₀ (switch i value body cases default) fun _ _ ↦ True := by
  have hlater : ∀ g m, g₀ ≤ g → m ∈ cases.map (·.2) ++ default.toList → ∀ l, C.cases[m]? = some l →
      ∃ d, R.At g d l ∧ D.direct c d := by
    intro g m hg hm l hl
    obtain ⟨d, hat, hdirect⟩ := hcases m hm l hl
    exact ⟨d, L.at_mono hg hat, hdirect⟩
  have hrest : ∀ g rep v, g₀ ≤ g → v.IsFree → R.Runs C c ids2 g (do
      let exit ← Lowering.newLabel
      cases.forM fun x ↦ do
        Lowering.compare .eq rep v (.imm x.1) (← Lowering.caseLabel x.2)
      let labels := (← read).cases
      jump ((default.bind (labels[·]?)).getD exit)
      Lowering.inside ⟨exit, none, i.scope⟩ body.run
      Lowering.mark exit) fun _ _ ↦ True := by
    intro g rep v hg hv
    refine (L.labels c).first fun g1 exit hg1 hexit ↦ ?_
    refine (L.comparesCases hv fun m hm ↦ ?_).first fun g2 _ hg2 _ ↦ ?_
    · exact hlater g1 m (le_trans hg hg1) (mem_append_left _ hm)
    have h2 := le_trans hg (le_trans hg1 hg2)
    have hexit2 := L.at_mono hg2 hexit
    have htarget : ∃ d, R.At g2 d ((default.bind (C.cases[·]?)).getD exit) ∧ D.direct c d := by
      cases hlabel : default.bind (C.cases[·]?) with
      | none => exact ⟨c, hexit2, D.direct_refl c⟩
      | some l =>
        obtain ⟨m, rfl, hm⟩ := Option.bind_eq_some_iff.mp hlabel
        exact hlater g2 m h2 (mem_append_right _ (mem_singleton_self m)) l hm
    obtain ⟨d, hat, hdirect⟩ := htarget
    refine .read ((L.jumps hat hdirect).first fun g3 _ hg3 _ ↦ ?_)
    have hexit3 := L.at_mono hg3 hexit2
    refine (loopBody hbody (le_trans h2 hg3) hexit3 (fun l hl ↦ by cases hl) rfl).last fun g4 _ hg4 _ ↦ ?_
    exact L.marks (L.at_mono hg4 hexit3) (D.here_refl c)
  refine .repOf fun rep ↦ hvalue.value.both fun g1 v hg1 hv ↦ ?_
  simp only [forIn_bind_eq_forM, pure_bind]
  split
  · exact hrest g1 rep _ hg1 hv
  · refine .iteProp (fun _ ↦ ?_) fun _ ↦ hrest g1 rep _ hg1 hv
    exact (L.copies hv).first fun g2 t hg2 ht ↦ hrest g2 rep _ (le_trans hg1 hg2) ht.load

/-! ## Jumps -/

lemma jumpsTo (hC : R.Fits C) (hat : R.At g₀ d l) (hjump : D.jump c source d scope) :
    R.Runs C c [] g₀ (Lowering.jumpTo source l scope) fun _ _ ↦ True :=
  fun _ _ hg ↦ L.jumpTo hC (L.at_mono hg hat) hjump

lemma breakLoop (hC : R.Fits C)
    (h : ∀ b rest, C.breakables = b :: rest → ∃ d, R.At g₀ d b.exit ∧ D.jump c i.scope d b.scope) :
    R.Runs C c [] g₀ (breakLoop i) fun _ _ ↦ True := by
  refine .read ?_
  split
  · rename_i b rest hb
    obtain ⟨d, hat, hjump⟩ := h b rest hb
    exact L.jumpsTo hC hat hjump
  · exact .fail _

lemma continueLoop (hC : R.Fits C)
    (h : ∀ next scope rest, C.breakables.filterMap (fun b ↦ b.next.map (·, b.scope)) = (next, scope) :: rest →
      ∃ d, R.At g₀ d next ∧ D.jump c i.scope d scope) : R.Runs C c [] g₀ (Lowering.continueLoop i) fun _ _ ↦ True := by
  refine .read ?_
  dsimp only
  split
  · rename_i next scope rest hnext
    obtain ⟨d, hat, hjump⟩ := h next scope rest hnext
    exact L.jumpsTo hC hat hjump
  · exact .fail _

lemma goto (hC : R.Fits C)
    (h : ∀ l scope, C.labels.lookup name = some (l, scope) → ∃ d, R.At g₀ d l ∧ D.jump c i.scope d scope) :
    R.Runs C c [] g₀ (Lowering.goto i name) fun _ _ ↦ True := by
  refine .read ?_
  split
  · rename_i l scope hl
    obtain ⟨d, hat, hjump⟩ := h l scope hl
    exact L.jumpsTo hC hat hjump
  · exact .fail _

lemma labelled (hbody : body.Sound R C c ids g₀)
    (h : ∀ l scope, C.labels.lookup name = some (l, scope) → ∃ d, R.At g₀ d l ∧ D.here d c) :
    R.Runs C c ids g₀ (Lowering.labelled name body) fun _ _ ↦ True := by
  refine .read (.first (optional (fun a ha ↦ ?_) fun _ ↦ rfl) fun _ _ hg _ ↦ hbody.run.later hg)
  obtain ⟨l, scope⟩ := a
  obtain ⟨d, hat, hhere⟩ := h l scope ha
  exact L.marks hat hhere

lemma ret {value : Option Lowered} (hC : R.Fits C) (hreturns : D.returns c i.scope)
    (hvalue : ∀ e, value = some e → e.Sound R D C c ids g₀) (hnone : value = none → ids = []) :
    R.Runs C c ids g₀ (Lowering.ret i value) fun _ _ ↦ True := by
  have hnothing : ∀ g, R.Runs C c [] g (Lowering.returnFrom i.scope none) fun _ _ ↦ True :=
    fun _ _ _ _ ↦ L.returnFrom hC hreturns fun v hv ↦ by cases hv
  cases value with
  | none =>
    rw [hnone rfl]
    exact hnothing g₀
  | some e =>
    have he := hvalue e rfl
    refine .read (.ite (fun _ ↦ ?_) fun _ ↦ .ite (fun _ ↦ ?_) fun _ ↦ ?_)
    · have hdst : (Place.indirect (.load (.param 0)) 0).IsFree := (Place.isFree_param 0).load.indirect 0
      exact (L.assignTo he hdst).last fun g _ _ _ ↦ hnothing g
    · exact he.effect.last fun g _ _ _ ↦ hnothing g
    · refine he.value.last fun _ v _ hv _ _ _ ↦ L.returnFrom hC hreturns fun w hw ↦ ?_
      cases hw
      exact hv

lemma throws (he : e.Sound R D C c ids g₀) :
    R.Runs C c ids g₀ (do Lowering.emit (.throwValue (← e.value))) fun _ _ ↦ True := by
  refine he.value.last fun _ v _ hv ↦ L.emits ⟨rfl, ?_, ?_⟩ fun _ hl ↦ (not_mem_nil hl).elim
  · simp [Prim.operands, hv]
  · simp [Prim.dst]

/-! ## Local variables -/

lemma constructs {id : StructId} (hp : p.IsFree) : R.Runs C c [] g₀ (construct p id) fun _ _ ↦ True :=
  .read ((L.addresses hp).first fun _ v _ hv ↦ L.callsWithPointer hv)

omit L in
lemma simplePieces (as : List α)
    (h : ∀ a, R.Runs C c [] g₀ (f a) fun _ _ ↦ True) : R.Runs C c [] g₀ (as.forM f) fun _ _ ↦ True := by
  induction as with
  | nil => exact .pure fun _ _ ↦ trivial
  | cons a as ih => exact (h a).first fun _ _ hg _ ↦ ih.later hg

lemma storesTable (hp : p.IsFree) : R.Runs C c [] g₀ (storeTable p label) fun _ _ ↦ True :=
  L.assigns hp (Operand.isFree_address _ _)

lemma aggregate {slot : SlotId} {tables : List (Nat × String)} {members : List (Nat × StructId)}
    {items : List (Nat × Lowered)} (hitems : Pieces (fun ids x ↦ x.2.Sound R D C c ids g₀) ids items) :
    R.Runs C c ids g₀ (aggregate slot tables members items) fun _ _ ↦ True := by
  have hp : (Place.slot slot 0).IsFree := Place.isFree_slot slot 0
  unfold Lowering.aggregate
  simp only [forIn_eq_forM]
  refine Regime.Runs.get.first fun g1 s hg1 _ ↦ (L.assigns hp (Operand.isFree_imm 0)).first fun g2 _ hg2 _ ↦ ?_
  refine (simplePieces members fun x ↦ L.constructs (hp.shift _)).first fun g3 _ hg3 _ ↦ ?_
  refine (simplePieces tables fun x ↦ L.storesTable (hp.shift _)).first fun g4 _ hg4 _ ↦ ?_
  have hle := le_trans hg1 (le_trans hg2 (le_trans hg3 hg4))
  exact (hitems.mono fun ids x hx ↦ (L.assignTo hx (hp.shift x.1)).later hle).forM.returning trivial

end Regime.Lawful

end W16Compiler.Lowering
