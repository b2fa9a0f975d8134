import W16Compiler.Proofs.Lowering.Statements
import W16Compiler.Lowering.Tree

/-!
# What is written for trees

The places in a body where control leaves its order or is expected from elsewhere, each with the clauses
of try statements and the loops around it. If a discipline allows all of them, what is written for the
body under a lawful regime stays inside of the clauses that it belongs to.

If a discipline allows what control does at all sites of an expression or statement, what is written for
it under a lawful regime stays inside of its clauses. The proof follows the tree.
-/

namespace W16Compiler

open Lowering List

/-- A loop or switch around a place of a body. -/
structure Lowering.Loop where
  scope : ScopeId
  path : Path
  continues : Bool

/-- What makes a place of a body one to look at. -/
inductive Lowering.SiteKind where
  | breaks
  | continues
  | jumps (name : String)
  | named (name : String)
  | marked (marker : Nat)
  | switches (markers : List Nat)
  | returns
  | tries (id : TryId) (cleanup : Bool)
  deriving DecidableEq

/-- A place of a body where control leaves its order or is expected from elsewhere. -/
structure Lowering.Site where
  path : Path
  loops : List Loop
  scope : ScopeId
  kind : SiteKind

mutual

def Expr.sites (c : Path) (loops : List Loop) : Expr → List Site
  | .int .. | .float .. | .symbol .. | .var .. => []
  | .unary _ _ e | .deref _ e | .addressOf _ e | .incDec _ _ _ e _ | .member _ e _ | .cast _ e
  | .adjust _ e _ _ => e.sites c loops
  | .binary _ _ l r | .logical _ _ l r | .assign _ l r | .compound _ _ l r _ | .comma _ l r =>
    l.sites c loops ++ r.sites c loops
  | .call _ callee args => Expr.allSites c loops args ++ callee.sites c loops
  | .conditional _ cond yes no => cond.sites c loops ++ (yes.sites c loops ++ no.sites c loops)
  | .statement _ body => body.sites c loops

def Expr.allSites (c : Path) (loops : List Loop) : List Expr → List Site
  | [] => []
  | e :: rest => e.sites c loops ++ Expr.allSites c loops rest

def Expr.sites? (c : Path) (loops : List Loop) : Option Expr → List Site
  | none => []
  | some e => e.sites c loops

def Expr.itemSites (c : Path) (loops : List Loop) : List (Nat × Expr) → List Site
  | [] => []
  | (_, e) :: rest => e.sites c loops ++ Expr.itemSites c loops rest

def Callee.sites (c : Path) (loops : List Loop) : Callee → List Site
  | .direct _ => []
  | .indirect e | .virtualSlot e _ => e.sites c loops

def Stmt.sites (c : Path) (loops : List Loop) : Stmt → List Site
  | .block _ body => Stmt.allSites c loops body
  | .expr _ e | .throwStmt _ e => e.sites c loops
  | .branch _ cond yes no => cond.sites c loops ++ (yes.sites c loops ++ Stmt.sites? c loops no)
  | .whileLoop i cond body => cond.sites c loops ++ body.sites c (⟨i.scope, c, true⟩ :: loops)
  | .doLoop i body cond => body.sites c (⟨i.scope, c, true⟩ :: loops) ++ cond.sites c loops
  | .forLoop i init cond step body =>
    Stmt.sites? c loops init ++ (Expr.sites? c loops cond ++
      (body.sites c (⟨i.scope, c, true⟩ :: loops) ++ Expr.sites? c loops step))
  | .switch i value body cases default =>
    ⟨c, loops, i.scope, .switches (cases.map (·.2) ++ default.toList)⟩ ::
      (value.sites c loops ++ body.sites c (⟨i.scope, c, false⟩ :: loops))
  | .caseMarker i marker => [⟨c, loops, i.scope, .marked marker⟩]
  | .breakLoop i => [⟨c, loops, i.scope, .breaks⟩]
  | .continueLoop i => [⟨c, loops, i.scope, .continues⟩]
  | .goto i name => [⟨c, loops, i.scope, .jumps name⟩]
  | .label i name body => ⟨c, loops, i.scope, .named name⟩ :: body.sites c loops
  | .ret i value => ⟨c, loops, i.scope, .returns⟩ :: Expr.sites? c loops value
  | .localVar _ _ init => init.sites c loops
  | .tryStmt i id body handler cleanup =>
    ⟨c, loops, i.scope, .tries id cleanup.isSome⟩ :: (body.sites ((id, .body) :: c) loops ++
      (Handler.sites? ((id, .handler) :: c) loops handler ++ Stmt.sites? ((id, .cleanup) :: c) loops cleanup))
  | .empty _ => []

def Stmt.allSites (c : Path) (loops : List Loop) : List Stmt → List Site
  | [] => []
  | s :: rest => s.sites c loops ++ Stmt.allSites c loops rest

def Stmt.sites? (c : Path) (loops : List Loop) : Option Stmt → List Site
  | none => []
  | some s => s.sites c loops

def Handler.sites? (c : Path) (loops : List Loop) : Option Handler → List Site
  | none => []
  | some (.mk _ body) => body.sites c loops

def LocalInit.sites (c : Path) (loops : List Loop) : LocalInit → List Site
  | .uninitialized | .construct _ => []
  | .value e => e.sites c loops
  | .aggregate _ _ items => Expr.itemSites c loops items

end

namespace Lowering

def Site.tryId (x : Site) : Option TryId :=
  match x.kind with
  | .tries id _ => some id
  | _ => none

def tryIds (sites : List Site) : List TryId := sites.filterMap Site.tryId

@[simp] lemma tryIds_append (a b : List Site) : tryIds (a ++ b) = tryIds a ++ tryIds b := List.filterMap_append

def Discipline.Allows (D : Discipline) (x : Site) : Prop :=
  match x.kind with
  | .breaks => ∀ b, x.loops.head? = some b → D.jump x.path x.scope b.path b.scope
  | .continues => ∀ b, x.loops.find? (·.continues) = some b → D.jump x.path x.scope b.path b.scope
  | .jumps name => ∀ d scope, D.label name = some (d, scope) → D.jump x.path x.scope d scope
  | .named name => ∀ d scope, D.label name = some (d, scope) → D.here d x.path
  | .marked marker => ∀ d, D.marker marker = some d → D.here d x.path
  | .switches markers => ∀ marker ∈ markers, ∀ d, D.marker marker = some d → D.direct x.path d
  | .returns => D.returns x.path x.scope
  | .tries id cleanup => D.tries x.path x.scope id cleanup

/-- The context of a place in a body knows where labels are, and the ends of the loops around. -/
structure Follows (R : Regime) (D : Discipline) (C : Context) (loops : List Loop) (g : R.Notes) : Prop where
  fits : R.Fits C
  breakables : List.Forall₂ (fun (b : Breakable) (o : Loop) ↦ b.scope = o.scope ∧ R.At g o.path b.exit ∧
    b.next.isSome = o.continues ∧ ∀ l, b.next = some l → R.At g o.path l) C.breakables loops
  labels : ∀ name l scope, C.labels.lookup name = some (l, scope) →
    ∃ d, D.label name = some (d, scope) ∧ R.At g d l
  cases : ∀ (m : Nat) l, C.cases[m]? = some l → ∃ d, D.marker m = some d ∧ R.At g d l

section

variable {R : Regime} {D : Discipline} {C : Context} {loops : List Loop} {g g' : R.Notes} {c : Path} {scope : ScopeId}

lemma Follows.later (L : R.Lawful D) (h : Follows R D C loops g) (hg : g ≤ g') : Follows R D C loops g' where
  fits := h.fits
  breakables := h.breakables.imp fun b o ⟨hscope, hexit, hsome, hnext⟩ ↦
    ⟨hscope, L.at_mono hg hexit, hsome, fun l hl ↦ L.at_mono hg (hnext l hl)⟩
  labels name l scope hl := by
    obtain ⟨d, hd, hat⟩ := h.labels name l scope hl
    exact ⟨d, hd, L.at_mono hg hat⟩
  cases m l hl := by
    obtain ⟨d, hd, hat⟩ := h.cases m l hl
    exact ⟨d, hd, L.at_mono hg hat⟩

lemma Follows.within (h : Follows R D C loops g) {exit : Label} {next : Option Label}
    {continues : Bool} (hexit : R.At g c exit) (hnext : ∀ l, next = some l → R.At g c l)
    (hcontinues : next.isSome = continues) :
    Follows R D (C.within ⟨exit, next, scope⟩) (⟨scope, c, continues⟩ :: loops) g where
  fits := by
    have hC := h.fits
    rw [Regime.Fits] at hC ⊢
    rw [Context.within, hC]
  breakables := .cons ⟨rfl, hexit, hcontinues, hnext⟩ h.breakables
  labels := h.labels
  cases := h.cases

lemma Follows.continues (h : Follows R D C loops g) {next : Label} {rest : List (Label × ScopeId)}
    (hnext : C.breakables.filterMap (fun b ↦ b.next.map (·, b.scope)) = (next, scope) :: rest) :
    ∃ o, loops.find? (·.continues) = some o ∧ o.scope = scope ∧ R.At g o.path next := by
  have hall := h.breakables
  clear h
  generalize C.breakables = breakables at hall hnext
  induction hall with
  | nil => cases hnext
  | @cons b o _ _ hb _ ih =>
    obtain ⟨hscope, -, hsome, hat⟩ := hb
    cases hbnext : b.next with
    | none =>
      rw [hbnext, Option.isSome_none] at hsome
      rw [filterMap_cons_none (by simp [hbnext])] at hnext
      rw [find?_cons_of_neg (by simp [← hsome])]
      exact ih hnext
    | some l =>
      rw [hbnext, Option.isSome_some] at hsome
      rw [filterMap_cons_some (by simp [hbnext]; rfl)] at hnext
      cases hnext
      exact ⟨o, find?_cons_of_pos hsome.symm, hscope.symm, hat next hbnext⟩

end

end Lowering

section

variable {R : Regime} {D : Discipline} (L : R.Lawful D)

include L

set_option linter.unusedSectionVars false in
mutual

theorem Expr.sound {C : Context} {c : Path} {loops : List Loop} {g : R.Notes} (hC : Follows R D C loops g) (e : Expr)
    (h : ∀ x ∈ e.sites c loops, D.Allows x) : e.lowered.Sound R D C c (tryIds (e.sites c loops)) g := by
  match e, h with
  | .int i value, _ => exact L.ofConstant (Operand.isFree_imm value)
  | .float i x, _ => exact L.ofConstant (Operand.isFree_float x)
  | .symbol i label, _ =>
    have hconstant : (Lowered.ofConstant i.type (.address (.global label) 0) true).Sound R D C c [] g :=
      L.ofConstant (Operand.isFree_address _ _)
    exact { hconstant with place := .pure fun _ _ ↦ Place.isFree_global label 0 }
  | .var i decl, _ =>
    have hplace : (Lowered.ofPlace i.type (variablePlace decl)).Sound R D C c [] g := L.ofPlace (L.variablePlaces decl)
    exact { hplace with effect := .pure fun _ _ ↦ trivial }
  | .unary i .logNot e, h => exact L.logicalNot (e.sound hC h)
  | .unary i .neg e, h | .unary i .bitNot e, h => exact L.negation (e.sound hC h)
  | .deref i e, h => exact L.ofPlace ((e.sound hC h).value.last fun _ v _ hv ↦ .pure fun _ _ ↦ isFree_placeAt hv)
  | .addressOf i e, h => exact L.ofValue ((e.sound hC h).place.last fun _ p _ hp ↦ L.addresses hp)
  | .incDec i before increment e step, h => exact L.incDec (e.sound hC h)
  | .binary i op l r, h =>
    rw [Expr.sites] at h ⊢
    obtain ⟨hl, hr⟩ := forall_mem_append.mp h
    rw [Expr.lowered, tryIds_append]
    split
    · exact L.comparison (l.sound hC hl) (r.sound hC hr)
    · exact L.arithmetic (l.sound hC hl) (r.sound hC hr)
  | .logical i conjunction l r, h =>
    rw [Expr.sites] at h ⊢
    obtain ⟨hl, hr⟩ := forall_mem_append.mp h
    rw [tryIds_append]
    exact L.logical (l.sound hC hl) (r.sound hC hr)
  | .assign i l r, h =>
    rw [Expr.sites] at h ⊢
    obtain ⟨hl, hr⟩ := forall_mem_append.mp h
    rw [tryIds_append]
    exact L.assignment (l.sound hC hl) (r.sound hC hr)
  | .compound i op l r opType, h =>
    rw [Expr.sites] at h ⊢
    obtain ⟨hl, hr⟩ := forall_mem_append.mp h
    rw [tryIds_append]
    exact L.compound (l.sound hC hl) (r.sound hC hr)
  | .comma i first second, h =>
    rw [Expr.sites] at h ⊢
    obtain ⟨hfirst, hsecond⟩ := forall_mem_append.mp h
    rw [tryIds_append]
    exact L.comma (first.sound hC hfirst) (second.sound hC hsecond)
  | .call i callee args, h =>
    rw [Expr.sites] at h ⊢
    obtain ⟨hargs, hcallee⟩ := forall_mem_append.mp h
    rw [tryIds_append]
    exact L.calling (Expr.soundAll hC args hargs) (callee.sound hC hcallee)
  | .member i e offset, h => exact L.ofPlace ((e.sound hC h).place.last fun _ p _ hp ↦ .pure fun _ _ ↦ hp.shift _)
  | .cast i e, h => exact L.cast (e.sound hC h)
  | .adjust i e offset nullCheck, h => exact L.ofValue ((e.sound hC h).value.last fun _ v _ hv ↦ L.adjusts hv)
  | .conditional i cond yes no, h =>
    rw [Expr.sites] at h ⊢
    obtain ⟨hcond, hrest⟩ := forall_mem_append.mp h
    obtain ⟨hyes, hno⟩ := forall_mem_append.mp hrest
    rw [tryIds_append, tryIds_append]
    exact L.conditional (cond.sound hC hcond) (yes.sound hC hyes) (no.sound hC hno)
  | .statement i body, h => exact L.ofValue (body.sound hC h).body

theorem Expr.soundAll {C : Context} {c : Path} {loops : List Loop} {g : R.Notes}
    (hC : Follows R D C loops g) (es : List Expr) (h : ∀ x ∈ Expr.allSites c loops es, D.Allows x) :
    Pieces (fun ids e ↦ e.Sound R D C c ids g) (tryIds (Expr.allSites c loops es)) (Expr.loweredAll es) := by
  match es, h with
  | [], _ => exact .nil
  | e :: rest, h =>
    rw [Expr.allSites] at h ⊢
    obtain ⟨he, hrest⟩ := forall_mem_append.mp h
    rw [tryIds_append]
    exact .cons (e.sound hC he) (Expr.soundAll hC rest hrest)

theorem Expr.soundItems {C : Context} {c : Path} {loops : List Loop} {g : R.Notes}
    (hC : Follows R D C loops g) (items : List (Nat × Expr)) (h : ∀ x ∈ Expr.itemSites c loops items, D.Allows x) :
    Pieces (fun ids x ↦ x.2.Sound R D C c ids g) (tryIds (Expr.itemSites c loops items)) (Expr.loweredItems items) := by
  match items, h with
  | [], _ => exact .nil
  | (_, e) :: rest, h =>
    rw [Expr.itemSites] at h ⊢
    obtain ⟨he, hrest⟩ := forall_mem_append.mp h
    rw [tryIds_append]
    exact .cons (e.sound hC he) (Expr.soundItems hC rest hrest)

theorem Callee.sound {C : Context} {c : Path} {loops : List Loop} {g : R.Notes}
    (hC : Follows R D C loops g) (callee : Callee) (h : ∀ x ∈ callee.sites c loops, D.Allows x) :
    R.Runs C c (tryIds (callee.sites c loops)) g callee.lowered fun _ t ↦
      (∀ pointer, t.1 = .indirect pointer → pointer.IsFree) ∧ ∀ this, t.2 = some this → this.IsFree := by
  match callee, h with
  | .direct label, _ => exact .pure fun _ _ ↦ ⟨fun _ h ↦ (by cases h), fun _ h ↦ (by cases h)⟩
  | .indirect e, h =>
    refine (e.sound hC h).value.last fun _ v _ hv ↦ .pure fun _ _ ↦ ⟨fun _ hp ↦ ?_, fun _ h ↦ (by cases h)⟩
    cases hp
    exact hv
  | .virtualSlot receiver slot, h => exact L.virtualCallee (receiver.sound hC h)

theorem Stmt.sound {C : Context} {c : Path} {loops : List Loop} {g : R.Notes} (hC : Follows R D C loops g) (s : Stmt)
    (h : ∀ x ∈ s.sites c loops, D.Allows x) : s.lowered.Sound R C c (tryIds (s.sites c loops)) g := by
  match s, h with
  | .block i body, h => exact L.ofBlock (Stmt.soundAll hC body h)
  | .expr i e, h => exact L.ofExpr (e.sound hC h)
  | .branch i cond yes no, h =>
    rw [Stmt.sites] at h ⊢
    obtain ⟨hcond, hrest⟩ := forall_mem_append.mp h
    obtain ⟨hyes, hno⟩ := forall_mem_append.mp hrest
    obtain ⟨hsome, hnone⟩ := Stmt.sound? hC no hno
    rw [tryIds_append, tryIds_append]
    exact L.ofRun (L.branch (cond.sound hC hcond) (yes.sound hC hyes) hsome hnone)
  | .whileLoop i cond body, h =>
    rw [Stmt.sites] at h ⊢
    obtain ⟨hcond, hbody⟩ := forall_mem_append.mp h
    rw [tryIds_append]
    refine L.ofRun (L.whileLoop (cond.sound hC hcond) fun g' _ _ hg hexit hnext hsome ↦ ?_)
    exact body.sound ((hC.later L hg).within hexit hnext hsome) hbody
  | .doLoop i body cond, h =>
    rw [Stmt.sites] at h ⊢
    obtain ⟨hbody, hcond⟩ := forall_mem_append.mp h
    rw [tryIds_append]
    refine L.ofRun (L.doLoop (fun g' _ _ hg hexit hnext hsome ↦ ?_) (cond.sound hC hcond))
    exact body.sound ((hC.later L hg).within hexit hnext hsome) hbody
  | .forLoop i init cond step body, h =>
    rw [Stmt.sites] at h ⊢
    obtain ⟨hinit, hrest⟩ := forall_mem_append.mp h
    obtain ⟨hcond, hrest⟩ := forall_mem_append.mp hrest
    obtain ⟨hbody, hstep⟩ := forall_mem_append.mp hrest
    obtain ⟨hinit1, hinit2⟩ := Stmt.sound? hC init hinit
    obtain ⟨hcond1, hcond2⟩ := Expr.sound? hC cond hcond
    obtain ⟨hstep1, hstep2⟩ := Expr.sound? hC step hstep
    rw [tryIds_append, tryIds_append, tryIds_append]
    refine L.ofRun (L.forLoop hinit1 hinit2 hcond1 hcond2 (fun g' _ _ hg hexit hnext hsome ↦ ?_) hstep1 hstep2)
    exact body.sound ((hC.later L hg).within hexit hnext hsome) hbody
  | .switch i value body cases default, h =>
    rw [Stmt.sites] at h ⊢
    obtain ⟨hhere, hrest⟩ := forall_mem_cons.mp h
    obtain ⟨hvalue, hbody⟩ := forall_mem_append.mp hrest
    change (Stmt.lowered _).Sound R C c (tryIds (value.sites c loops ++ body.sites c _)) g
    rw [tryIds_append]
    refine L.ofRun (L.switch (value.sound hC hvalue) (fun g' _ _ hg hexit hnext hsome ↦ ?_) ?_)
    · exact body.sound ((hC.later L hg).within hexit hnext hsome) hbody
    · intro m hm l hl
      obtain ⟨d, hd, hat⟩ := hC.cases m l hl
      exact ⟨d, hat, hhere m hm d hd⟩
  | .caseMarker i marker, h =>
    have hhere := h _ (mem_singleton_self _)
    refine L.ofRun ((Regime.Lawful.caseLabels marker).first fun g' l hg hl ↦ ?_)
    obtain ⟨d, hd, hat⟩ := hC.cases marker l hl
    exact L.marks (L.at_mono hg hat) (hhere d hd)
  | .breakLoop i, h =>
    have hhere := h _ (mem_singleton_self _)
    refine L.ofRun (L.breakLoop hC.fits fun b _ hb ↦ ?_)
    have hall := hC.breakables
    rw [hb] at hall
    cases hall with
    | @cons _ o _ _ hfirst _ =>
      obtain ⟨hscope, hexit, -⟩ := hfirst
      exact ⟨o.path, hexit, hscope ▸ hhere o rfl⟩
  | .continueLoop i, h =>
    have hhere := h _ (mem_singleton_self _)
    refine L.ofRun (L.continueLoop hC.fits fun _ scope _ hnext ↦ ?_)
    obtain ⟨o, ho, rfl, hat⟩ := hC.continues hnext
    exact ⟨o.path, hat, hhere o ho⟩
  | .goto i name, h =>
    have hhere := h _ (mem_singleton_self _)
    refine L.ofRun (L.goto hC.fits fun l scope hl ↦ ?_)
    obtain ⟨d, hd, hat⟩ := hC.labels name l scope hl
    exact ⟨d, hat, hhere d scope hd⟩
  | .label i name body, h =>
    rw [Stmt.sites] at h ⊢
    obtain ⟨hhere, hbody⟩ := forall_mem_cons.mp h
    refine L.ofRun (L.labelled (body.sound hC hbody) fun l scope hl ↦ ?_)
    obtain ⟨d, hd, hat⟩ := hC.labels name l scope hl
    exact ⟨d, hat, hhere d scope hd⟩
  | .ret i value, h =>
    rw [Stmt.sites] at h ⊢
    obtain ⟨hhere, hvalue⟩ := forall_mem_cons.mp h
    obtain ⟨hsome, hnone⟩ := Expr.sound? hC value hvalue
    exact L.ofRun (L.ret hC.fits hhere hsome hnone)
  | .localVar i decl init, h =>
    refine L.ofRun ((L.localSlots decl).first fun g' slot hg _ ↦ ?_)
    exact (init.sound hC h slot).later hg
  | .tryStmt i id body handler cleanup, h =>
    rw [Stmt.sites] at h ⊢
    obtain ⟨hhere, hrest⟩ := forall_mem_cons.mp h
    obtain ⟨hbody, hrest⟩ := forall_mem_append.mp hrest
    obtain ⟨hhandler, hcleanup⟩ := forall_mem_append.mp hrest
    have hisSome : (Stmt.lowered? cleanup).isSome = cleanup.isSome := by cases cleanup <;> rfl
    change (Stmt.lowered _).Sound R C c (id :: tryIds (body.sites _ loops ++ (_ ++ _))) g
    rw [tryIds_append, tryIds_append]
    refine L.ofRun (L.tryStatement hC.fits ?_ (body.sound hC hbody) (Handler.sound? hC handler hhandler)
      (Stmt.sound? hC cleanup hcleanup).1)
    rw [hisSome]
    exact hhere
  | .throwStmt i e, h => exact L.ofRun (L.throws (e.sound hC h))
  | .empty i, _ => exact L.ofRun (.pure fun _ _ ↦ trivial)

theorem Stmt.soundAll {C : Context} {c : Path} {loops : List Loop} {g : R.Notes}
    (hC : Follows R D C loops g) (body : List Stmt) (h : ∀ x ∈ Stmt.allSites c loops body, D.Allows x) :
    Pieces (fun ids s ↦ s.Sound R C c ids g) (tryIds (Stmt.allSites c loops body)) (Stmt.loweredAll body) := by
  match body, h with
  | [], _ => exact .nil
  | s :: rest, h =>
    rw [Stmt.allSites] at h ⊢
    obtain ⟨hs, hrest⟩ := forall_mem_append.mp h
    rw [tryIds_append]
    exact .cons (s.sound hC hs) (Stmt.soundAll hC rest hrest)

theorem Stmt.sound? {C : Context} {c : Path} {loops : List Loop} {g : R.Notes}
    (hC : Follows R D C loops g) (s : Option Stmt) (h : ∀ x ∈ Stmt.sites? c loops s, D.Allows x) :
    (∀ s', Stmt.lowered? s = some s' → s'.Sound R C c (tryIds (Stmt.sites? c loops s)) g) ∧
      (Stmt.lowered? s = none → tryIds (Stmt.sites? c loops s) = []) := by
  match s, h with
  | none, _ => exact ⟨fun s' hs ↦ (by cases hs), fun _ ↦ rfl⟩
  | some s, h =>
    refine ⟨fun s' hs ↦ ?_, fun hs ↦ (by cases hs)⟩
    cases hs
    exact s.sound hC h

theorem Expr.sound? {C : Context} {c : Path} {loops : List Loop} {g : R.Notes}
    (hC : Follows R D C loops g) (e : Option Expr) (h : ∀ x ∈ Expr.sites? c loops e, D.Allows x) :
    (∀ e', Expr.lowered? e = some e' → e'.Sound R D C c (tryIds (Expr.sites? c loops e)) g) ∧
      (Expr.lowered? e = none → tryIds (Expr.sites? c loops e) = []) := by
  match e, h with
  | none, _ => exact ⟨fun e' he ↦ (by cases he), fun _ ↦ rfl⟩
  | some e, h =>
    refine ⟨fun e' he ↦ ?_, fun he ↦ (by cases he)⟩
    cases he
    exact e.sound hC h

theorem Handler.sound? {C : Context} {c : Path} {loops : List Loop} {g : R.Notes}
    (hC : Follows R D C loops g) (handler : Option Handler) (h : ∀ x ∈ Handler.sites? c loops handler, D.Allows x) :
    ∀ v code, Handler.lowered? handler = some (v, code) →
      code.Sound R C c (tryIds (Handler.sites? c loops handler)) g := by
  match handler, h with
  | none, _ => exact fun v _ hs ↦ (by cases hs)
  | some (.mk var body), h =>
    intro v _ hs
    cases hs
    exact body.sound hC h

theorem LocalInit.sound {C : Context} {c : Path} {loops : List Loop} {g : R.Notes}
    (hC : Follows R D C loops g) (init : LocalInit) (h : ∀ x ∈ init.sites c loops, D.Allows x) (slot : SlotId) :
    R.Runs C c (tryIds (init.sites c loops)) g (init.lowered slot) fun _ _ ↦ True := by
  match init, h with
  | .uninitialized, _ => exact .pure fun _ _ ↦ trivial
  | .construct id, _ => exact L.constructs (Place.isFree_slot slot 0)
  | .value e, h => exact L.assignTo (e.sound hC h) (Place.isFree_slot slot 0)
  | .aggregate tables constructs items, h => exact L.aggregate (Expr.soundItems hC items h)

end

end

end W16Compiler
