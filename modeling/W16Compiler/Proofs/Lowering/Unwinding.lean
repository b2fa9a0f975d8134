import W16Compiler.Proofs.Lowering.Scoped
import W16Compiler.Proofs.Prim.Rewriting

/-!
# Exceptions and cleanups at run time

In a run of a nested flow list the chain of exception records and the links of cleanups are what the point
that control has got to asks for. What a step does to the try statements around is said once, and all that
is known of whole runs follows from it.
-/

namespace W16Compiler

open Lowering List Function Prim Flow PrimState

def Prim.keepsTries : Prim → Bool
  | .tryBegin .. | .tryEnd .. | .cleanupCall .. | .cleanupEntry .. | .cleanupReturn .. => false
  | _ => true

lemma Prim.keepsTries_of_isSteady {p : Prim} (h : p.isSteady) : p.keepsTries := by
  cases p <;> first | rfl | cases h

variable {V : Type} {W : World V} {st st' st1 : PrimState V} {p : Prim} {g : Notes} {flow rest rest' : Flow} {l : Label}
  {K : Context} {scopes : TryId → ScopeId} {stand : Flow → Standing} {linked linked' : SlotId → Label → Prop}
  {q : Item Prim} {k : Nat}

def PrimState.control (st : PrimState V) : Option SlotId × (SlotId → Option TryRecord) × (SlotId → Option Label) :=
  (st.mark, st.records, st.links)

lemma PrimState.control_store (M : Model V) (st : PrimState V) (result : Option (Place × Rep)) (value : Nat → V) :
    (st.store M result value).control = st.control := by
  cases result <;> rfl

lemma Prim.control_receive (M : Model V) (st : PrimState V) (value : V) (p : Prim) :
    (p.receive M st value).control = st.control := by
  unfold receive
  split <;> rfl

lemma Prim.act_of_isSteady (hp : p.isSteady) (past : List (CallEvent V)) (st : PrimState V) :
    ∃ st', p.act W past st = (none, .next st') ∧ st'.control = st.control := by
  cases p <;> first | exact ⟨_, rfl, rfl⟩ | cases hp

def Move.stores : Move V → Option ((SlotId → Option TryRecord) × (SlotId → Option Label))
  | .next st | .goto _ st | .handle _ _ st => some (st.records, st.links)
  | .finish _ => none

lemma PrimState.stores_raise {value : V}
    {stores : (SlotId → Option TryRecord) × (SlotId → Option Label)} (h : (st.raise W value).stores = some stores) :
    stores = (st.records, st.links) := by
  unfold raise at h
  split at h
  · cases h
  · split at h <;> cases h
    rfl

lemma Prim.stores_act {past : List (CallEvent V)} {records : SlotId → Option TryRecord}
    {links : SlotId → Option Label} (h : (p.act W past st).2.stores = some (records, links)) :
    (records = st.records ∨ ∃ slot handler, p = .tryBegin slot handler ∧
      records = update st.records slot (some ⟨st.mark, handler, st.sp⟩)) ∧
    (links = st.links ∨ ∃ start link resume, p = .cleanupCall start link resume ∧
      links = update st.links link (some resume)) := by
  cases p with
  | compare | test =>
    simp only [act] at h
    split at h <;> cases h <;> exact ⟨.inl rfl, .inl rfl⟩
  | call target words result =>
    simp only [act] at h
    cases hanswer : W.answer (st.callEvent W target words :: past) with
    | throws change value =>
      rw [hanswer, afterCall] at h
      cases stores_raise h
      exact ⟨.inl rfl, .inl rfl⟩
    | returns change values =>
      rw [hanswer, afterCall] at h
      cases h
      cases result <;> exact ⟨.inl rfl, .inl rfl⟩
  | throwValue =>
    cases stores_raise h
    exact ⟨.inl rfl, .inl rfl⟩
  | tryBegin slot handler =>
    cases h
    exact ⟨.inr ⟨slot, handler, rfl, rfl⟩, .inl rfl⟩
  | tryEnd | cleanupReturn =>
    simp only [act] at h
    split at h <;> cases h
    exact ⟨.inl rfl, .inl rfl⟩
  | cleanupCall start link resume =>
    cases h
    exact ⟨.inl rfl, .inr ⟨start, link, resume, rfl, rfl⟩⟩
  | ret => cases h
  | _ =>
    cases h
    exact ⟨.inl rfl, .inl rfl⟩

lemma Flow.stores_follow {flow rest rest' : Flow} {m : Move V}
    (h : flow.follow M rest m = .running (rest', st)) : m.stores = some (st.records, st.links) := by
  cases m with
  | next => cases h; rfl
  | finish => cases h
  | goto =>
    simp only [follow] at h
    split at h <;> cases h
    rfl
  | handle l value st1 =>
    simp only [follow] at h
    split at h <;> cases h
    exact congrArg (fun c ↦ some c.2) (control_receive M st1 value _).symm

namespace Lowering.Notes

variable {X Y Z : Standing} {id : TryId} {t : Started} {x : Layer}

/-! ## Points of a flow list -/

structure Places (g : Notes) (flow : Flow) (stand : Flow → Standing) : Prop where
  start : stand flow = []
  node : ∀ p rest, p :: rest <:+ flow → g.Admits (stand (p :: rest)) p.value (stand rest)

lemma Leads.exists_stand (h : g.Leads X flow Z) : ∃ stand : Flow → Standing, stand flow = X ∧
    ∀ p rest, p :: rest <:+ flow → g.Admits (stand (p :: rest)) p.value (stand rest) := by
  induction h with
  | @nil X => exact ⟨fun _ ↦ X, rfl, fun p rest h ↦ by cases suffix_nil.mp h⟩
  | @cons X _ _ _ rest hp _ ih =>
    obtain ⟨stand, hstart, hnode⟩ := ih
    -- The points of a flow list differ in length.
    refine ⟨fun r ↦ if r.length = rest.length + 1 then X else stand r, if_pos rfl, fun p' rest' h ↦ ?_⟩
    dsimp only
    rcases suffix_cons_iff.mp h with heq | hsuffix
    · cases heq
      rw [if_pos length_cons, if_neg (by omega), hstart]
      exact hp
    · have hlength := hsuffix.length_le
      rw [length_cons] at hlength
      rw [if_neg (by rw [length_cons]; omega), if_neg (by omega)]
      exact hnode p' rest' hsuffix

lemma Coherent.ne_of_mem_outer (h : g.Coherent K scopes) (ht : (id, t) ∈ g.tries) (hx : x ∈ t.outer) : x.id ≠ id := by
  rintro rfl
  rw [h.outer _ ht] at hx
  obtain ⟨⟨id, part⟩, hmem, hlayer⟩ := mem_filterMap.mp hx
  have hid : x.id = id := by rcases Context.layer_cases hlayer with rfl | rfl <;> rfl
  exact h.apart _ ht (mem_map.mpr ⟨(id, part), hmem, hid.symm⟩)

lemma Coherent.settled_outer (h : g.Coherent K scopes) (ht : (id, t) ∈ g.tries) : t.outer.Settled :=
  h.outer _ ht ▸ Context.settled_standing _

/-! ## What a step does -/

/-- A node is executed at a point, and control gets to another one. -/
inductive Turns (g : Notes) : Standing → Prim → Standing → Prop where
  | moves {X Z : Standing} {p : Prim} (hp : p.keepsTries) (h : X.Sheds Z) : Turns g X p Z
  /-- An exception leaves cleanups and goes to the innermost handler. -/
  | raises {e : Standing} {id : TryId} {t : Started} {p : Prim} (hp : p.keepsTries) (ht : (id, t) ∈ g.tries)
    (he : ∀ x ∈ e, x.isCleaning) : Turns g (e ++ .guarded id :: t.outer) p (t.raised id)
  | begins {X : Standing} {id : TryId} {t : Started} {h : Label} (ht : (id, t) ∈ g.tries)
    (hX : X = t.outer ∨ X = t.raised id) : Turns g X (.tryBegin t.record h) (.guarded id :: t.outer)
  | ends {id : TryId} {t : Started} (ht : (id, t) ∈ g.tries) :
    Turns g (.guarded id :: t.outer) (.tryEnd t.record) (t.raised id)
  | calls {id : TryId} {t : Started} {start resume : Label} {link : SlotId} (ht : (id, t) ∈ g.tries)
    (hcleanup : t.cleanup = some (start, link)) :
    Turns g (.due id :: t.outer) (.cleanupCall start link resume) (.entering id :: t.outer)
  | enters {id : TryId} {t : Started} {start : Label} {link : SlotId} (ht : (id, t) ∈ g.tries)
    (hcleanup : t.cleanup = some (start, link)) :
    Turns g (.entering id :: t.outer) (.cleanupEntry start link) (.cleaning id :: t.outer)
  | resumes {id : TryId} {t : Started} {start : Label} {link : SlotId} {resumes : List Label} (ht : (id, t) ∈ g.tries)
    (hcleanup : t.cleanup = some (start, link)) :
    Turns g (.cleaning id :: t.outer) (.cleanupReturn link resumes) t.outer

/-- The chain of records and the links are what a standing asks for: the record of every statement that
protects is on the chain with a handler of the statement, and the link of every cleanup that has been called
leads behind the statement. -/
inductive Backs (g : Notes) (records : SlotId → Option TryRecord) (linked : SlotId → Label → Prop) :
    Option SlotId → Standing → Prop where
  | nil : Backs g records linked none []
  | guarded {id : TryId} {t : Started} {r : TryRecord} (ht : (id, t) ∈ g.tries) (hr : records t.record = some r)
    (hh : g.labels r.handler = some (t.raised id)) (h : Backs g records linked r.outer t.outer) :
    Backs g records linked (some t.record) (.guarded id :: t.outer)
  | due {mark : Option SlotId} {id : TryId} {t : Started} (ht : (id, t) ∈ g.tries)
    (h : Backs g records linked mark t.outer) : Backs g records linked mark (.due id :: t.outer)
  | called {mark : Option SlotId} {x : Layer} {t : Started} {start l : Label} {link : SlotId}
    (ht : (x.id, t) ∈ g.tries) (hx : x = .entering x.id ∨ x = .cleaning x.id)
    (hcleanup : t.cleanup = some (start, link)) (hl : linked link l) (hlabel : g.labels l = some t.outer)
    (h : Backs g records linked mark t.outer) : Backs g records linked mark (x :: t.outer)

/-- What is known of links after a node is executed. -/
structure Carries (p : Prim) (linked linked' : SlotId → Label → Prop) : Prop where
  keep : ∀ link l, (∀ start resume, p ≠ .cleanupCall start link resume) →
    (∀ resumes, p ≠ .cleanupReturn link resumes) → linked link l → linked' link l
  call : ∀ start link resume, p = .cleanupCall start link resume → linked' link resume

lemma Carries.of_keepsTries {linked linked' : SlotId → Label → Prop} (h : Carries p linked linked')
    (hp : p.keepsTries) (link : SlotId) (l : Label) : linked link l → linked' link l :=
  h.keep link l (fun _ _ heq ↦ by rw [heq] at hp; cases hp) fun _ heq ↦ by rw [heq] at hp; cases hp

namespace Backs

variable {records records' : SlotId → Option TryRecord} {mark : Option SlotId}
  (h : g.Backs records linked mark X)

include h

lemma congr (hrecords : ∀ x ∈ X, ∀ t, (x.id, t) ∈ g.tries → records' t.record = records t.record)
    (hlinked : ∀ x ∈ X, ∀ t start link, (x.id, t) ∈ g.tries → t.cleanup = some (start, link) →
      ∀ l, linked link l → linked' link l) : g.Backs records' linked' mark X := by
  induction h with
  | nil => exact .nil
  | guarded ht hr hh _ ih =>
    obtain ⟨hrecord, hrecords⟩ := forall_mem_cons.mp hrecords
    exact .guarded ht ((hrecord _ ht).trans hr) hh (ih hrecords (forall_mem_cons.mp hlinked).2)
  | due ht _ ih => exact .due ht (ih (forall_mem_cons.mp hrecords).2 (forall_mem_cons.mp hlinked).2)
  | called ht hx hcleanup hl hlabel _ ih =>
    obtain ⟨hlink, hlinked⟩ := forall_mem_cons.mp hlinked
    exact .called ht hx hcleanup (hlink _ _ _ ht hcleanup _ hl) hlabel (ih (forall_mem_cons.mp hrecords).2 hlinked)

lemma mono (hlinked : ∀ link l, linked link l → linked' link l) : g.Backs records linked' mark X :=
  h.congr (fun _ _ _ _ ↦ rfl) fun _ _ _ _ link _ _ l ↦ hlinked link l

lemma sheds (hshed : X.Sheds Z) : g.Backs records linked mark Z := by
  obtain ⟨e, rfl, he⟩ := hshed
  induction e with
  | nil => exact h
  | cons x e ih =>
    obtain ⟨hx, he⟩ := forall_mem_cons.mp he
    rw [cons_append] at h
    generalize htail : e ++ Z = Y at h ih
    cases h with
    | guarded => cases hx
    | due => cases hx
    | called _ _ _ _ _ h => exact ih he h

lemma raise (hX : X.Settled) :
    (mark = none ∧ X.Sheds []) ∨ ∃ e id t r, (id, t) ∈ g.tries ∧ X = e ++ .guarded id :: t.outer ∧
      (∀ x ∈ e, x.isCleaning) ∧ mark = some t.record ∧ records t.record = some r ∧
      g.labels r.handler = some (t.raised id) ∧ g.Backs records linked r.outer t.outer := by
  induction h with
  | nil => exact .inl ⟨rfl, .refl []⟩
  | @guarded id t r ht hr hh h _ => exact .inr ⟨[], id, t, r, ht, rfl, fun _ hx ↦ (not_mem_nil hx).elim, rfl, hr, hh, h⟩
  | due => cases (forall_mem_cons.mp hX).1
  | @called _ x _ _ _ _ _ hx _ _ _ _ ih =>
    obtain ⟨hfirst, hrest⟩ := forall_mem_cons.mp hX
    have hcleaning : x.isCleaning := by
      rcases hx with heq | heq
      · rw [heq] at hfirst
        cases hfirst
      · rw [heq]
        rfl
    rcases ih hrest with ⟨hmark, hshed⟩ | ⟨e, id', t', r, ht', heq, he, hmore⟩
    · exact .inl ⟨hmark, hshed.cons hcleaning⟩
    · exact .inr ⟨x :: e, id', t', r, ht', congrArg _ heq, forall_mem_cons.mpr ⟨hcleaning, he⟩, hmore⟩

omit h

lemma raised (h : g.Backs records linked mark t.outer) (ht : (id, t) ∈ g.tries) :
    g.Backs records linked mark (t.raised id) := by
  unfold Started.raised
  split
  · exact .due ht h
  · exact h

lemma of_guarded (hcoherent : g.Coherent K scopes) (ht : (id, t) ∈ g.tries)
    (h : g.Backs records linked mark (.guarded id :: t.outer)) :
    ∃ r, mark = some t.record ∧ records t.record = some r ∧ g.labels r.handler = some (t.raised id) ∧
      g.Backs records linked r.outer t.outer := by
  generalize hX : Layer.guarded id :: t.outer = X at h
  cases h with
  | nil => cases hX
  | @guarded _ _ r ht' hr hh h =>
    cases (cons.inj hX).1
    cases hcoherent.unique ht ht' rfl
    exact ⟨r, rfl, hr, hh, h⟩
  | due => cases hX
  | called _ hx => rcases hx with hx | hx <;> rw [hx] at hX <;> cases hX

lemma of_raised (hcoherent : g.Coherent K scopes) (ht : (id, t) ∈ g.tries)
    (h : g.Backs records linked mark (t.raised id)) : g.Backs records linked mark t.outer := by
  unfold Started.raised at h
  split at h
  · generalize hX : Layer.due id :: t.outer = X at h
    cases h with
    | nil => cases hX
    | guarded => cases hX
    | due ht' h =>
      cases (cons.inj hX).1
      cases hcoherent.unique ht ht' rfl
      exact h
    | called _ hx => rcases hx with hx | hx <;> rw [hx] at hX <;> cases hX
  · exact h

lemma of_called {start : Label} {link : SlotId} (h : g.Backs records linked mark (x :: t.outer))
    (hcoherent : g.Coherent K scopes) (ht : (x.id, t) ∈ g.tries) (hcleanup : t.cleanup = some (start, link))
    (hx : x = .entering x.id ∨ x = .cleaning x.id) :
    ∃ l, linked link l ∧ g.labels l = some t.outer ∧ g.Backs records linked mark t.outer := by
  generalize hX : x :: t.outer = X at h
  cases h with
  | nil => cases hX
  | guarded | due => cases (cons.inj hX).1; rcases hx with hx | hx <;> cases hx
  | @called _ _ _ _ l _ ht' _ hcleanup' hl hlabel h =>
    cases (cons.inj hX).1
    cases hcoherent.unique ht ht' rfl
    cases hcleanup.symm.trans hcleanup'
    exact ⟨l, hl, hlabel, h⟩

lemma nodup (hcoherent : g.Coherent K scopes) (h : g.Backs records linked mark X) : (X.map Layer.id).Nodup := by
  have hcons : ∀ {x : Layer} {t : Started}, (x.id, t) ∈ g.tries → (t.outer.map Layer.id).Nodup →
      ((x :: t.outer).map Layer.id).Nodup := by
    intro x t ht hnodup
    refine nodup_cons.mpr ⟨fun hmem ↦ ?_, hnodup⟩
    obtain ⟨y, hy, heq⟩ := mem_map.mp hmem
    exact hcoherent.ne_of_mem_outer ht hy heq
  induction h with
  | nil => exact .nil
  | guarded ht _ _ _ ih | due ht _ ih | called ht _ _ _ _ _ ih => exact hcons ht ih

end Backs

/-! ## Steps -/

variable {past : List (CallEvent V)} {value : V}

/-- A step gets to a point that its state suits. -/
structure Lands (g : Notes) (flow : Flow) (stand : Flow → Standing) (linked : SlotId → Label → Prop) (X : Standing)
    (p : Prim) (rest : Flow) (st : PrimState V) : Prop where
  suffix : rest <:+ flow
  turns : g.Turns X p (stand rest)
  backs : g.Backs st.records linked st.mark (stand rest)

lemma Backs.control (h : g.Backs st.records linked st.mark X) (hcontrol : st'.control = st.control) :
    g.Backs st'.records linked st'.mark X := by
  obtain ⟨hmark, hrest⟩ := Prod.mk.inj hcontrol
  obtain ⟨hrecords, -⟩ := Prod.mk.inj hrest
  rwa [hmark, hrecords]

namespace Places

lemma next (hsuffix : rest <:+ flow) (hturns : g.Turns X p (stand rest))
    (hbacks : g.Backs st.records linked st.mark (stand rest))
    (hfollow : flow.follow W.toModel rest (.next st) = .running (rest', st')) :
    g.Lands flow stand linked X p rest' st' := by
  cases hfollow
  exact ⟨hsuffix, hturns, hbacks⟩

variable (hplaces : g.Places flow stand)

include hplaces

lemma stand_of_seek (hl : g.labels l = some Z) (hseek : flow.seek l = some found) : stand found = Z := by
  obtain ⟨q, tail, rfl, hq⟩ := seek_head hseek
  have hlabel := (hplaces.node q tail (seek_suffix hseek)).labels_of_definedLabel hq
  exact Option.some.inj (hlabel.symm.trans hl)

lemma goto (hl : g.labels l = some Z) (hturns : g.Turns X p Z) (hbacks : g.Backs st.records linked st.mark Z)
    (hfollow : flow.follow W.toModel rest (.goto l st) = .running (rest', st')) :
    g.Lands flow stand linked X p rest' st' := by
  simp only [follow] at hfollow
  split at hfollow
  · rename_i found hseek
    cases hfollow
    have hstand := hplaces.stand_of_seek hl hseek
    exact ⟨seek_suffix hseek, hstand.symm ▸ hturns, hstand.symm ▸ hbacks⟩
  · cases hfollow

lemma handle (hl : g.labels l = some Z) (hZ : ∀ id Y, Z ≠ .entering id :: Y)
    (hturns : g.Turns X p Z) (hbacks : g.Backs st.records linked st.mark Z)
    (hfollow : flow.follow W.toModel rest (.handle l value st) = .running (rest', st')) :
    g.Lands flow stand linked X p rest' st' := by
  simp only [follow] at hfollow
  split at hfollow
  · rename_i q found hseek
    cases hfollow
    obtain ⟨_, _, heq, hq⟩ := seek_head hseek
    cases heq
    have hsuffix := seek_suffix hseek
    have hnode := hplaces.node q rest' hsuffix
    have hstand : stand rest' = Z := by
      cases hl.symm.trans (hnode.labels_of_definedLabel hq)
      generalize q.value = p at hnode hq
      generalize stand (q :: rest') = X at hnode hZ
      generalize stand rest' = Y at hnode
      cases hnode with
      | steady hp => cases (definedLabel_of_isSteady hp).symm.trans hq
      | label => rfl
      | catchEntry => rfl
      | cleanupEntry => exact (hZ _ _ rfl).elim
      | _ => cases hq
    refine ⟨(suffix_cons q rest').trans hsuffix, hstand.symm ▸ hturns, hstand.symm ▸ ?_⟩
    exact hbacks.control (control_receive _ _ _ _)
  · cases hfollow

lemma raise (hcoherent : g.Coherent K scopes) (hp : p.keepsTries) (hX : X.Settled)
    (hbacks : g.Backs st.records linked st.mark X)
    (hfollow : flow.follow W.toModel rest (st.raise W value) = .running (rest', st')) :
    g.Lands flow stand linked X p rest' st' := by
  rcases hbacks.raise hX with ⟨hmark, -⟩ | ⟨e, _, t, r, ht, rfl, he, hmark, hr, hh, hback⟩
  · simp only [PrimState.raise, hmark] at hfollow
    cases hfollow
  · simp only [raise, hmark, hr] at hfollow
    refine hplaces.handle hh (fun id' Y heq ↦ ?_) (.raises hp ht he) ?_ hfollow
    · have hsettled := hcoherent.settled_outer ht
      unfold Started.raised at heq
      split at heq
      · cases heq
      · rw [heq] at hsettled
        cases hsettled _ mem_cons_self
    · exact hback.raised ht

lemma step (hcoherent : g.Coherent K scopes)
    (hsuffix : q :: rest <:+ flow) (hbacks : g.Backs st.records linked st.mark (stand (q :: rest)))
    (hlinks : ∀ link l, linked link l → st.links link = some l) (hcarries : Carries q.value linked linked')
    (hfollow : flow.follow W.toModel rest (q.value.act W past st).2 = .running (rest', st')) :
    g.Lands flow stand linked' (stand (q :: rest)) q.value rest' st' := by
  have hadmits := hplaces.node q rest hsuffix
  have hrest : rest <:+ flow := (suffix_cons q rest).trans hsuffix
  generalize q.value = p at hadmits hcarries hfollow ⊢
  generalize stand (q :: rest) = X at hadmits hbacks ⊢
  generalize hY : stand rest = Y at hadmits
  have hfresh : ∀ {id t start link}, (id, t) ∈ g.tries → t.cleanup = some (start, link) →
      ∀ x ∈ t.outer, ∀ t' start' link', (x.id, t') ∈ g.tries → t'.cleanup = some (start', link') → link' ≠ link := by
    rintro _ t start link ht hcleanup x hx t' start' link' ht' hcleanup' rfl
    have heq := hcoherent.links _ ht' _ ht start' start link' hcleanup' hcleanup
    exact hcoherent.ne_of_mem_outer ht hx (congrArg Prod.fst heq)
  cases hadmits with
  | steady hp =>
    have hkeeps := keepsTries_of_isSteady hp
    obtain ⟨_, hact, hcontrol⟩ := act_of_isSteady (W := W) hp past st
    rw [hact] at hfollow
    refine next hrest (hY ▸ .moves hkeeps (.refl _)) (hY ▸ ?_) hfollow
    exact (hbacks.control hcontrol).mono (hcarries.of_keepsTries hkeeps)
  | call hX =>
    have hback := hbacks.mono (hcarries.of_keepsTries rfl)
    simp only [act] at hfollow
    cases hanswer : W.answer (st.callEvent W _ _ :: past) with
    | throws change value =>
      rw [hanswer, afterCall] at hfollow
      have hchanged : g.Backs (st.changed change).records linked' (st.changed change).mark _ := hback
      exact hplaces.raise hcoherent rfl hX hchanged hfollow
    | returns change values =>
      rw [hanswer, afterCall] at hfollow
      exact next hrest (hY ▸ .moves rfl (.refl _)) (hY ▸ hback.control (control_store _ _ _ _)) hfollow
  | label | catchEntry =>
    exact next hrest (hY ▸ .moves rfl (.refl _)) (hY ▸ hbacks.mono (hcarries.of_keepsTries rfl)) hfollow
  | compare hl hshed | test hl hshed =>
    have hback := hbacks.mono (hcarries.of_keepsTries rfl)
    simp only [act] at hfollow
    split at hfollow
    all_goals first
      | exact hplaces.goto hl (.moves rfl hshed) (hback.sheds hshed) hfollow
      | exact next hrest (hY ▸ .moves rfl (.refl _)) (hY ▸ hback) hfollow
  | jump hl hshed =>
    exact hplaces.goto hl (.moves rfl hshed) ((hbacks.mono (hcarries.of_keepsTries rfl)).sheds hshed) hfollow
  | throwValue hX => exact hplaces.raise hcoherent rfl hX (hbacks.mono (hcarries.of_keepsTries rfl)) hfollow
  | ret => cases hfollow
  | @tryBegin _ _ t h ht hX hh =>
    have houter : g.Backs st.records linked st.mark t.outer := by
      rcases hX with rfl | rfl
      · exact hbacks
      · exact hbacks.of_raised hcoherent ht
    refine next hrest (hY ▸ .begins ht hX) (hY ▸ .guarded ht (update_self _ _ _) hh ?_) hfollow
    refine houter.congr (fun x hx t' ht' ↦ update_of_ne (fun heq ↦ ?_) _ _) fun _ _ _ _ link _ _ l hl ↦ ?_
    · have heq := hcoherent.records _ ht' _ ht heq
      exact hcoherent.ne_of_mem_outer ht hx (congrArg Prod.fst heq)
    · exact hcarries.keep link l (fun _ _ h ↦ by cases h) (fun _ h ↦ by cases h) hl
  | @tryEnd _ _ ht =>
    have hlinked : ∀ link l, linked link l → linked' link l := fun link l ↦
      hcarries.keep link l (fun _ _ h ↦ by cases h) fun _ h ↦ by cases h
    obtain ⟨r, -, hr, -, hback⟩ := hbacks.of_guarded hcoherent ht
    simp only [act, hr] at hfollow
    exact next hrest (hY ▸ .ends ht) (hY ▸ (hback.mono hlinked).raised ht) hfollow
  | @cleanupCall _ _ t _ _ _ ht hcleanup hstart hresume =>
    have houter : g.Backs st.records linked st.mark t.outer := by
      refine .of_raised hcoherent ht ?_
      rwa [Started.raised, hcleanup]
    refine hplaces.goto hstart (.calls ht hcleanup)
      (.called ht (.inl rfl) hcleanup (hcarries.call _ _ _ rfl) hresume ?_)
      hfollow
    refine houter.congr (fun _ _ _ _ ↦ rfl) fun x hx t' start' link' ht' hcleanup' l hl ↦ ?_
    have hne := hfresh ht hcleanup x hx t' start' link' ht' hcleanup'
    exact hcarries.keep link' l (fun _ _ h ↦ by cases h; exact hne rfl) (fun _ h ↦ by cases h) hl
  | @cleanupEntry _ _ _ link ht hcleanup =>
    have hlinked : ∀ link l, linked link l → linked' link l := fun link l ↦
      hcarries.keep link l (fun _ _ h ↦ by cases h) fun _ h ↦ by cases h
    obtain ⟨l, hl, hlabel, hback⟩ := hbacks.of_called hcoherent ht hcleanup (.inl rfl)
    refine next hrest (hY ▸ .enters ht hcleanup) (hY ▸ ?_) hfollow
    exact .called ht (.inr rfl) hcleanup (hlinked _ _ hl) hlabel (hback.mono hlinked)
  | @cleanupReturn _ _ _ _ link resumes ht hcleanup =>
    obtain ⟨l, hl, hlabel, hback⟩ := hbacks.of_called hcoherent ht hcleanup (.inr rfl)
    simp only [act, hlinks link l hl] at hfollow
    refine hplaces.goto hlabel (.resumes ht hcleanup) ?_ hfollow
    refine hback.congr (fun _ _ _ _ ↦ rfl) fun x hx t' start' link' ht' hcleanup' l' hl' ↦ ?_
    have hne := hfresh ht hcleanup x hx t' start' link' ht' hcleanup'
    exact hcarries.keep link' l' (fun _ _ h ↦ by cases h) (fun _ h ↦ by cases h; exact hne rfl) hl'

lemma finish (hsuffix : q :: rest <:+ flow)
    (hbacks : g.Backs st.records linked st.mark (stand (q :: rest))) (ho : o ≠ .wild)
    (hfollow : flow.follow W.toModel rest (q.value.act W past st).2 = .ended o) : (stand (q :: rest)).Sheds [] := by
  have hadmits := hplaces.node q rest hsuffix
  have hgoto : ∀ l st1, flow.follow W.toModel rest (.goto l st1) ≠ .ended o := by
    intro l st1 h
    simp only [follow] at h
    split at h <;> cases h
    exact ho rfl
  have hraise : ∀ (st1 : PrimState V) value, st1.mark = st.mark → st1.records = st.records →
    (stand (q :: rest)).Settled →
      flow.follow W.toModel rest (st1.raise W value) = .ended o → (stand (q :: rest)).Sheds [] := by
    intro st1 value hmark hrecords hX h
    rcases hbacks.raise hX with ⟨-, hshed⟩ | ⟨_, _, t, r, -, -, -, hsome, hr, -⟩
    · exact hshed
    · simp only [PrimState.raise, hmark, hrecords, hsome, hr, Flow.follow] at h
      split at h <;> cases h
      exact (ho rfl).elim
  generalize q.value = p at hadmits hfollow
  generalize stand (q :: rest) = X at hadmits hbacks hraise ⊢
  generalize stand rest = Y at hadmits
  cases hadmits with
  | steady hp =>
    obtain ⟨_, hact, -⟩ := act_of_isSteady (W := W) hp past st
    rw [hact] at hfollow
    cases hfollow
  | call hX =>
    simp only [act] at hfollow
    cases hanswer : W.answer (st.callEvent W _ _ :: past) with
    | throws change value =>
      rw [hanswer, afterCall] at hfollow
      exact hraise (st.changed change) value rfl rfl hX hfollow
    | returns change values =>
      rw [hanswer, afterCall] at hfollow
      cases hfollow
  | compare | test =>
    simp only [act] at hfollow
    split at hfollow
    all_goals first
      | exact (hgoto _ _ hfollow).elim
      | cases hfollow
  | jump => exact (hgoto _ _ hfollow).elim
  | throwValue hX => exact hraise _ _ rfl rfl hX hfollow
  | ret hshed => exact hshed
  | tryEnd =>
    simp only [act] at hfollow
    split at hfollow <;> cases hfollow
    exact (ho rfl).elim
  | cleanupCall => exact (hgoto _ _ hfollow).elim
  | cleanupReturn =>
    simp only [act] at hfollow
    split at hfollow
    · exact (hgoto _ _ hfollow).elim
    · cases hfollow
      exact (ho rfl).elim
  | label | catchEntry | tryBegin | cleanupEntry => cases hfollow

end Places

end Lowering.Notes

/-! ## Runs -/

namespace Flow

variable (W : World V) (flow : Flow) (st : PrimState V)

def statusAt (k : Nat) : Status (Flow × PrimState V) (PrimOutcome V) := ((flow.process W).run (flow, st) k).status

/-- The node that the run has come to. -/
def nodeAt (k : Nat) : Option Prim :=
  match flow.statusAt W st k with
  | .running (p :: _, _) => some p.value
  | _ => none

/-- A cleanup has been called to go on at a label, and it has not ended since. -/
def Awaits (k : Nat) (link : SlotId) (l : Label) : Prop :=
  ∃ m < k, (∃ start, flow.nodeAt W st m = some (.cleanupCall start link l)) ∧
    ∀ j, m < j → j < k → ∀ resumes, flow.nodeAt W st j ≠ some (.cleanupReturn link resumes)

variable {W flow st} {link : SlotId}

lemma nodeAt_of_running (h : flow.statusAt W st k = .running (q :: rest, st1)) :
    flow.nodeAt W st k = some q.value := by
  rw [nodeAt, h]

lemma exists_of_nodeAt {p : Prim} (h : flow.nodeAt W st k = some p) :
    ∃ q rest st1, flow.statusAt W st k = .running (q :: rest, st1) ∧ q.value = p := by
  unfold nodeAt at h
  split at h
  · rename_i q rest st1 hstatus
    exact ⟨q, rest, st1, hstatus, Option.some.inj h⟩
  · cases h

lemma statusAt_succ (h : flow.statusAt W st k = .running (q :: rest, st1)) :
    ∃ past, flow.statusAt W st (k + 1) = flow.follow W.toModel rest (q.value.act W past st1).2 := by
  unfold statusAt at h ⊢
  rw [Process.run_succ]
  generalize (flow.process W).run (flow, st) k = c at h ⊢
  obtain ⟨_, past⟩ := c
  cases h
  exact ⟨past, rfl⟩

lemma statusAt_succ_nil (h : flow.statusAt W st k = .running ([], st1)) :
    flow.statusAt W st (k + 1) = .ended .wild := by
  unfold statusAt at h ⊢
  rw [Process.run_succ]
  generalize (flow.process W).run (flow, st) k = c at h ⊢
  obtain ⟨_, _⟩ := c
  cases h
  rfl

lemma exists_of_running_succ (h : flow.statusAt W st (k + 1) = .running (rest', st')) :
    ∃ q rest st1, flow.statusAt W st k = .running (q :: rest, st1) := by
  unfold statusAt at h ⊢
  rw [Process.run_succ] at h
  generalize (flow.process W).run (flow, st) k = c at h ⊢
  obtain ⟨status, _⟩ := c
  cases status with
  | ended o => cases h
  | running s =>
    obtain ⟨rest, st1⟩ := s
    cases rest with
    | nil => cases h
    | cons q rest => exact ⟨q, rest, st1, rfl⟩

end Flow

namespace Lowering.Notes.Places

variable {mem : Cell → V} {sp : Word}

def linkedAt (W : World V) (flow : Flow) (st₀ : PrimState V) (k : Nat) (st : PrimState V) (link : SlotId) (l : Label) :
    Prop :=
  st.links link = some l ∧ flow.Awaits W st₀ k link l

lemma carries_linkedAt {past : List (CallEvent V)} (hstatus : flow.statusAt W st0 k = .running (q :: rest, st))
    (hfollow : flow.follow W.toModel rest (q.value.act W past st).2 = .running (rest', st')) :
    Carries q.value (linkedAt W flow st0 k st) (linkedAt W flow st0 (k + 1) st') where
  keep link l hcall hreturn h := by
    obtain ⟨hl, m, hm, hnode, hbetween⟩ := h
    have hkept : st'.links link = st.links link := by
      rcases (stores_act (stores_follow hfollow)).2 with heq | ⟨start, link', resume, heq, hlinks⟩
      · rw [heq]
      · have hne : link ≠ link' := fun hlink ↦ hcall start resume (by rw [heq, hlink])
        rw [hlinks, update_of_ne hne]
    refine ⟨hkept.trans hl, m, Nat.lt_succ_of_lt hm, hnode, fun j hmj hjk resumes heq ↦ ?_⟩
    rcases Nat.lt_succ_iff_lt_or_eq.mp hjk with hlt | rfl
    · exact hbetween j hmj hlt resumes heq
    · rw [nodeAt_of_running hstatus] at heq
      exact hreturn resumes (Option.some.inj heq)
  call start link resume heq := by
    refine ⟨?_, k, Nat.lt_succ_self k, ⟨start, heq ▸ nodeAt_of_running hstatus⟩, fun j hkj hjk ↦ by omega⟩
    rw [heq] at hfollow
    simp only [act, follow] at hfollow
    split at hfollow <;> cases hfollow
    exact update_self _ _ _

lemma records_run {r : TryRecord} (h : flow.statusAt W (.initial mem sp) k = .running (rest, st))
    (hr : st.records slot = some r) : ∃ m < k, flow.nodeAt W (.initial mem sp) m = some (.tryBegin slot r.handler) := by
  induction k generalizing rest st with
  | zero =>
    cases h
    cases hr
  | succ k ih =>
    obtain ⟨q, _, st1, hstatus⟩ := exists_of_running_succ h
    obtain ⟨_, hsucc⟩ := statusAt_succ hstatus
    have hold : st1.records slot = some r → ∃ m < k + 1, flow.nodeAt W (.initial mem sp) m = _ := fun hr ↦ by
      obtain ⟨m, hm, hnode⟩ := ih hstatus hr
      exact ⟨m, Nat.lt_succ_of_lt hm, hnode⟩
    rcases (stores_act (stores_follow (hsucc.symm.trans h))).1 with heq | ⟨slot', handler, hvalue, heq⟩
    · exact hold (heq ▸ hr)
    · by_cases hslot : slot = slot'
      · subst hslot
        rw [heq, update_self] at hr
        cases hr
        exact ⟨k, Nat.lt_succ_self k, hvalue ▸ nodeAt_of_running hstatus⟩
      · rw [heq, update_of_ne hslot] at hr
        exact hold hr

lemma run (hplaces : g.Places flow stand) (hcoherent : g.Coherent K scopes)
    (h : flow.statusAt W (.initial mem sp) k = .running (rest, st)) :
    rest <:+ flow ∧ g.Backs st.records (linkedAt W flow (.initial mem sp) k st) st.mark (stand rest) := by
  induction k generalizing rest st with
  | zero =>
    cases h
    exact ⟨suffix_rfl, hplaces.start.symm ▸ .nil⟩
  | succ k ih =>
    obtain ⟨q, _, _, hstatus⟩ := exists_of_running_succ h
    obtain ⟨_, hsucc⟩ := statusAt_succ hstatus
    have hfollow := hsucc.symm.trans h
    obtain ⟨hsuffix, hbacks⟩ := ih hstatus
    have hlands := hplaces.step hcoherent hsuffix hbacks (fun _ _ h ↦ h.1) (carries_linkedAt hstatus hfollow) hfollow
    exact ⟨hlands.suffix, hlands.backs⟩

lemma turns (hplaces : g.Places flow stand) (hcoherent : g.Coherent K scopes)
    (h : flow.statusAt W (.initial mem sp) k = .running (q :: rest, st))
    (h' : flow.statusAt W (.initial mem sp) (k + 1) = .running (rest', st')) :
    g.Turns (stand (q :: rest)) q.value (stand rest') := by
  obtain ⟨_, hsucc⟩ := statusAt_succ h
  have hfollow := hsucc.symm.trans h'
  obtain ⟨hsuffix, hbacks⟩ := hplaces.run hcoherent h
  exact (hplaces.step hcoherent hsuffix hbacks (fun _ _ h ↦ h.1) (carries_linkedAt h hfollow) hfollow).turns

end Lowering.Notes.Places

end W16Compiler
