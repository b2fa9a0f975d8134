import W16Compiler.Proofs.Lowering.Standing
import Mathlib.Data.List.Nodup

/-!
# Try statements are nested

A body in which jumps leave the try statements that their scopes say they leave is written so that every
node may stand where it does: inside of the clauses that it is written for. Exits are written at the end,
each where the statement that it leaves stands.
-/

namespace W16Compiler.Lowering

open List Option Notes Array

/-! ## Clauses and scopes -/

namespace Context

variable (K : Context)

def layer : TryId × Part → Option Layer
  | (id, .body) => some (.guarded id)
  | (id, .handler) => if (K.tries[id.index]?).getD false then some (.guarded id) else none
  | (id, .cleanup) => some (.cleaning id)

def standing (c : Path) : Standing := c.filterMap K.layer

/-- The try statements that are left on the way from one scope to another, the innermost first. -/
def crossed (source target : ScopeId) : List TryId :=
  (K.symbols.crossed source target).filterMap fun
    | .tryBody id => some id
    | .catchBody id => if (K.tries[id.index]?).getD false then some id else none
    | _ => none

/-- The scopes on the way out of clauses agree with them: the first try statement that the way from
`source` leaves is the innermost one that protects, and so on from the scope which that statement stands
in. -/
def leaves (scopes : TryId → ScopeId) (target : ScopeId) : Path → ScopeId → Bool
  | [], source => (K.crossed source target).isEmpty
  | x :: e, source =>
    match K.layer x with
    | some (.guarded id) => (K.crossed source target).head? = some id && leaves scopes target e (scopes id)
    | _ => leaves scopes target e source

variable {K} {scopes : TryId → ScopeId} {source target : ScopeId} {e : Path} {K' : Context}

lemma layer_cases {id : TryId} {x : Layer} (h : K.layer (id, part) = some x) :
    x = .guarded id ∨ x = .cleaning id := by
  cases part with
  | body => exact .inl (some.inj h).symm
  | cleanup => exact .inr (some.inj h).symm
  | handler =>
    simp only [layer] at h
    split at h
    · exact .inl (some.inj h).symm
    · cases h

lemma settled_standing (c : Path) : (K.standing c).Settled := by
  intro x hx
  obtain ⟨⟨_, _⟩, -, hlayer⟩ := mem_filterMap.mp hx
  rcases layer_cases hlayer with rfl | rfl <;> rfl

lemma standing_append (e d : Path) : K.standing (e ++ d) = K.standing e ++ K.standing d := filterMap_append

lemma standing_cons (x : TryId × Part) (c : Path) : K.standing (x :: c) = (K.layer x).toList ++ K.standing c := by
  cases hx : K.layer x with
  | none => exact filterMap_cons_none hx
  | some y => exact filterMap_cons_some hx

lemma layer_congr (htries : K'.tries = K.tries) : K'.layer = K.layer := by
  funext x
  obtain ⟨_, part⟩ := x
  cases part with
  | body | cleanup => rfl
  | handler => rw [layer, layer, htries]

lemma leaves_congr (hsymbols : K'.symbols = K.symbols) (htries : K'.tries = K.tries) :
    K'.leaves scopes target e source = K.leaves scopes target e source := by
  have hcrossed : ∀ source, K'.crossed source target = K.crossed source target := by
    intro source
    rw [crossed, crossed, hsymbols, htries]
  induction e generalizing source with
  | nil => rw [leaves, leaves, hcrossed]
  | cons x e ih =>
    rw [leaves, leaves, layer_congr htries, hcrossed, ih]
    split
    · rw [ih]
    · rfl

lemma leaves_cases (h : K.leaves scopes target e source) :
    (K.crossed source target = [] ∧ ∀ x ∈ K.standing e, x.isCleaning) ∨
      ∃ e1 id part e2 rest, e = e1 ++ (id, part) :: e2 ∧ (∀ x ∈ K.standing e1, x.isCleaning) ∧
        K.layer (id, part) = some (.guarded id) ∧ K.crossed source target = id :: rest ∧
        K.leaves scopes target e2 (scopes id) := by
  induction e with
  | nil => exact .inl ⟨isEmpty_iff.mp h, fun _ hx ↦ (not_mem_nil hx).elim⟩
  | cons x e ih =>
    obtain ⟨id, part⟩ := x
    cases hlayer : K.layer (id, part) with
    | none =>
      simp only [leaves, hlayer] at h
      rcases ih h with ⟨hnone, hall⟩ | ⟨e1, id', part', e2, rest, rfl, hall, hrest⟩
      · exact .inl ⟨hnone, by rwa [standing_cons, hlayer]⟩
      · exact .inr ⟨(id, part) :: e1, id', part', e2, rest, rfl, by rwa [standing_cons, hlayer], hrest⟩
    | some y =>
      rcases layer_cases hlayer with rfl | rfl
      · simp only [leaves, hlayer, Bool.and_eq_true, decide_eq_true_eq] at h
        obtain ⟨rest, hrest⟩ := head?_eq_some_iff.mp h.1
        exact .inr ⟨[], id, part, e, rest, rfl, fun _ hx ↦ (not_mem_nil hx).elim, hlayer, hrest, h.2⟩
      · simp only [leaves, hlayer] at h
        rcases ih h with ⟨hnone, hall⟩ | ⟨e1, id', part', e2, rest, rfl, hall, hrest⟩
        · refine .inl ⟨hnone, ?_⟩
          rw [standing_cons, hlayer]
          exact forall_mem_cons.mpr ⟨rfl, hall⟩
        · refine .inr ⟨(id, part) :: e1, id', part', e2, rest, rfl, ?_, hrest⟩
          rw [standing_cons, hlayer]
          exact forall_mem_cons.mpr ⟨rfl, hall⟩

end Context

def nested (K : Context) (scopes : TryId → ScopeId) (label : String → Option (Path × ScopeId))
    (marker : Nat → Option Path) : Discipline where
  label := label
  marker := marker
  here d c := d = c
  direct c d := ∃ e, c = e ++ d ∧ ∀ x ∈ K.standing e, x.isCleaning
  direct_refl _ := ⟨[], rfl, fun _ hx ↦ (List.not_mem_nil hx).elim⟩
  here_refl _ := rfl
  jump c source d target := ∃ e, c = e ++ d ∧ K.leaves scopes target e source
  returns c source := K.leaves scopes K.paramScope c source
  tries _ scope id cleanup := scopes id = scope ∧ (K.tries[id.index]?).getD false = cleanup

/-! ## What is known while a body is written -/

variable (K : Context) (scopes : TryId → ScopeId)

def Notes.Around (g : Notes) (c : Path) : Prop :=
  ∀ id part c', (id, part) :: c' <:+ c → ∃ t, (id, t) ∈ g.tries ∧ t.path = c'

/-- What is noted of the try statements that have been started. -/
structure Notes.Coherent (g : Notes) : Prop where
  nodup : (g.tries.map (·.1)).Nodup
  records : ∀ x ∈ g.tries, ∀ y ∈ g.tries, x.2.record = y.2.record → x = y
  links : ∀ x ∈ g.tries, ∀ y ∈ g.tries, ∀ start start' link, x.2.cleanup = some (start, link) →
    y.2.cleanup = some (start', link) → x = y
  record_lt : ∀ x ∈ g.tries, x.2.record.index < g.slots
  link_lt : ∀ x ∈ g.tries, ∀ start link, x.2.cleanup = some (start, link) → link.index < g.slots
  outer : ∀ x ∈ g.tries, x.2.outer = K.standing x.2.path
  around : ∀ x ∈ g.tries, g.Around x.2.path
  apart : ∀ x ∈ g.tries, x.1 ∉ x.2.path.map (·.1)
  scope : ∀ x ∈ g.tries, x.2.scope = scopes x.1
  cleanup : ∀ x ∈ g.tries, x.2.cleanup.isSome = (K.tries[x.1.index]?).getD false
  start : ∀ x ∈ g.tries, ∀ start link, x.2.cleanup = some (start, link) →
    g.labels start = some (.entering x.1 :: x.2.outer)

/-- An exit that is still to be written, with its way on. -/
def Notes.Awaits (g : Notes) (e : Exit) : Prop :=
  ∃ t, (e.leaving, t) ∈ g.tries ∧ g.labels e.label = some (.guarded e.leaving :: t.outer) ∧
    ∃ front d, t.path = front ++ d ∧ g.labels e.target = some (K.standing d) ∧
      K.leaves scopes e.scope front t.scope

structure TryState.Agrees (x : TryId × TryState) (y : TryId × Started) : Prop where
  id : x.1 = y.1
  record : x.2.record = y.2.record
  cleanup : x.2.cleanup = y.2.cleanup
  scope : x.2.scope = y.2.scope

/-- What is kept apart from the nodes agrees with what is noted. -/
structure Books (g : Notes) (s : State) : Prop where
  labels : ∀ l X, g.labels l = some X → l.index < s.nextLabel
  slots : g.slots ≤ s.slots.size
  coherent : g.Coherent K scopes
  tries : List.Forall₂ TryState.Agrees s.tries g.tries
  exits : ∀ e ∈ s.exits, g.Awaits K scopes e
  exitLabels : ∀ x ∈ s.exitLabels, ∃ t, (x.1.1, t) ∈ g.tries ∧ g.labels x.2 = some (.guarded x.1.1 :: t.outer)
  returnLabel : ∀ l, s.returnLabel = some l → g.labels l = some []

/-- The nodes that have been written lead to a point inside of clauses that stands somewhere, or nowhere. -/
structure Keeps (g : Notes) (c : Path) (X : Option Standing) (s : State) : Prop where
  books : Books K scopes g s
  around : g.Around c
  reachable : s.reachable → X.isSome
  written : ∀ Y, (s.reachable → X = some Y) → g.Leads [] s.prims.toList Y

def Listed (s : State) (later : List (TryId × Label)) : Prop :=
  ∀ p ∈ s.prims.toList, ∀ start link resume, p.value = .cleanupCall start link resume →
    ∃ id t, (id, t) ∈ s.tries ∧ t.cleanup = some (start, link) ∧ (resume ∈ t.resumes ∨ (id, resume) ∈ later)

def nesting : Regime where
  context := K
  Notes := Notes
  Point := Path × Option Standing
  order := inferInstance
  inside c := (c, some (K.standing c))
  reserved c _ := (c, some (K.standing c))
  Holds g p s := Keeps K scopes g p.1 p.2 s ∧ Listed s []
  At g c l := g.labels l = some (K.standing c)
  Fresh g todo := todo.Nodup ∧ ∀ id ∈ todo, ∀ t, (id, t) ∉ g.tries

variable {K scopes} {g g' : Notes} {s s' : State} {c d : Path} {X Y Z : Standing} {P : Option Standing} {p : Prim}
  {l resume : Label} {scope : ScopeId} {α : Type} {C : Context} {todo : List TryId} {q : Path × Option Standing}

lemma Notes.Around.mono (hg : g ≤ g') (h : g.Around c) : g'.Around c := by
  intro id part c' hc
  obtain ⟨t, ht, hpath⟩ := h id part c' hc
  exact ⟨t, tries_mono hg ht, hpath⟩

lemma Notes.Awaits.mono (hg : g ≤ g') {e : Exit} (h : g.Awaits K scopes e) : g'.Awaits K scopes e := by
  obtain ⟨t, ht, hlabel, front, d, hpath, htarget, hleaves⟩ := h
  exact ⟨t, tries_mono hg ht, labels_mono hg hlabel, front, d, hpath, labels_mono hg htarget, hleaves⟩

lemma Notes.Coherent.mono (hg : g ≤ g') (htries : g'.tries = g.tries) (h : g.Coherent K scopes) :
    g'.Coherent K scopes where
  nodup := htries ▸ h.nodup
  records := htries ▸ h.records
  links := htries ▸ h.links
  record_lt x hx := lt_of_lt_of_le (h.record_lt x (htries ▸ hx)) hg.2.2
  link_lt x hx start link hlink := lt_of_lt_of_le (h.link_lt x (htries ▸ hx) start link hlink) hg.2.2
  outer := htries ▸ h.outer
  around x hx := (h.around x (htries ▸ hx)).mono hg
  apart := htries ▸ h.apart
  scope := htries ▸ h.scope
  cleanup := htries ▸ h.cleanup
  start x hx start link hlink := labels_mono hg (h.start x (htries ▸ hx) start link hlink)

lemma Notes.Coherent.unique (h : g.Coherent K scopes) {x y : TryId × Started} (hx : x ∈ g.tries) (hy : y ∈ g.tries)
    (heq : x.1 = y.1) : x = y :=
  inj_on_of_nodup_map h.nodup hx hy heq

lemma Books.mono (h : Books K scopes g s) (hg : g ≤ g') (htries : g'.tries = g.tries)
    (hlabels : ∀ l X, g'.labels l = some X → l.index < s'.nextLabel) (hslots : g'.slots ≤ s'.slots.size)
    (htries' : s'.tries = s.tries) (hexits : s'.exits = s.exits) (hexitLabels : s'.exitLabels = s.exitLabels)
    (hreturn : s'.returnLabel = s.returnLabel) : Books K scopes g' s' where
  labels := hlabels
  slots := hslots
  coherent := h.coherent.mono hg htries
  tries := by rw [htries', htries]; exact h.tries
  exits e he := (h.exits e (hexits ▸ he)).mono hg
  exitLabels x hx := by
    obtain ⟨t, ht, hlabel⟩ := h.exitLabels x (hexitLabels ▸ hx)
    exact ⟨t, tries_mono hg ht, labels_mono hg hlabel⟩
  returnLabel l hl := labels_mono hg (h.returnLabel l (hreturn ▸ hl))

lemma Books.lookup (h : Books K scopes g s) {id : TryId} {t : Started} (ht : (id, t) ∈ g.tries) :
    ∃ t', s.tries.lookup id = some t' ∧ TryState.Agrees (id, t') (id, t) := by
  have hall := h.tries
  have hnodup := h.coherent.nodup
  clear h
  generalize s.tries = tries, g.tries = noted at *
  induction hall with
  | nil => cases ht
  | @cons x y _ noted hxy _ ih =>
    obtain ⟨id', t'⟩ := x
    by_cases hid : id' = id
    · subst hid
      have hy : y = (id', t) := inj_on_of_nodup_map hnodup mem_cons_self ht hxy.id.symm
      subst hy
      exact ⟨t', lookup_cons_self, hxy⟩
    · have hne : y.1 ≠ id := hxy.id ▸ hid
      have ht' : (id, t) ∈ noted := by
        rcases mem_cons.mp ht with heq | ht
        · exact (hne (heq ▸ rfl)).elim
        · exact ht
      obtain ⟨t1, hlookup, hagrees⟩ := ih ht' hnodup.of_cons
      refine ⟨t1, ?_, hagrees⟩
      rw [lookup_cons, beq_false_of_ne (Ne.symm hid)]
      exact hlookup

/-! ## Labels and nodes -/

def Notes.withLabel (g : Notes) (l : Label) (X : Standing) : Notes :=
  { g with labels := Function.update g.labels l (some X) }

lemma Notes.labels_withLabel (g : Notes) (l : Label) (X : Standing) : (g.withLabel l X).labels l = some X := by
  unfold withLabel
  exact Function.update_self l (some X) g.labels

lemma Notes.labels_withLabel_of_ne (g : Notes) (X : Standing) (h : l' ≠ l) :
    (g.withLabel l X).labels l' = g.labels l' := by
  unfold withLabel
  exact Function.update_of_ne h (some X) g.labels

namespace Books

lemma le_withLabel (h : Books K scopes g s) (X : Standing) : g ≤ g.withLabel ⟨s.nextLabel⟩ X := by
  refine ⟨fun l Y hl ↦ ?_, fun _ hx ↦ hx, le_rfl⟩
  have hne : l ≠ ⟨s.nextLabel⟩ := fun heq ↦ lt_irrefl _ (heq ▸ h.labels l Y hl)
  rw [g.labels_withLabel_of_ne X hne, hl]

lemma withLabel (h : Books K scopes g s) (X : Standing) (hnext : s'.nextLabel = s.nextLabel + 1)
    (hslots : s'.slots = s.slots) (htries : s'.tries = s.tries) (hexits : s'.exits = s.exits)
    (hexitLabels : s'.exitLabels = s.exitLabels) (hreturn : s'.returnLabel = s.returnLabel) :
    Books K scopes (g.withLabel ⟨s.nextLabel⟩ X) s' := by
  refine h.mono (h.le_withLabel X) rfl (fun l Y hl ↦ ?_) (by rw [hslots]; exact h.slots) htries hexits
    hexitLabels hreturn
  rw [hnext]
  by_cases heq : l = ⟨s.nextLabel⟩
  · rw [heq]
    exact Nat.lt_succ_self _
  · rw [g.labels_withLabel_of_ne X heq] at hl
    exact Nat.lt_succ_of_lt (h.labels l Y hl)

end Books

lemma Keeps.anywhere (h : Keeps K scopes g c none s) (P : Option Standing) : Keeps K scopes g c P s where
  books := h.books
  around := h.around
  reachable hs := by cases h.reachable hs
  written Y _ := h.written Y fun hs ↦ by cases h.reachable hs

lemma Keeps.move (h : Keeps K scopes g c P s) (hd : g.Around d) : Keeps K scopes g d P s := { h with around := hd }

lemma Keeps.emitted (h : Keeps K scopes g c (some X) s) (hp : g.Admits X p Y) : ∃ g', g ≤ g' ∧ g'.tries = g.tries ∧
      Keeps K scopes g' c (if p.fallsThrough then some Y else none) (s.emitted p) := by
  have hfalls : (p.definedLabel.isSome || p.fallsThrough) = p.fallsThrough := by cases p <;> rfl
  have hbehind : ∀ Z, (p.fallsThrough → (if p.fallsThrough then some Y else none) = some Z) → g.Admits X p Z := by
    intro Z hZ
    cases hthrough : p.fallsThrough with
    | false => exact hp.of_not_fallsThrough hthrough
    | true =>
      rw [hthrough] at hZ
      exact some.inj (hZ rfl) ▸ hp
  have hlead := h.written X fun _ ↦ rfl
  unfold State.emitted
  dsimp only
  rw [hfalls]
  by_cases hlabelled : (s.reachable || p.definedLabel.isSome) = true
  · rw [if_pos hlabelled]
    refine ⟨g, le_refl g, rfl, ⟨?_, h.around, fun hthrough ↦ ?_, fun Z hZ ↦ ?_⟩⟩
    · exact h.books.mono (le_refl g) rfl h.books.labels h.books.slots rfl rfl rfl rfl
    · rw [if_pos hthrough]
      rfl
    · rw [toList_push]
      exact hlead.append (.cons (hbehind Z hZ) .nil)
  · rw [if_neg hlabelled]
    have hle := h.books.le_withLabel X
    refine ⟨g.withLabel ⟨s.nextLabel⟩ X, hle, rfl, ⟨?_, h.around.mono hle, fun hthrough ↦ ?_, fun Z hZ ↦ ?_⟩⟩
    · exact h.books.withLabel X rfl rfl rfl rfl rfl rfl
    · rw [if_pos hthrough]
      rfl
    · rw [toList_push, toList_push, List.append_assoc]
      refine (hlead.mono hle).append (.cons (.label ?_) (.cons ((hbehind Z hZ).mono hle) .nil))
      exact g.labels_withLabel _ X

lemma State.mem_emitted {x : Item Prim} (hx : x ∈ (s.emitted p).prims.toList) :
    x ∈ s.prims.toList ∨ x.value = p ∨ ∃ l, x.value = .label l := by
  unfold State.emitted at hx
  dsimp only at hx
  split at hx
  · rw [toList_push, List.mem_append, List.mem_singleton] at hx
    rcases hx with hx | rfl
    · exact .inl hx
    · exact .inr (.inl rfl)
  · rw [toList_push, toList_push, List.append_assoc, List.mem_append] at hx
    rcases hx with hx | hx
    · exact .inl hx
    · rcases mem_cons.mp hx with rfl | hx
      · exact .inr (.inr ⟨_, rfl⟩)
      · rw [mem_singleton.mp hx]
        exact .inr (.inl rfl)

lemma State.tries_emitted (s : State) (p : Prim) : (s.emitted p).tries = s.tries := by
  unfold State.emitted
  dsimp only
  split <;> rfl

lemma Listed.emitted (h : Listed s later)
    (hp : ∀ start link resume, p = .cleanupCall start link resume → ∃ id t, (id, t) ∈ s.tries ∧
      t.cleanup = some (start, link) ∧ (resume ∈ t.resumes ∨ (id, resume) ∈ later)) : Listed (s.emitted p) later := by
  intro x hx start link resume hvalue
  rw [s.tries_emitted p]
  rcases State.mem_emitted hx with hx | hx | ⟨l, hx⟩
  · exact h x hx start link resume hvalue
  · exact hp start link resume (hx.symm.trans hvalue)
  · rw [hx] at hvalue
    cases hvalue

/-! ## Steps -/

namespace Nesting

lemma fresh_of_tries (htries : g'.tries = g.tries) (h : (nesting K scopes).Fresh g todo) :
    (nesting K scopes).Fresh g' todo :=
  ⟨h.1, fun id hid t ↦ by rw [htries]; exact h.2 id hid t⟩

lemma emits (hp : g.Admits X p Y) (hfalls : p.fallsThrough) :
    (nesting K scopes).Yields C g (c, some X) todo (emit p) (c, some Y) todo fun _ _ ↦ True := by
  intro s a s' hfresh hs hrun
  rw [emit_apply] at hrun
  cases hrun
  obtain ⟨g', hle, htries, hkeeps⟩ := hs.1.emitted hp
  rw [if_pos hfalls] at hkeeps
  refine ⟨g', hle, fresh_of_tries htries hfresh, ⟨hkeeps, hs.2.emitted fun _ _ _ heq ↦ ?_⟩, trivial⟩
  rw [heq] at hfalls
  cases hfalls

lemma stops (hp : g.Admits X p Y) (hfalls : p.fallsThrough = false)
    (hcall : ∀ start link resume, p ≠ .cleanupCall start link resume) :
    (nesting K scopes).Yields C g (c, some X) todo (emit p) (c, none) todo fun _ _ ↦ True := by
  intro s a s' hfresh hs hrun
  rw [emit_apply] at hrun
  cases hrun
  obtain ⟨g', hle, htries, hkeeps⟩ := hs.1.emitted hp
  rw [hfalls, if_neg Bool.false_ne_true] at hkeeps
  refine ⟨g', hle, fresh_of_tries htries hfresh, ⟨hkeeps, hs.2.emitted fun start link resume heq ↦ ?_⟩, trivial⟩
  exact (hcall start link resume heq).elim

variable {x : LowerM α} {post : Notes → α → Prop} {left : List TryId}

lemma anywhere (h : (nesting K scopes).Yields C g q todo x (c, none) left post)
    (P : Option Standing) : (nesting K scopes).Yields C g q todo x (c, P) left post :=
  .conseq (fun _ hs ↦ hs) h fun _ _ _ hs ↦ ⟨hs.1.anywhere P, hs.2⟩

lemma fromNowhere (h : (nesting K scopes).Yields C g (c, P) todo x q left post) :
    (nesting K scopes).Yields C g (c, none) todo x q left post :=
  .conseq (fun _ hs ↦ ⟨hs.1.anywhere P, hs.2⟩) h fun _ _ _ hs ↦ hs

lemma moves (hc : g.Around c) (hd : g.Around d) (h : (nesting K scopes).Yields C g (d, P) todo x (d, Q) left post) :
    (nesting K scopes).Yields C g (c, P) todo x (c, Q) left post := by
  refine .conseq (fun s hs ↦ ?_) h fun g' s hg hs ↦ ?_
  · exact ⟨hs.1.move hd, hs.2⟩
  · exact ⟨hs.1.move (hc.mono hg), hs.2⟩

lemma newLabel (Z : Standing) : (nesting K scopes).Yields C g (c, P) todo newLabel (c, P) todo
    fun g' l ↦ g'.labels l = some Z ∧ g'.tries = g.tries := by
  intro s a s' hfresh hs hrun
  cases hrun
  have hle := hs.1.books.le_withLabel Z
  refine ⟨g.withLabel ⟨s.nextLabel⟩ Z, hle, fresh_of_tries rfl hfresh, ⟨⟨?_, ?_, ?_, ?_⟩, hs.2⟩, ?_⟩
  · exact hs.1.books.withLabel Z rfl rfl rfl rfl rfl rfl
  · exact hs.1.around.mono hle
  · exact hs.1.reachable
  · exact fun Y hY ↦ (hs.1.written Y hY).mono hle
  · exact ⟨g.labels_withLabel _ Z, rfl⟩

lemma ifReachable {x : LowerM Unit}
    (hx : (nesting K scopes).Yields C g (c, some X) todo x (c, none) todo fun _ _ ↦ True) :
    (nesting K scopes).Yields C g (c, some X) todo (do if ← reachable then x) (c, none) todo fun _ _ ↦ True := by
  intro s a s' hfresh hs hrun
  change (if s.reachable = true then x else pure ()) C s = _ at hrun
  by_cases hreach : s.reachable = true
  · rw [if_pos hreach] at hrun
    exact hx s a s' hfresh hs hrun
  · rw [if_neg hreach] at hrun
    cases hrun
    refine ⟨g, le_refl g, hfresh, ⟨⟨hs.1.books, hs.1.around, fun h ↦ (hreach h).elim, ?_⟩, hs.2⟩, trivial⟩
    exact fun Y _ ↦ hs.1.written Y fun h ↦ (hreach h).elim

lemma jumps (hl : g.labels l = some Z) (hshed : X.Sheds Z) :
    (nesting K scopes).Yields C g (c, some X) todo (jump l) (c, none) todo fun _ _ ↦ True :=
  ifReachable (stops (.jump (Y := []) hl hshed) rfl fun _ _ _ h ↦ by cases h)

lemma marks (hl : g.labels l = some X) :
    (nesting K scopes).Yields C g (c, some X) todo (mark l) (c, some X) todo fun _ _ ↦ True :=
  emits (.label hl) rfl

end Nesting

/-! ## Cleanups -/

lemma mem_of_lookup {α β : Type} [BEq α] [LawfulBEq α] {list : List (α × β)} {a : α} {b : β}
    (h : list.lookup a = some b) : (a, b) ∈ list := by
  obtain ⟨_, _, rfl, -⟩ := lookup_eq_some_iff.mp h
  exact mem_append_right _ mem_cons_self

lemma Books.addResume (h : Books K scopes g s) (id : TryId) (resume : Label) :
    Books K scopes g (addResume id resume s) := by
  refine { h with tries := forall₂_map_left_iff.mpr (h.tries.imp fun x y hxy ↦ ?_) }
  dsimp only
  split
  · exact ⟨hxy.id, hxy.record, hxy.cleanup, hxy.scope⟩
  · exact hxy

lemma Listed.addResume {id : TryId} (h : Listed s [(id, resume)]) : Listed (addResume id resume s) [] := by
  intro x hx start link resume' hvalue
  obtain ⟨id', t, ht, hcleanup, hresume⟩ := h x hx start link resume' hvalue
  refine ⟨id', if id' = id then { t with resumes := t.resumes ++ [resume] } else t,
    mem_map.mpr ⟨(id', t), ht, rfl⟩, ?_, .inl ?_⟩
  · split <;> exact hcleanup
  · rcases hresume with hresume | hresume
    · split
      · exact mem_append_left _ hresume
      · exact hresume
    · cases mem_singleton.mp hresume
      rw [if_pos rfl]
      exact mem_append_right _ (mem_singleton_self resume)

namespace Nesting

variable {id : TryId} {t : Started}

lemma callsCleanup {start : Label} {link : SlotId} (ht : (id, t) ∈ g.tries)
    (hcleanup : t.cleanup = some (start, link)) (hresume : g.labels resume = some t.outer) :
    (nesting K scopes).Yields C g (c, some (.due id :: t.outer)) todo
      (do emit (.cleanupCall start link resume); mark resume; modify (addResume id resume)) (c, some t.outer) todo
      fun _ _ ↦ True := by
  intro s a s' hfresh hs hrun
  obtain ⟨u, s1, h1, hrun⟩ := bindState_eq_ok.mp (show (emit (.cleanupCall start link resume) C >>= fun _ ↦
      (do mark resume; modify (addResume id resume) : LowerM Unit) C) s = .ok (a, s') from hrun)
  obtain ⟨v, _, h2, hrun⟩ := bindState_eq_ok.mp
    (show (mark resume C >>= fun _ ↦ (modify (addResume id resume) : LowerM Unit) C) s1 = .ok (a, s') from hrun)
  rw [emit_apply] at h1
  rw [mark, emit_apply] at h2
  cases h1
  cases h2
  cases hrun
  have hcall : g.Admits (.due id :: t.outer) (.cleanupCall start link resume) [] :=
    .cleanupCall ht hcleanup (hs.1.books.coherent.start (id, t) ht start link hcleanup) hresume
  obtain ⟨_, hle1, htries1, hkeeps1⟩ := hs.1.emitted hcall
  obtain ⟨g2, hle2, htries2, hkeeps2⟩ := (hkeeps1.anywhere (some t.outer)).emitted (.label (labels_mono hle1 hresume))
  obtain ⟨t', hlookup, hagrees⟩ := hs.1.books.lookup ht
  have hlisted : Listed (s.emitted (.cleanupCall start link resume)) [(id, resume)] := by
    refine Listed.emitted (fun x hx start link resume hvalue ↦ ?_) fun _ _ _ heq ↦ ?_
    · obtain ⟨id', t', ht', hcleanup', hresume'⟩ := hs.2 x hx start link resume hvalue
      exact ⟨id', t', ht', hcleanup', .inl (hresume'.resolve_right not_mem_nil)⟩
    · cases heq
      exact ⟨id, t', mem_of_lookup hlookup, hagrees.cleanup.trans hcleanup, .inr (mem_singleton_self _)⟩
  refine ⟨g2, le_trans hle1 hle2, fresh_of_tries (htries2.trans htries1) hfresh,
    ⟨{ hkeeps2 with books := hkeeps2.books.addResume id resume }, ?_⟩, trivial⟩
  exact (hlisted.emitted fun _ _ _ heq ↦ by cases heq).addResume

lemma runsCleanup (ht : (id, t) ∈ g.tries) :
    (nesting K scopes).Yields C g (c, some (t.raised id)) todo (runCleanup id) (c, some t.outer) todo
      fun _ _ ↦ True := by
  refine .getBind fun s hs ↦ ?_
  obtain ⟨t', hlookup, hagrees⟩ := hs.1.books.lookup ht
  have hcleanup' : t'.cleanup = t.cleanup := hagrees.cleanup
  simp only [hlookup, bind_some, hcleanup']
  cases hcleanup : t.cleanup with
  | none =>
    rw [Started.raised, hcleanup]
    exact .pure trivial
  | some x =>
    obtain ⟨_, _⟩ := x
    rw [Started.raised, hcleanup]
    refine (newLabel t.outer).bind fun g1 _ hle ⟨hresume, _⟩ ↦ ?_
    exact callsCleanup (tries_mono hle ht) hcleanup hresume

/-! ## Exits -/

lemma exitLabels {target : Label} {front d : Path} (ht : (id, t) ∈ g.tries)
    (hpath : t.path = front ++ d) (htarget : g.labels target = some (K.standing d))
    (hleaves : K.leaves scopes scope front (scopes id)) :
    (nesting K scopes).Yields C g (c, P) todo (exitLabel id target scope) (c, P) todo
      fun g' l ↦ g'.labels l = some (.guarded id :: t.outer) := by
  refine .getBind fun s0 hs0 ↦ ?_
  split
  · rename_i label hlabel
    obtain ⟨t', ht', hlabel'⟩ := hs0.1.books.exitLabels _ (mem_of_lookup hlabel)
    have heq := hs0.1.books.coherent.unique ht' ht rfl
    cases heq
    exact .pure hlabel'
  · refine (newLabel (.guarded id :: t.outer)).bind fun g1 label hle ⟨hlabel, _⟩ ↦ ?_
    intro s a s' hfresh hs hrun
    cases hrun
    have ht1 := tries_mono hle ht
    have hexit : g1.Awaits K scopes ⟨label, id, target, scope⟩ := by
      refine ⟨t, ht1, hlabel, front, d, hpath, labels_mono hle htarget, ?_⟩
      rw [hs.1.books.coherent.scope _ ht1]
      exact hleaves
    refine ⟨g1, le_refl g1, hfresh, ⟨{ hs.1 with books := ?_ }, hs.2⟩, hlabel⟩
    exact { hs.1.books with
      exits := forall_mem_cons.mpr ⟨hexit, hs.1.books.exits⟩
      exitLabels := forall_mem_cons.mpr ⟨⟨t, ht1, hlabel⟩, hs.1.books.exitLabels⟩ }

lemma crosses (hC : (nesting K scopes).Fits C) (source target : ScopeId) :
    (nesting K scopes).Yields C g q todo (crossing source target) q todo fun _ ids ↦ ids = K.crossed source target := by
  intro s a s' hfresh hs hrun
  have hcrossed : C.crossed source target = K.crossed source target := by
    rw [hC]
    rfl
  cases hrun
  exact ⟨g, le_refl g, hfresh, hs, hcrossed⟩

lemma jumpsTo {source target : ScopeId} (hC : (nesting K scopes).Fits C)
    (hl : g.labels l = some (K.standing d)) (hjump : ∃ e, c = e ++ d ∧ K.leaves scopes target e source) :
    (nesting K scopes).Yields C g (c, some (K.standing c)) todo (jumpTo source l target) (c, none) todo
      fun _ _ ↦ True := by
  refine .assuming fun s _ hs ↦ ?_
  obtain ⟨e, rfl, hleaves⟩ := hjump
  refine (crosses hC source target).bind fun g1 ids hle hids ↦ ?_
  subst hids
  rcases Context.leaves_cases hleaves with ⟨hnone, hclean⟩ | ⟨e1, id, part, e2, _, rfl, hclean, hlayer, hcross, hrest⟩
  · rw [hnone]
    exact jumps (labels_mono hle hl) ⟨K.standing e, Context.standing_append e d, hclean⟩
  · obtain ⟨t, ht, hpath⟩ := hs.1.around id part (e2 ++ d) ⟨e1, by simp⟩
    have houter : t.outer = K.standing (e2 ++ d) := hpath ▸ hs.1.books.coherent.outer (id, t) ht
    rw [hcross]
    refine (exitLabels (tries_mono hle ht) hpath (labels_mono hle hl) hrest).bind
      fun g2 _ _ hlabel ↦ jumps hlabel ⟨K.standing e1, ?_, hclean⟩
    rw [houter, List.append_assoc, Context.standing_append, List.cons_append, Context.standing_cons, hlayer]
    rfl

/-! ## Returns -/

lemma similar (h : (nesting K scopes).Holds g q s) (hs : s.Similar s') : (nesting K scopes).Holds g q s' := by
  obtain ⟨hkeeps, hlisted⟩ := h
  refine ⟨⟨?_, hkeeps.around, fun hreach ↦ ?_, fun Y hY ↦ ?_⟩, fun x hx ↦ ?_⟩
  · exact hkeeps.books.mono (le_refl g) rfl (by rw [hs.nextLabel]; exact hkeeps.books.labels)
      (le_trans hkeeps.books.slots hs.slots) hs.tries hs.exits hs.exitLabels hs.returnLabel
  · exact hkeeps.reachable (hs.reachable ▸ hreach)
  · rw [hs.prims]
    exact hkeeps.written Y (hs.reachable ▸ hY)
  · rw [hs.prims] at hx
    rw [hs.tries]
    exact hlisted x hx

lemma keeps {x : LowerM α} {post : α → Prop} (hx : Silent C x post) :
    (nesting K scopes).Yields C g q todo x q todo fun _ a ↦ post a := by
  intro s a s' hfresh hs hrun
  obtain ⟨hsimilar, hpost⟩ := hx s a s' hrun
  exact ⟨g, le_refl g, hfresh, similar hs hsimilar, hpost⟩

lemma sharedReturns : (nesting K scopes).Yields C g q todo sharedReturn q todo fun g' l ↦ g'.labels l = some [] := by
  refine .getBind fun s0 hs0 ↦ ?_
  split
  · rename_i label hlabel
    exact .pure (hs0.1.books.returnLabel label hlabel)
  · refine (newLabel []).bind fun g1 label _ ⟨hlabel, _⟩ ↦ ?_
    intro s a s' hfresh hs hrun
    cases hrun
    refine ⟨g1, le_refl g1, hfresh, ⟨{ hs.1 with books := ?_ }, hs.2⟩, hlabel⟩
    exact { hs.1.books with returnLabel := fun l hl ↦ some.inj hl ▸ hlabel }

lemma returns (hC : (nesting K scopes).Fits C) (hleaves : K.leaves scopes K.paramScope c scope) :
    (nesting K scopes).Yields C g (c, some (K.standing c)) todo (returnFrom scope value) (c, none) todo
      fun _ _ ↦ True := by
  have hparam : C.paramScope = K.paramScope := by
    rw [hC]
    rfl
  refine .read ?_
  rw [hparam]
  refine (crosses hC scope K.paramScope).bind fun g2 ids _ hids ↦ ?_
  subst hids
  refine .ite (fun hempty ↦ ?_) fun _ ↦ ?_
  · rcases Context.leaves_cases hleaves with ⟨-, hclean⟩ | ⟨_, _, _, _, _, _, _, _, hcross, _⟩
    · refine stops (.ret (Y := []) ⟨K.standing c, (append_nil _).symm, hclean⟩) rfl fun _ _ _ h ↦ by cases h
    · rw [hcross] at hempty
      cases hempty
  · have hassigns : (nesting K scopes).Yields C g2 (c, some (K.standing c)) todo
        ((value.bind fun v ↦ C.result.map fun rep ↦ (v, rep)).forM fun x ↦ do
          emit (.assign x.2 (.slot (← resultSlot x.2) 0) x.1)) (c, some (K.standing c)) todo fun _ _ ↦ True := by
      cases value.bind fun v ↦ C.result.map fun rep ↦ (v, rep) with
      | none => exact .pure trivial
      | some x => exact (keeps (silent_resultSlot x.2)).bind fun g3 _ _ _ ↦ emits (.steady rfl) rfl
    refine hassigns.bind fun g3 _ _ _ ↦ sharedReturns.bind fun g4 _ _ hlabel ↦ ?_
    exact jumpsTo (d := []) hC hlabel ⟨c, (append_nil c).symm, hleaves⟩

end Nesting

end W16Compiler.Lowering
