import W16Compiler.Proofs.Lowering.Nesting

/-!
# Try statements are written as planned

A try statement takes slots and labels that are new, and the code of each of its clauses is written where
the clause stands. So what is written for a body whose jumps agree with their scopes is nested, and the
exits behind it are, too.
-/

namespace W16Compiler.Lowering

open List Notes Context

variable {K : Context} {scopes : TryId → ScopeId} {g g' : Notes} {s s' : State} {c d : Path} {X Y Z : Standing}
  {P : Option Standing} {l : Label}

/-! ## Try statements -/

def TryPlan.started (plan : TryPlan) (K : Context) (c : Path) (scope : ScopeId) : Started where
  record := plan.record
  cleanup := plan.finish.map fun (start, link, _) ↦ (start, link)
  outer := K.standing c
  path := c
  scope := scope

/-- The labels of a plan stand where they are meant to. -/
structure TryPlan.Stands (plan : TryPlan) (K : Context) (c : Path) (id : TryId) (hasCleanup : Bool) (g : Notes) :
    Prop where
  finish : plan.finish.isSome = hasCleanup
  start : ∀ start link rethrow, plan.finish = some (start, link, rethrow) →
    g.labels start = some (.entering id :: K.standing c)
  rethrow : ∀ start link rethrow, plan.finish = some (start, link, rethrow) →
    g.labels rethrow = some (.due id :: K.standing c)
  after : g.labels plan.after = some (K.standing c)
  caught : g.labels plan.caught = some (if hasCleanup then .due id :: K.standing c else K.standing c)

structure TryPlan.IsNew (plan : TryPlan) (g : Notes) : Prop where
  record_lt : plan.record.index < g.slots
  record_ne : ∀ x ∈ g.tries, x.2.record ≠ plan.record
  link_lt : ∀ start link rethrow, plan.finish = some (start, link, rethrow) → link.index < g.slots
  link_ne : ∀ start link rethrow, plan.finish = some (start, link, rethrow) →
    ∀ x ∈ g.tries, ∀ start', x.2.cleanup ≠ some (start', link)

lemma TryPlan.Stands.mono {plan : TryPlan} {id : TryId} {hasCleanup : Bool}
    (h : plan.Stands K c id hasCleanup g) (hg : g ≤ g') : plan.Stands K c id hasCleanup g' where
  finish := h.finish
  start start link rethrow hfinish := labels_mono hg (h.start start link rethrow hfinish)
  rethrow start link rethrow hfinish := labels_mono hg (h.rethrow start link rethrow hfinish)
  after := labels_mono hg h.after
  caught := labels_mono hg h.caught

lemma TryPlan.Stands.raised {plan : TryPlan} {id : TryId} {hasCleanup : Bool}
    (h : plan.Stands K c id hasCleanup g) (scope : ScopeId) :
    (plan.started K c scope).raised id = if hasCleanup then .due id :: K.standing c else K.standing c := by
  rw [Started.raised, TryPlan.started, Option.isSome_map, h.finish]

lemma eq_of_mem_cons {α : Type} {a : α} {list : List α} {R : α → α → Prop} (hsymm : ∀ x y, R x y → R y x)
    (hold : ∀ x ∈ list, ∀ y ∈ list, R x y → x = y) (hnew : ∀ y ∈ list, ¬R a y) :
    ∀ x ∈ a :: list, ∀ y ∈ a :: list, R x y → x = y := by
  intro x hx y hy h
  rcases mem_cons.mp hx with rfl | hx' <;> rcases mem_cons.mp hy with rfl | hy'
  · rfl
  · exact (hnew y hy' h).elim
  · exact (hnew x hx' (hsymm x y h)).elim
  · exact hold x hx' y hy' h

lemma Books.noted (h : Books K scopes g s) (hx : x ∈ s.tries) : ∃ y ∈ g.tries, TryState.Agrees x y := by
  obtain ⟨i, hi, rfl⟩ := mem_iff_getElem.mp hx
  have hlength := h.tries.length_eq
  exact ⟨g.tries[i], getElem_mem _, Forall₂.get h.tries hi (hlength ▸ hi)⟩

namespace Nesting

variable {α : Type} {C : Context} {todo left : List TryId} {id : TryId} {t : Started} {plan : TryPlan} {scope : ScopeId}
  {hasCleanup : Bool} {q : Path × Option Standing} {ids : List TryId} {code : LoweredStmt}

lemma newSlot (words : Nat) (temp : Bool) : (nesting K scopes).Yields C g q todo (newSlot words temp) q todo
      fun g' slot ↦ g'.tries = g.tries ∧ g.slots ≤ slot.index ∧ slot.index < g'.slots := by
  intro s a s' hfresh hs hrun
  cases hrun
  have hslots := hs.1.books.slots
  have hle : g ≤ { g with slots := s.slots.size + 1 } := ⟨fun _ _ h ↦ h, fun _ h ↦ h, Nat.le_succ_of_le hslots⟩
  refine ⟨_, hle, fresh_of_tries rfl hfresh, ⟨⟨?_, hs.1.around.mono hle, hs.1.reachable, fun Y hY ↦ ?_⟩, hs.2⟩, rfl,
    hslots, Nat.lt_succ_self _⟩
  · exact hs.1.books.mono hle rfl hs.1.books.labels (by simp) rfl rfl rfl rfl
  · exact (hs.1.written Y hY).mono hle

lemma plansRest {g1 g2 : Notes} {record : SlotId} {finish : Option (Label × SlotId × Label)} {handled : Bool}
    (hcoherent : g.Coherent K scopes) (hle1 : g ≤ g1) (htries1 : g1.tries = g.tries) (hrecord : g.slots ≤ record.index)
    (hrecord_lt : record.index < g1.slots) (hle2 : g1 ≤ g2) (htries2 : g2.tries = g1.tries)
    (hsome : finish.isSome = hasCleanup)
    (hfinish : ∀ start link rethrow, finish = some (start, link, rethrow) → g1.slots ≤ link.index ∧
      link.index < g2.slots ∧ g2.labels start = some (.entering id :: K.standing c) ∧
      g2.labels rethrow = some (.due id :: K.standing c)) :
    (nesting K scopes).Yields C g2 q todo (do
      let after ← Lowering.newLabel
      if handled then return ⟨record, finish, after, ← Lowering.newLabel⟩
      match finish with
      | some (_, _, rethrow) => return ⟨record, finish, after, rethrow⟩
      | none => fail .tryWithoutHandler) q todo
      fun g' (plan : TryPlan) ↦ plan.IsNew g' ∧ plan.Stands K c id hasCleanup g' := by
  refine (newLabel (K.standing c)).bind fun g3 after hle3 ⟨hafter, htries3⟩ ↦ ?_
  have hplan : ∀ g' caught, g3 ≤ g' → g'.tries = g3.tries →
      g'.labels caught = some (if hasCleanup then .due id :: K.standing c else K.standing c) →
      (⟨record, finish, after, caught⟩ : TryPlan).IsNew g' ∧
        (⟨record, finish, after, caught⟩ : TryPlan).Stands K c id hasCleanup g' := by
    intro g' caught hle htries' hcaught
    have hold : ∀ x ∈ g'.tries, x ∈ g.tries := fun x hx ↦ by rwa [htries', htries3, htries2, htries1] at hx
    refine ⟨⟨?_, fun x hx heq ↦ ?_, fun start link rethrow h ↦ ?_, fun start link rethrow h x hx start' heq ↦ ?_⟩,
      ⟨hsome, fun start link rethrow h ↦ ?_, fun start link rethrow h ↦ ?_, labels_mono hle hafter, hcaught⟩⟩
    · exact lt_of_lt_of_le hrecord_lt (le_trans hle2.2.2 (le_trans hle3.2.2 hle.2.2))
    · have hlt := hcoherent.record_lt x (hold x hx)
      rw [heq] at hlt
      exact not_lt.mpr hrecord hlt
    · exact lt_of_lt_of_le (hfinish start link rethrow h).2.1 (le_trans hle3.2.2 hle.2.2)
    · have hlt := hcoherent.link_lt x (hold x hx) start' link heq
      exact not_lt.mpr (le_trans hle1.2.2 (hfinish start link rethrow h).1) hlt
    · exact labels_mono (le_trans hle3 hle) (hfinish start link rethrow h).2.2.1
    · exact labels_mono (le_trans hle3 hle) (hfinish start link rethrow h).2.2.2
  refine .ite (fun _ ↦ ?_) fun _ ↦ ?_
  · refine (newLabel (if hasCleanup then .due id :: K.standing c else K.standing c)).bind fun g4 caught hle4
      ⟨hcaught, htries4⟩ ↦ .pure ?_
    exact hplan g4 caught hle4 htries4 hcaught
  · cases finish with
    | none => exact .fail _
    | some x =>
      have hcleanup : hasCleanup = true := hsome.symm
      refine .pure (hplan g3 x.2.2 (le_refl g3) rfl ?_)
      rw [hcleanup]
      exact labels_mono hle3 (hfinish _ _ _ rfl).2.2.2

lemma plans (c : Path) (id : TryId) (handled hasCleanup : Bool) :
    (nesting K scopes).Yields C g q todo (planTry handled hasCleanup) q todo
      fun g' plan ↦ plan.IsNew g' ∧ plan.Stands K c id hasCleanup g' := by
  refine .assuming fun s _ hs ↦ ?_
  have hcoherent := hs.1.books.coherent
  refine (newSlot 3 false).bind fun g1 _ hle1 ⟨htries1, hrecord, hrecord_lt⟩ ↦ ?_
  dsimp only
  refine .ite (fun hcleanup ↦ ?_) fun hcleanup ↦ ?_
  · refine (newSlot 1 false).bind fun g2 _ hle2 ⟨htries2, hlink, hlink_lt⟩ ↦ ?_
    refine (newLabel (.entering id :: K.standing c)).bind fun g3 _ hle3 ⟨hstart, htries3⟩ ↦ ?_
    refine (newLabel (.due id :: K.standing c)).bind fun g4 _ hle4 ⟨hrethrow, htries4⟩ ↦ ?_
    rw [pure_bind]
    refine plansRest hcoherent hle1 htries1 hrecord hrecord_lt (le_trans hle2 (le_trans hle3 hle4))
      (htries4.trans (htries3.trans htries2)) hcleanup.symm
      fun _ _ _ h ↦ ?_
    cases h
    exact ⟨hlink, lt_of_lt_of_le hlink_lt (le_trans hle3.2.2 hle4.2.2), labels_mono hle4 hstart, hrethrow⟩
  · rw [pure_bind]
    exact plansRest hcoherent hle1 htries1 hrecord hrecord_lt (le_refl g1) rfl hcleanup.symm fun _ _ _ h ↦ by cases h

lemma starts (hnewPlan : plan.IsNew g) (hplan : plan.Stands K c id hasCleanup g) (hscope : scopes id = scope)
    (hK : (K.tries[id.index]?).getD false = hasCleanup) :
    (nesting K scopes).Yields C g (c, P) (id :: todo) (modify (startTry id (plan.state scope))) (c, P) todo
      fun g' _ ↦ (id, plan.started K c scope) ∈ g'.tries := by
  intro s a s' hfresh hs hrun
  cases hrun
  obtain ⟨hnodup, hnew⟩ := hfresh
  have hbooks := hs.1.books
  have hcoherent := hbooks.coherent
  have hfilter : s.tries.filter (·.1 ≠ id) = s.tries := by
    refine filter_eq_self.mpr fun x hx ↦ ?_
    obtain ⟨y, hy, hagrees⟩ := hbooks.noted hx
    refine decide_eq_true fun heq ↦ hnew id mem_cons_self y.2 ?_
    rw [← heq, hagrees.id]
    exact hy
  have hle : g ≤ { g with tries := (id, plan.started K c scope) :: g.tries } :=
    ⟨fun _ _ h ↦ h, fun _ hx ↦ mem_cons_of_mem _ hx, le_rfl⟩
  have hcleanup : ∀ start link, (plan.started K c scope).cleanup = some (start, link) →
      ∃ rethrow, plan.finish = some (start, link, rethrow) := by
    intro start link h
    obtain ⟨⟨start', _, rethrow⟩, hfinish, heq⟩ := Option.map_eq_some_iff.mp h
    cases heq
    exact ⟨rethrow, hfinish⟩
  have hapart : id ∉ c.map (·.1) := by
    intro hid
    obtain ⟨⟨id', part⟩, hx, rfl⟩ := mem_map.mp hid
    obtain ⟨front, back, rfl⟩ := append_of_mem hx
    obtain ⟨t, ht, -⟩ := hs.1.around id' part back ⟨front, rfl⟩
    exact hnew id' mem_cons_self t ht
  refine ⟨_, hle, ⟨hnodup.of_cons, fun id' hid' t ht ↦ ?_⟩,
    ⟨⟨⟨hbooks.labels, hbooks.slots, ?_, ?_, ?_, ?_, hbooks.returnLabel⟩, hs.1.around.mono hle, hs.1.reachable, ?_⟩, ?_⟩,
    mem_cons_self⟩
  · rcases mem_cons.mp ht with heq | ht
    · cases heq
      exact (nodup_cons.mp hnodup).1 hid'
    · exact hnew id' (mem_cons_of_mem _ hid') t ht
  · refine ⟨?_, ?_, fun x hx y hy start start' link h h' ↦ ?_, ?_, ?_, ?_, ?_, ?_, ?_, ?_, ?_⟩
    · refine nodup_cons.mpr ⟨fun hid ↦ ?_, hcoherent.nodup⟩
      obtain ⟨y, hy, heq⟩ := mem_map.mp hid
      have heq : y.1 = id := heq
      exact hnew id mem_cons_self y.2 (heq ▸ hy)
    · exact eq_of_mem_cons (fun _ _ h ↦ h.symm) hcoherent.records fun y hy heq ↦ hnewPlan.record_ne y hy heq.symm
    · refine eq_of_mem_cons (R := fun x y ↦ ∃ start start' link, x.2.cleanup = some (start, link) ∧
        y.2.cleanup = some (start', link)) ?_ ?_ ?_ x hx y hy ⟨start, start', link, h, h'⟩
      · exact fun _ _ ⟨start, start', link, h, h'⟩ ↦ ⟨start', start, link, h', h⟩
      · exact fun x hx y hy ⟨start, start', link, h, h'⟩ ↦ hcoherent.links x hx y hy start start' link h h'
      · rintro y hy ⟨start, start', link, h, h'⟩
        obtain ⟨rethrow, hfinish⟩ := hcleanup start link h
        exact hnewPlan.link_ne start link rethrow hfinish y hy start' h'
    · exact forall_mem_cons.mpr ⟨hnewPlan.record_lt, hcoherent.record_lt⟩
    · refine forall_mem_cons.mpr ⟨fun start link h ↦ ?_, hcoherent.link_lt⟩
      obtain ⟨rethrow, hfinish⟩ := hcleanup start link h
      exact hnewPlan.link_lt start link rethrow hfinish
    · exact forall_mem_cons.mpr ⟨rfl, hcoherent.outer⟩
    · exact forall_mem_cons.mpr ⟨hs.1.around.mono hle, fun x hx ↦ (hcoherent.around x hx).mono hle⟩
    · exact forall_mem_cons.mpr ⟨hapart, hcoherent.apart⟩
    · exact forall_mem_cons.mpr ⟨hscope.symm, hcoherent.scope⟩
    · refine forall_mem_cons.mpr ⟨?_, hcoherent.cleanup⟩
      rw [TryPlan.started, Option.isSome_map, hplan.finish, hK]
    · refine forall_mem_cons.mpr ⟨fun start link h ↦ ?_, hcoherent.start⟩
      obtain ⟨rethrow, hfinish⟩ := hcleanup start link h
      exact hplan.start start link rethrow hfinish
  · rw [startTry, hfilter]
    exact .cons ⟨rfl, rfl, rfl, rfl⟩ hbooks.tries
  · exact fun e he ↦ (hbooks.exits e he).mono hle
  · intro x hx
    obtain ⟨t, ht, hlabel⟩ := hbooks.exitLabels x hx
    exact ⟨t, mem_cons_of_mem _ ht, hlabel⟩
  · exact fun Y hY ↦ (hs.1.written Y hY).mono hle
  · intro x hx start link resume hvalue
    obtain ⟨id', t, ht, hrest⟩ := hs.2 x hx start link resume hvalue
    refine ⟨id', t, ?_, hrest⟩
    rw [startTry, hfilter]
    exact mem_cons_of_mem _ ht

/-! ## Clauses -/

lemma leavesProtected (ht : (id, t) ∈ g.tries) (hrecord : t.record = plan.record)
    (hafter : g.labels plan.after = some t.outer) :
    (nesting K scopes).Yields C g (c, some (.guarded id :: t.outer)) todo (leaveClause id plan true) (c, none) todo
      fun _ _ ↦ True := by
  have hend : g.Admits (.guarded id :: t.outer) (.tryEnd plan.record) (t.raised id) := hrecord ▸ .tryEnd ht
  refine ifReachable ((emits hend rfl).bind fun g1 _ hle1 _ ↦ ?_)
  refine (runsCleanup (tries_mono hle1 ht)).bind fun g2 _ hle2 _ ↦ ?_
  exact jumps (labels_mono (le_trans hle1 hle2) hafter) (.refl _)

lemma leavesUnprotected (hafter : g.labels plan.after = some X) :
    (nesting K scopes).Yields C g (c, some X) todo (leaveClause id plan false) (c, none) todo fun _ _ ↦ True :=
  ifReachable (jumps hafter (.refl X))

lemma skips : (nesting K scopes).Yields C g q (ids ++ left) (pure ()) q left fun _ _ ↦ True := by
  intro s a s' hfresh hs hrun
  cases hrun
  refine ⟨g, le_refl g, ⟨(nodup_append.mp hfresh.1).2.1, fun id hid ↦ ?_⟩, hs, trivial⟩
  exact hfresh.2 id (mem_append_right _ hid)

lemma runsClause (hcode : (nesting K scopes).Runs C ((id, part) :: c) ids g0 code.run fun _ _ ↦ True) (hle : g0 ≤ g)
    (haround : g.Around c) (ht : (id, t) ∈ g.tries) (hpath : t.path = c) (left : List TryId) :
    (nesting K scopes).Yields C g (c, some (K.standing ((id, part) :: c))) (ids ++ left) code.run
      (c, some (K.standing ((id, part) :: c))) left fun _ _ ↦ True := by
  refine moves haround (fun id' part' c' hsuffix ↦ ?_) (hcode g left hle)
  rcases suffix_cons_iff.mp hsuffix with heq | hsuffix
  · cases heq
    exact ⟨t, ht, hpath⟩
  · exact haround id' part' c' hsuffix

lemma writesHandler (hplan : plan.Stands K c id hasCleanup g)
    (hK : (K.tries[id.index]?).getD false = hasCleanup) (haround : g.Around c)
    (ht : (id, plan.started K c scope) ∈ g.tries)
    (hcode : (nesting K scopes).Runs C ((id, .handler) :: c) ids g code.run fun _ _ ↦ True) :
    (nesting K scopes).Yields C g (c, none) (ids ++ left) (writeHandler id plan var code) (c, none) left
      fun _ _ ↦ True := by
  refine (keeps (silent_locate code.loc)).bind fun g1 _ hle1 _ ↦
    (keeps (silent_variablePlace var)).bind fun g2 _ hle2 _ ↦ ?_
  have hle2 := le_trans hle1 hle2
  refine fromNowhere ((emits (.catchEntry (labels_mono hle2 hplan.caught)) rfl).bind fun g3 _ hle3 _ ↦ ?_)
  have hle3 := le_trans hle2 hle3
  have hlayer : K.standing ((id, .handler) :: c) =
    if hasCleanup then .guarded id :: K.standing c else K.standing c := by
    rw [standing_cons, layer, hK]
    cases hasCleanup <;> rfl
  cases hasCleanup with
  | true =>
    obtain ⟨⟨start, link, rethrow⟩, hfinish⟩ := Option.isSome_iff_exists.mp hplan.finish
    have hbegin : g3.Admits (.due id :: K.standing c) (.tryBegin plan.record rethrow)
      (.guarded id :: K.standing c) := by
      have hraised := hplan.raised scope
      have hX : Layer.due id :: K.standing c = (plan.started K c scope).raised id := hraised.symm
      refine .tryBegin (tries_mono hle3 ht) (.inr hX) ?_
      rw [hraised]
      exact labels_mono hle3 (hplan.rethrow start link rethrow hfinish)
    simp only [hfinish]
    refine Regime.Yields.bind (emits hbegin rfl) fun g4 _ hle4 _ ↦ ?_
    have hle4 := le_trans hle3 hle4
    rw [if_pos rfl] at hlayer
    have hruns := runsClause hcode hle4 (haround.mono hle4) (tries_mono hle4 ht) rfl left
    rw [hlayer] at hruns
    refine hruns.bind fun g5 _ hle5 _ ↦ ?_
    have hle5 := le_trans hle4 hle5
    exact leavesProtected (tries_mono hle5 ht) rfl (labels_mono hle5 hplan.after)
  | false =>
    have hfinish : plan.finish = none := Option.not_isSome_iff_eq_none.mp (by rw [hplan.finish]; exact Bool.false_ne_true)
    simp only [hfinish]
    have hruns := runsClause hcode hle3 (haround.mono hle3) (tries_mono hle3 ht) rfl left
    rw [hlayer] at hruns
    change (nesting K scopes).Yields C g3 (c, some (K.standing c)) (ids ++ left)
      (do code.run; leaveClause id plan false)
      (c, none) left fun _ _ ↦ True
    refine hruns.bind fun g4 _ hle4 _ ↦ ?_
    exact leavesUnprotected (labels_mono (le_trans hle3 hle4) hplan.after)

lemma writesCleanup {start rethrow : Label} (hplan : plan.Stands K c id true g)
    (hfinish : plan.finish = some (start, link, rethrow)) (haround : g.Around c)
    (ht : (id, plan.started K c scope) ∈ g.tries)
    (hcode : (nesting K scopes).Runs C ((id, .cleanup) :: c) ids g code.run fun _ _ ↦ True) :
    (nesting K scopes).Yields C g (c, none) (ids ++ left) (writeCleanup id (start, link, rethrow) code) (c, none) left
      fun _ _ ↦ True := by
  have hcleanup : (plan.started K c scope).cleanup = some (start, link) := by rw [TryPlan.started, hfinish]; rfl
  have hraised : (plan.started K c scope).raised id = .due id :: K.standing c := hplan.raised scope
  refine (keeps (silent_locate code.loc)).bind fun g1 _ hle1 _ ↦ (newSlot 1 false).bind fun g2 _ hle2 _ ↦ ?_
  have hle2 := le_trans hle1 hle2
  -- An exception that is not handled runs the cleanup and goes on.
  have hrethrow := labels_mono hle2 (hplan.rethrow start link rethrow hfinish)
  refine fromNowhere ((emits (.catchEntry hrethrow) rfl).bind fun g3 _ hle3 _ ↦ ?_)
  have hle3 := le_trans hle2 hle3
  rw [← hraised]
  refine (runsCleanup (tries_mono hle3 ht)).bind fun g4 _ hle4 _ ↦ ?_
  refine (stops (.throwValue (Y := []) (settled_standing c)) rfl fun _ _ _ h ↦ by cases h).bind
    fun g5 _ hle5 _ ↦ ?_
  have hle5 := le_trans hle3 (le_trans hle4 hle5)
  have ht5 := tries_mono hle5 ht
  have hentry : g5.Admits (.entering id :: K.standing c) (.cleanupEntry start link) (.cleaning id :: K.standing c) :=
    .cleanupEntry ht5 hcleanup (labels_mono hle5 (hplan.start start link rethrow hfinish))
  refine fromNowhere ((emits hentry rfl).bind fun g6 _ hle6 _ ↦ ?_)
  have hle6 := le_trans hle5 hle6
  refine (runsClause hcode hle6 (haround.mono hle6) (tries_mono hle6 ht) rfl left).bind fun g7 _ hle7 _ ↦ ?_
  have hreturn : g7.Admits (.cleaning id :: K.standing c) (.cleanupReturn link []) [] :=
    .cleanupReturn (tries_mono (le_trans hle6 hle7) ht) hcleanup
  exact stops hreturn rfl fun _ _ _ h ↦ by cases h

lemma writesTry (hscope : scopes id = i.scope) (hK : (K.tries[id.index]?).getD false = cleanup.isSome)
    (hbody : body.Sound (nesting K scopes) C ((id, .body) :: c) b g)
    (hhandler : ∀ v code, handler = some (v, code) → code.Sound (nesting K scopes) C ((id, .handler) :: c) h g)
    (hcleanup : ∀ code, cleanup = some code → code.Sound (nesting K scopes) C ((id, .cleanup) :: c) k g) :
    (nesting K scopes).Runs C c (id :: (b ++ (h ++ k))) g (tryStatement i id body handler cleanup) fun _ _ ↦ True := by
  intro g0 left hg
  rw [cons_append, append_assoc, append_assoc]
  refine .assuming fun s _ hs ↦ ?_
  refine (plans c id handler.isSome cleanup.isSome).bind fun g1 plan hle1 ⟨hnew, hplan⟩ ↦ ?_
  refine Regime.Yields.bind (starts hnew hplan hscope hK) fun g2 _ hle2 ht ↦ ?_
  have haround : g2.Around c := hs.1.around.mono (le_trans hle1 hle2)
  have hg2 := le_trans hg (le_trans hle1 hle2)
  have hplan := hplan.mono hle2
  have hraised := hplan.raised i.scope
  have hbegin : g2.Admits (K.standing c) (.tryBegin plan.record plan.caught) (.guarded id :: K.standing c) :=
    .tryBegin ht (.inl rfl) (hraised ▸ hplan.caught)
  refine (emits hbegin rfl).bind fun g3 _ hle3 _ ↦ ?_
  have hbody' := runsClause hbody.run (le_trans hg2 hle3) (haround.mono hle3) (tries_mono hle3 ht) rfl
    (h ++ (k ++ left))
  refine hbody'.bind fun g4 _ hle4 _ ↦ ?_
  have hle4 := le_trans hle3 hle4
  refine (leavesProtected (tries_mono hle4 ht) rfl (labels_mono hle4 hplan.after)).bind fun g5 _ hle5 _ ↦ ?_
  have hle5 := le_trans hle4 hle5
  have hhandlers : (nesting K scopes).Yields C g5 (c, none) (h ++ (k ++ left))
      (handler.forM fun x ↦ writeHandler id plan x.1 x.2) (c, none) (k ++ left) fun _ _ ↦ True := by
    cases handler with
    | none => exact skips
    | some x =>
      exact writesHandler (hplan.mono hle5) hK (haround.mono hle5) (tries_mono hle5 ht)
        ((hhandler x.1 x.2 rfl).run.later (le_trans hg2 hle5))
  refine hhandlers.bind fun g6 _ hle6 _ ↦ ?_
  have hle6 := le_trans hle5 hle6
  have hcleanups : (nesting K scopes).Yields C g6 (c, none) (k ++ left)
      (cleanup.forM fun code ↦ plan.finish.forM fun finish ↦ writeCleanup id finish code) (c, none) left
      fun _ _ ↦ True := by
    cases cleanup with
    | none => exact skips
    | some code =>
      obtain ⟨⟨_, _, _⟩, hfinish⟩ := Option.isSome_iff_exists.mp hplan.finish
      rw [hfinish]
      exact writesCleanup (hplan.mono hle6) hfinish (haround.mono hle6) (tries_mono hle6 ht)
        ((hcleanup code rfl).run.later (le_trans hg2 hle6))
  refine hcleanups.bind fun g7 _ hle7 _ ↦ ?_
  exact fromNowhere (marks (labels_mono (le_trans hle6 hle7) hplan.after))

lemma ordinary (hnode : node.IsOrdinary) (htargets : ∀ l ∈ node.targets, ∃ d, g.labels l = some (K.standing d) ∧
      ∃ e, c = e ++ d ∧ ∀ x ∈ K.standing e, x.isCleaning) :
    (nesting K scopes).Yields C g (c, some (K.standing c)) todo (emit node) (c, some (K.standing c)) todo
      fun _ _ ↦ True := by
  have htarget : ∀ l ∈ node.targets, ∃ Z, g.labels l = some Z ∧ (K.standing c).Sheds Z := by
    intro l hl
    obtain ⟨d, hat, e, rfl, hclean⟩ := htargets l hl
    exact ⟨K.standing d, hat, K.standing e, standing_append e d, hclean⟩
  have hkind := hnode.kind
  cases node with
  | jump l =>
    obtain ⟨Z, hl, hshed⟩ := htarget l (mem_singleton_self l)
    exact anywhere (stops (.jump (Y := []) hl hshed) rfl fun _ _ _ h ↦ by cases h) _
  | compare cond rep lhs rhs l =>
    obtain ⟨Z, hl, hshed⟩ := htarget l (mem_singleton_self l)
    exact emits (.compare hl hshed) rfl
  | test nonzero rep value l =>
    obtain ⟨Z, hl, hshed⟩ := htarget l (mem_singleton_self l)
    exact emits (.test hl hshed) rfl
  | throwValue value =>
    exact anywhere (stops (.throwValue (Y := []) (settled_standing c)) rfl fun _ _ _ h ↦ by cases h) _
  | cast | unary | binary | assign => exact emits (.steady rfl) rfl
  | _ => cases hkind

end Nesting

open Nesting in
lemma lawful_nesting (K : Context) (scopes : TryId → ScopeId) (label : String → Option (Path × ScopeId))
    (marker : Nat → Option Path) : (nesting K scopes).Lawful (nested K scopes label marker) where
  at_mono hg h := labels_mono hg h
  similar h hs := Nesting.similar h hs
  newLabel d := (Nesting.newLabel (K.standing d)).mono fun _ _ _ h ↦ h.1
  emit hnode htargets := ordinary hnode htargets
  mark hat hhere := by
    cases hhere
    exact Nesting.marks hat
  callStart _ := Nesting.emits (.steady rfl) rfl
  argument _ _ := Nesting.emits (.steady rfl) rfl
  call _ := Nesting.emits (.call (settled_standing _)) rfl
  jumpTo hC hat hjump := anywhere (Nesting.jumpsTo hC hat hjump) _
  returnFrom hC hreturns _ := anywhere (returns hC hreturns) _
  tryStatement _ htry hbody hhandler hcleanup := writesTry htry.1 htry.2 hbody hhandler hcleanup

/-! ## The end of a body -/

namespace Nesting

variable {C : Context} {todo : List TryId}

lemma around_nil (g : Notes) : g.Around [] := fun _ _ _ h ↦ by cases suffix_nil.mp h

lemma writesExit (hC : (nesting K scopes).Fits C) (he : g.Awaits K scopes e) :
    (nesting K scopes).Yields C g ([], none) todo (writeExit e) ([], none) todo fun _ _ ↦ True := by
  obtain ⟨t, ht, hlabel, front, d, hpath, htarget, hleaves⟩ := he
  refine .getBind fun s hs ↦ ?_
  obtain ⟨t', hlookup, hagrees⟩ := hs.1.books.lookup ht
  have hrecord : t'.record = t.record := hagrees.record
  have hscope : t'.scope = t.scope := hagrees.scope
  have houter : t.outer = K.standing t.path := hs.1.books.coherent.outer _ ht
  have haround := hs.1.books.coherent.around _ ht
  simp only [hlookup, hrecord, hscope]
  refine fromNowhere ((marks hlabel).bind fun g1 _ hle1 _ ↦ ?_)
  refine (emits (.tryEnd (tries_mono hle1 ht)) rfl).bind fun g2 _ hle2 _ ↦ ?_
  have hle2 := le_trans hle1 hle2
  refine (runsCleanup (tries_mono hle2 ht)).bind fun g3 _ hle3 _ ↦ ?_
  have hle3 := le_trans hle2 hle3
  rw [houter]
  exact moves (around_nil g3) (haround.mono hle3) (jumpsTo hC (labels_mono hle3 htarget) ⟨front, hpath, hleaves⟩)

lemma setsExits (hrest : ∀ e ∈ rest, g.Awaits K scopes e) :
    (nesting K scopes).Yields C g (c, P) todo (modify fun s ↦ { s with exits := rest }) (c, P) todo fun _ _ ↦ True := by
  intro s a s' hfresh hs hrun
  cases hrun
  refine ⟨g, le_refl g, hfresh, ⟨{ hs.1 with books := ?_ }, hs.2⟩, trivial⟩
  exact { hs.1.books with exits := hrest }

lemma writesExits (hC : (nesting K scopes).Fits C) (fuel : Nat) :
    (nesting K scopes).Yields C g ([], none) todo (writeExitsWithin fuel) ([], none) todo fun _ _ ↦ True := by
  induction fuel generalizing g with
  | zero => exact .fail _
  | succ fuel ih =>
    refine .getBind fun s hs ↦ ?_
    have hexits := hs.1.books.exits
    split
    · exact .pure trivial
    · rename_i e rest heq
      rw [heq] at hexits
      obtain ⟨he, hrest⟩ := forall_mem_cons.mp hexits
      refine Regime.Yields.bind (setsExits hrest) fun g1 _ hle1 _ ↦ ?_
      exact (writesExit hC (he.mono hle1)).bind fun g2 _ _ _ ↦ ih

lemma writesReturn : (nesting K scopes).Yields C g ([], none) todo writeReturn ([], none) todo fun _ _ ↦ True := by
  refine .getBind fun s hs ↦ .read ?_
  have hreturn := hs.1.books.returnLabel
  cases hlabel : s.returnLabel with
  | none => exact .pure trivial
  | some label =>
    refine Regime.Yields.bind (fromNowhere (marks (hreturn label hlabel))) fun g2 _ _ _ ↦ ?_
    exact stops (.ret (Y := []) (.refl [])) rfl fun _ _ _ h ↦ by cases h

lemma close_eq : close = (do if ← reachable then emit (.ret none)) >>= fun _ ↦ writeExits >>= fun _ ↦
    writeReturn := by
  rw [bind_assoc]
  refine bind_congr fun b ↦ ?_
  cases b with
  | true => rfl
  | false => rw [if_neg Bool.false_ne_true, if_neg Bool.false_ne_true, pure_bind]

lemma closes (hC : (nesting K scopes).Fits C) :
    (nesting K scopes).Yields C g ([], some []) todo close ([], none) todo fun _ _ ↦ True := by
  have hexits : ∀ g, (nesting K scopes).Yields C g ([], none) todo writeExits ([], none) todo fun _ _ ↦ True :=
    fun g ↦ .read (.getBind fun s _ ↦ writesExits hC _)
  have hret : (nesting K scopes).Yields C g ([], some []) todo (do if ← reachable then emit (.ret none)) ([], none) todo
      fun _ _ ↦ True :=
    ifReachable (stops (.ret (Y := []) (.refl [])) rfl fun _ _ _ h ↦ by cases h)
  rw [close_eq]
  exact hret.bind fun g1 _ _ _ ↦ (hexits g1).bind fun g2 _ _ _ ↦ writesReturn

end Nesting

end W16Compiler.Lowering
