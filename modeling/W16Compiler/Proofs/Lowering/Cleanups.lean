import W16Compiler.Proofs.Lowering.Unwinding
import Mathlib.Data.Nat.Init

/-!
# Cleanups run once, and the chain of exception records is balanced

In a scoped function a run gets into the cleanup of a try statement by a call of it alone, and it executes
the cleanup once between the point where the statement is entered and the first point outside of it. The
chain of exception records holds the records of the statements that protect the point of the run.
-/

namespace W16Compiler

open Lowering List Flow Standing

variable {g : Notes} {K : Context} {scopes : TryId → ScopeId} {X Y : Standing} {id : TryId} {t : Started}
  {start l : Label} {link : SlotId}

namespace Lowering

/-! ## The layer of a statement -/

namespace Standing

variable {Z : Standing}

def Owes (X : Standing) (id : TryId) : Prop := ∃ x ∈ X, x.id = id ∧ x.isOwing

def Inside (X : Standing) (id : TryId) : Prop := id ∈ X.map Layer.id

/-- The tries whose handlers are in force. -/
def protecting (X : Standing) : List TryId :=
  X.filterMap fun
    | .guarded id => some id
    | _ => none

lemma owes_cons : Owes (x :: X) id ↔ (x.id = id ∧ x.isOwing) ∨ X.Owes id := by
  simp [Owes, mem_cons, exists_eq_or_imp]

lemma Owes.inside (h : X.Owes id) : X.Inside id := by
  obtain ⟨x, hx, hid, -⟩ := h
  exact mem_map.mpr ⟨x, hx, hid⟩

lemma inside_of_cleaning (h : .cleaning id ∈ X) : X.Inside id := mem_map.mpr ⟨_, h, rfl⟩

lemma Inside.owes_or_cleaning (h : X.Inside id) : X.Owes id ∨ .cleaning id ∈ X := by
  obtain ⟨x, hx, rfl⟩ := mem_map.mp h
  cases x with
  | cleaning id => exact .inr hx
  | guarded id | due id | entering id => exact .inl ⟨_, hx, rfl, rfl⟩

lemma Owes.not_cleaning (h : X.Owes id) (hnodup : (X.map Layer.id).Nodup) : .cleaning id ∉ X := by
  intro hcleaning
  obtain ⟨x, hx, hid, howing⟩ := h
  cases inj_on_of_nodup_map hnodup hx hcleaning hid
  cases howing

lemma Sheds.owes_iff (hshed : X.Sheds Z) : X.Owes id ↔ Z.Owes id := by
  obtain ⟨e, rfl, he⟩ := hshed
  induction e with
  | nil => exact Iff.rfl
  | cons x e ih =>
    obtain ⟨hx, he⟩ := forall_mem_cons.mp he
    rw [cons_append, owes_cons, ih he]
    refine or_iff_right fun h ↦ ?_
    cases x <;> first | cases hx; done | cases h.2

lemma Sheds.subset (hshed : X.Sheds Z) : Z ⊆ X := by
  obtain ⟨e, rfl, -⟩ := hshed
  exact subset_append_right e Z

lemma Sheds.protecting_eq (hshed : X.Sheds Z) : X.protecting = Z.protecting := by
  obtain ⟨e, rfl, he⟩ := hshed
  have hnil : e.protecting = [] := by
    refine filterMap_eq_nil_iff.mpr fun x hx ↦ ?_
    have hcleaning := he x hx
    cases x <;> first | rfl | cases hcleaning
  rw [protecting, filterMap_append]
  exact congrArg (· ++ _) hnil

end Standing

namespace Notes

variable {X' : Standing} {p : Prim} {id' : TryId}

lemma protecting_raised (t : Started) (id : TryId) : (t.raised id).protecting = t.outer.protecting := by
  unfold Started.raised
  split <;> rfl

lemma owes_raised : (t.raised id').Owes id ↔ (t.cleanup.isSome ∧ id' = id) ∨ t.outer.Owes id := by
  unfold Started.raised
  split
  · rename_i hsome
    rw [owes_cons]
    exact or_congr ⟨fun h ↦ ⟨hsome, h.1⟩, fun h ↦ ⟨h.2, rfl⟩⟩ Iff.rfl
  · rename_i hnone
    exact (or_iff_right fun h ↦ hnone h.1).symm

lemma cleaning_mem_raised : .cleaning id ∈ t.raised id' ↔ .cleaning id ∈ t.outer := by
  unfold Started.raised
  split
  · rw [mem_cons]
    exact or_iff_right Layer.noConfusion
  · exact Iff.rfl

namespace Turns

variable (h : g.Turns X p X') (hcoherent : g.Coherent K scopes) (ht : (id, t) ∈ g.tries)
  (hcleanup : t.cleanup = some (start, link))

include h hcoherent ht

lemma of_owes (howes : X'.Owes id) : X.Owes id ∨ (∃ h, p = .tryBegin t.record h) ∧ ¬X.Inside id := by
  have hraised : ∀ {id' : TryId} {t' : Started}, (t'.raised id').Owes id → Owes (.guarded id' :: t'.outer) id := fun h ↦
    owes_cons.mpr ((owes_raised.mp h).imp_left fun h ↦ ⟨h.2, rfl⟩)
  cases h with
  | moves _ hshed => exact .inl (hshed.owes_iff.mpr howes)
  | raises _ _ he => exact .inl ((Sheds.owes_iff ⟨_, rfl, he⟩).mpr (hraised howes))
  | ends => exact .inl (hraised howes)
  | @begins _ id' _ handler ht' hX =>
    rcases owes_cons.mp howes with ⟨rfl, -⟩ | howes
    · cases hcoherent.unique ht ht' rfl
      have houtside : ¬t.outer.Inside id' := fun hinside ↦ by
        obtain ⟨x, hx, hid⟩ := mem_map.mp hinside
        exact hcoherent.ne_of_mem_outer ht hx hid
      rcases hX with rfl | rfl
      · exact .inr ⟨⟨handler, rfl⟩, houtside⟩
      · by_cases hsome : t.cleanup.isSome
        · exact .inl (owes_raised.mpr (.inl ⟨hsome, rfl⟩))
        · exact .inr ⟨⟨handler, rfl⟩, by rwa [Started.raised, if_neg hsome]⟩
    · rcases hX with rfl | rfl
      · exact .inl howes
      · exact .inl (owes_raised.mpr (.inr howes))
  | calls => exact .inl (owes_cons.mpr ((owes_cons.mp howes).imp_left fun h ↦ ⟨h.1, rfl⟩))
  | enters => exact .inl (owes_cons.mpr (.inr ((owes_cons.mp howes).resolve_left fun h ↦ Bool.noConfusion h.2)))
  | resumes => exact .inl (owes_cons.mpr (.inr howes))

include hcleanup

lemma owes (howes : X.Owes id) : X'.Owes id ∨ .cleaning id ∈ X' := by
  have hraised : ∀ {id' t'}, (id', t') ∈ g.tries → Owes (.guarded id' :: t'.outer) id → (t'.raised id').Owes id := by
    intro id' t' ht' h
    rcases owes_cons.mp h with ⟨rfl, -⟩ | h
    · cases hcoherent.unique ht ht' rfl
      exact owes_raised.mpr (.inl ⟨by rw [hcleanup]; rfl, rfl⟩)
    · exact owes_raised.mpr (.inr h)
  cases h with
  | moves _ hshed => exact .inl (hshed.owes_iff.mp howes)
  | raises _ ht' he => exact .inl (hraised ht' ((Sheds.owes_iff ⟨_, rfl, he⟩).mp howes))
  | ends ht' => exact .inl (hraised ht' howes)
  | begins _ hX =>
    refine .inl (owes_cons.mpr ?_)
    rcases hX with rfl | rfl
    · exact .inr howes
    · exact (owes_raised.mp howes).imp_left fun h ↦ ⟨h.2, rfl⟩
  | calls => exact .inl (owes_cons.mpr ((owes_cons.mp howes).imp_left fun h ↦ ⟨h.1, rfl⟩))
  | enters =>
    rcases owes_cons.mp howes with ⟨rfl, -⟩ | howes
    · exact .inr mem_cons_self
    · exact .inl (owes_cons.mpr (.inr howes))
  | resumes => exact .inl ((owes_cons.mp howes).resolve_left fun h ↦ Bool.noConfusion h.2)

lemma of_cleaning (hcleaning : .cleaning id ∈ X') : .cleaning id ∈ X ∨ X.Owes id ∧ p = .cleanupEntry start link := by
  cases h with
  | moves _ hshed => exact .inl (hshed.subset hcleaning)
  | raises => exact .inl (mem_append_right _ (mem_cons_of_mem _ (cleaning_mem_raised.mp hcleaning)))
  | ends => exact .inl (mem_cons_of_mem _ (cleaning_mem_raised.mp hcleaning))
  | begins _ hX =>
    have houter := (mem_cons.mp hcleaning).resolve_left Layer.noConfusion
    rcases hX with rfl | rfl
    · exact .inl houter
    · exact .inl (cleaning_mem_raised.mpr houter)
  | calls => exact .inl (mem_cons_of_mem _ ((mem_cons.mp hcleaning).resolve_left Layer.noConfusion))
  | enters ht' hcleanup' =>
    rcases mem_cons.mp hcleaning with heq | houter
    · cases heq
      cases hcoherent.unique ht ht' rfl
      cases hcleanup.symm.trans hcleanup'
      exact .inr ⟨owes_cons.mpr (.inl ⟨rfl, rfl⟩), rfl⟩
    · exact .inl (mem_cons_of_mem _ houter)
  | resumes => exact .inl (mem_cons_of_mem _ hcleaning)

omit h

lemma cleaning_of_entry (h : g.Turns X (.cleanupEntry l link) X') : .cleaning id ∈ X' := by
  cases h with
  | moves hp => cases hp
  | raises hp => cases hp
  | enters ht' hcleanup' =>
    cases hcoherent.links _ ht _ ht' _ _ _ hcleanup hcleanup'
    exact mem_cons_self

end Turns

lemma Admits.owes_of_entry (h : g.Admits X (.cleanupEntry l link) Y) (hcoherent : g.Coherent K scopes)
    (ht : (id, t) ∈ g.tries) (hcleanup : t.cleanup = some (start, link)) : X.Owes id := by
  cases h with
  | steady hp => cases hp
  | cleanupEntry ht' hcleanup' =>
    cases hcoherent.links _ ht _ ht' _ _ _ hcleanup hcleanup'
    exact owes_cons.mpr (.inl ⟨rfl, rfl⟩)

def recordOf (g : Notes) (id : TryId) : SlotId := ((g.tries.lookup id).map (·.record)).getD ⟨0⟩

lemma recordOf_of_mem (hcoherent : g.Coherent K scopes) (ht : (id, t) ∈ g.tries) : g.recordOf id = t.record := by
  rw [recordOf]
  cases hlookup : g.tries.lookup id with
  | none =>
    have hne := lookup_eq_none_iff.mp hlookup _ ht
    simp at hne
  | some t' =>
    cases hcoherent.unique ht (mem_of_lookup hlookup) rfl
    rfl

lemma Backs.of_protecting {records : SlotId → Option TryRecord}
    {mark : Option SlotId} (h : g.Backs records linked mark X) :
    (X.protecting = [] ∧ mark = none) ∨ ∃ id t r, X.protecting = id :: t.outer.protecting ∧ (id, t) ∈ g.tries ∧
      mark = some t.record ∧ records t.record = some r ∧ g.labels r.handler = some (t.raised id) ∧
      g.Backs records linked r.outer t.outer := by
  induction h with
  | nil => exact .inl ⟨rfl, rfl⟩
  | @guarded id t r ht hr hh h _ => exact .inr ⟨id, t, r, rfl, ht, rfl, hr, hh, h⟩
  | due _ _ ih => exact ih
  | called _ hx _ _ _ _ ih => rcases hx with hx | hx <;> rw [hx] <;> exact ih

end Notes

end Lowering

/-! ## Runs -/

inductive Chained (records : SlotId → Option TryRecord) : Option SlotId → List SlotId → Prop where
  | nil : Chained records none []
  | cons {slot : SlotId} {r : TryRecord} {slots : List SlotId} (hr : records slot = some r)
    (h : Chained records r.outer slots) : Chained records (some slot) (slot :: slots)

variable {records : SlotId → Option TryRecord} {mark : Option SlotId}

lemma Chained.unique {slots slots' : List SlotId} (h : Chained records mark slots)
    (h' : Chained records mark slots') : slots = slots' := by
  induction h generalizing slots' with
  | nil => cases h'; rfl
  | cons hr _ ih =>
    cases h' with
    | cons hr' h' =>
      cases hr.symm.trans hr'
      rw [ih h']

lemma Lowering.Notes.Backs.chained (hcoherent : g.Coherent K scopes)
    (h : g.Backs records linked mark X) : Chained records mark (X.protecting.map g.recordOf) := by
  induction h with
  | nil => exact .nil
  | guarded ht hr _ _ ih =>
    rw [← Notes.recordOf_of_mem hcoherent ht] at hr ⊢
    exact .cons hr ih
  | due _ _ ih => exact ih
  | called _ hx _ _ _ _ ih => rcases hx with hx | hx <;> rw [hx] <;> exact ih

namespace Flow

def At {V : Type} (flow : Flow) (W : World V) (st : PrimState V) (k : Nat) (P : Flow → Prop) : Prop :=
  ∃ rest st', flow.statusAt W st k = .running (rest, st') ∧ P rest

/-- A run has returned or thrown after so many steps. -/
def HasEnded {V : Type} (flow : Flow) (W : World V) (st : PrimState V) (k : Nat) : Prop :=
  ∃ o, flow.statusAt W st k = .ended o ∧ o ≠ .wild

/-- Each time that a run goes through a region, it enters the cleanup with a link once. -/
structure CleansOnce (flow : Flow) (inside : Flow → Prop) (record link : SlotId) : Prop where
  start : ¬inside flow
  /-- The region begins where the record is put on the chain. -/
  begins : ∀ {V : Type} (W : World V) mem sp k, flow.At W (.initial mem sp) k (¬inside ·) →
    flow.At W (.initial mem sp) (k + 1) inside → ∃ handler, flow.nodeAt W (.initial mem sp) k =
      some (.tryBegin record handler)
  within : ∀ {V : Type} (W : World V) mem sp k l, flow.nodeAt W (.initial mem sp) k = some (.cleanupEntry l link) →
    flow.At W (.initial mem sp) k inside
  /-- A run that has been inside of the region since a step and leaves it, or ends, has entered the cleanup once. -/
  once : ∀ {V : Type} (W : World V) mem sp i k, i < k → flow.At W (.initial mem sp) i (¬inside ·) →
    (∀ j, i < j → j ≤ k → flow.At W (.initial mem sp) j inside) →
    flow.At W (.initial mem sp) (k + 1) (¬inside ·) ∨ flow.HasEnded W (.initial mem sp) (k + 1) →
    ∃! j, i < j ∧ j ≤ k ∧ ∃ l, flow.nodeAt W (.initial mem sp) j = some (.cleanupEntry l link)

/-- A run gets into a region by one node only. -/
def EnteredBy (flow : Flow) (region : Flow → Prop) (p : Prim) : Prop :=
  ∀ {V : Type} (W : World V) mem sp k, flow.At W (.initial mem sp) k (¬region ·) →
    flow.At W (.initial mem sp) (k + 1) region → flow.nodeAt W (.initial mem sp) k = some p

/-- A cleanup is entered after it has been called, and it goes on where the latest call says. -/
structure CallsCleanups (flow : Flow) : Prop where
  entry : ∀ {V : Type} (W : World V) mem sp k l link, flow.nodeAt W (.initial mem sp) k = some (.cleanupEntry l link) →
    ∃ resume, flow.Awaits W (.initial mem sp) k link resume
  goesOn : ∀ {V : Type} (W : World V) mem sp k link resumes,
    flow.nodeAt W (.initial mem sp) k = some (.cleanupReturn link resumes) →
    ∃ resume ∈ resumes, flow.Awaits W (.initial mem sp) k link resume ∧
      ∃ rest st, flow.statusAt W (.initial mem sp) k = .running (rest, st) ∧ st.links link = some resume

/-- The records of the statements that protect a point are on the chain whenever a run gets there. -/
structure Balanced (flow : Flow) (regions : Flow → List TryId) (record : TryId → SlotId) : Prop where
  tryBegin : ∀ q rest slot handler, q :: rest <:+ flow → q.value = .tryBegin slot handler →
    ∃ id, regions rest = id :: regions (q :: rest) ∧ record id = slot
  tryEnd : ∀ q rest slot, q :: rest <:+ flow → q.value = .tryEnd slot →
    ∃ id, regions (q :: rest) = id :: regions rest ∧ record id = slot
  ret : ∀ q rest value, q :: rest <:+ flow → q.value = .ret value → regions (q :: rest) = []
  chained : ∀ {V : Type} (W : World V) mem sp k rest st, flow.statusAt W (.initial mem sp) k = .running (rest, st) →
    Chained st.records st.mark ((regions rest).map record)
  /-- An exception goes to a handler of the innermost statement, and to the caller if there is none. -/
  raise : ∀ {V : Type} (W : World V) mem sp k rest st value,
    flow.statusAt W (.initial mem sp) k = .running (rest, st) →
    (regions rest = [] → st.raise W value = .finish (.threw value (st.visible W))) ∧
    ∀ id ids, regions rest = id :: ids → ∃ handler st', st.raise W value = .handle handler value st' ∧
      (∃ q ∈ flow, q.value = .tryBegin (record id) handler) ∧ (∀ found, flow.seek handler = some found →
      regions found = ids) ∧ Chained st'.records st'.mark (ids.map record)

end Flow

namespace Lowering.Notes.Places

variable {V : Type} {W : World V} {flow rest rest' : Flow} {stand : Flow → Standing} {mem : Cell → V} {sp : Word}
  {st st' : PrimState V} {i k : Nat} {q : Item Prim} {P Q : Flow → Prop} (hplaces : g.Places flow stand)
  (hcoherent : g.Coherent K scopes)

include hplaces hcoherent

lemma nodup (h : flow.statusAt W (.initial mem sp) k = .running (rest, st)) : ((stand rest).map Layer.id).Nodup :=
  (hplaces.run hcoherent h).2.nodup hcoherent

lemma exists_turns (h : flow.At W (.initial mem sp) k P) (h' : flow.At W (.initial mem sp) (k + 1) Q) :
    ∃ q rest rest', P (q :: rest) ∧ Q rest' ∧ flow.nodeAt W (.initial mem sp) k = some q.value ∧
      (∀ R : Flow → Prop, R rest' → flow.At W (.initial mem sp) (k + 1) R) ∧
      g.Turns (stand (q :: rest)) q.value (stand rest') ∧ ((stand (q :: rest)).map Layer.id).Nodup ∧
      ((stand rest').map Layer.id).Nodup := by
  obtain ⟨rest', st', hstatus', hQ⟩ := h'
  obtain ⟨q, rest, _, hstatus⟩ := exists_of_running_succ hstatus'
  obtain ⟨_, _, hstatus1, hP⟩ := h
  cases hstatus.symm.trans hstatus1
  exact ⟨q, rest, rest', hP, hQ, nodeAt_of_running hstatus, fun R hR ↦ ⟨rest', st', hstatus', hR⟩,
    hplaces.turns hcoherent hstatus hstatus', hplaces.nodup hcoherent hstatus, hplaces.nodup hcoherent hstatus'⟩

lemma sheds_of_hasEnded
    (h : flow.statusAt W (.initial mem sp) k = .running (rest, st)) (hend : flow.HasEnded W (.initial mem sp) (k + 1)) :
    (stand rest).Sheds [] := by
  obtain ⟨o, hended, ho⟩ := hend
  obtain ⟨hsuffix, hbacks⟩ := hplaces.run hcoherent h
  cases rest with
  | nil =>
    cases (statusAt_succ_nil h).symm.trans hended
    exact (ho rfl).elim
  | cons q rest =>
    obtain ⟨_, hsucc⟩ := statusAt_succ h
    exact hplaces.finish hsuffix hbacks ho (hsucc.symm.trans hended)

section

variable (ht : (id, t) ∈ g.tries) (hcleanup : t.cleanup = some (start, link))

include ht hcleanup

lemma owes_of_entry (h : flow.nodeAt W (.initial mem sp) k = some (.cleanupEntry l link)) :
    flow.At W (.initial mem sp) k fun rest ↦ (stand rest).Owes id := by
  obtain ⟨q, rest, st, hstatus, hvalue⟩ := exists_of_nodeAt h
  have hnode := hplaces.node q rest (hplaces.run hcoherent hstatus).1
  rw [hvalue] at hnode
  exact ⟨q :: rest, st, hstatus, hnode.owes_of_entry hcoherent ht hcleanup⟩

lemma not_entry_of_cleaning (h : flow.At W (.initial mem sp) k fun rest ↦ .cleaning id ∈ stand rest) :
    flow.nodeAt W (.initial mem sp) k ≠ some (.cleanupEntry l link) := by
  intro hnode
  obtain ⟨_, _, hstatus, howes⟩ := hplaces.owes_of_entry hcoherent ht hcleanup hnode
  obtain ⟨_, _, hstatus', hcleaning⟩ := h
  cases hstatus.symm.trans hstatus'
  exact howes.not_cleaning (hplaces.nodup hcoherent hstatus) hcleaning

/-- While a run is inside of a statement, its cleanup is still to be run and has not been entered, or it is
being run and has been entered once. -/
lemma history (hik : i < k) (hout : flow.At W (.initial mem sp) i fun rest ↦ ¬(stand rest).Inside id)
    (hin : ∀ j, i < j → j ≤ k → flow.At W (.initial mem sp) j fun rest ↦ (stand rest).Inside id) :
    (flow.At W (.initial mem sp) k (fun rest ↦ (stand rest).Owes id) ∧
      ∀ j, i < j → j < k → ∀ l, flow.nodeAt W (.initial mem sp) j ≠ some (.cleanupEntry l link)) ∨
    (flow.At W (.initial mem sp) k (fun rest ↦ .cleaning id ∈ stand rest) ∧
      ∃! j, i < j ∧ j < k ∧ ∃ l, flow.nodeAt W (.initial mem sp) j = some (.cleanupEntry l link)) := by
  induction k, hik using Nat.le_induction with
  | base =>
    obtain ⟨q, _, _, houtside, hinside, -, hat, hturns, -⟩ :=
      hplaces.exists_turns hcoherent hout (hin (i + 1) (Nat.lt_succ_self i) le_rfl)
    rcases hinside.owes_or_cleaning with howes | hcleaning
    · exact .inl ⟨hat _ howes, fun j hij hj ↦ by omega⟩
    · rcases hturns.of_cleaning hcoherent ht hcleanup hcleaning with hcleaning | ⟨howes, -⟩
      · exact (houtside (inside_of_cleaning hcleaning)).elim
      · exact (houtside howes.inside).elim
  | succ k hik ih =>
    have hinside := hin (k + 1) (Nat.lt_succ_of_lt hik) le_rfl
    rcases ih fun j hij hjk ↦ hin j hij (Nat.le_succ_of_le hjk) with ⟨hat, hnone⟩ | ⟨hat, j, ⟨hij, hjk, hentry⟩,
      hunique⟩
    · obtain ⟨q, _, _, howes, hinside, hnode, hat', hturns, hnodup, hnodup'⟩ :=
        hplaces.exists_turns hcoherent hat hinside
      rcases hinside.owes_or_cleaning with howes' | hcleaning
      · refine .inl ⟨hat' _ howes', fun j hij hj l hentry ↦ ?_⟩
        rcases Nat.lt_succ_iff_lt_or_eq.mp hj with hlt | rfl
        · exact hnone j hij hlt l hentry
        · rw [Option.some.inj (hnode.symm.trans hentry)] at hturns
          exact howes'.not_cleaning hnodup' (hturns.cleaning_of_entry hcoherent ht hcleanup)
      · rcases hturns.of_cleaning hcoherent ht hcleanup hcleaning with hold | ⟨-, hvalue⟩
        · exact (howes.not_cleaning hnodup hold).elim
        · refine .inr ⟨hat' _ hcleaning, k, ⟨hik, Nat.lt_succ_self k, start, hvalue ▸ hnode⟩, ?_⟩
          rintro j ⟨hij, hj, l, hentry⟩
          rcases Nat.lt_succ_iff_lt_or_eq.mp hj with hlt | rfl
          · exact (hnone j hij hlt l hentry).elim
          · rfl
    · obtain ⟨q, _, _, hcleaning, hinside, -, hat', hturns, hnodup, -⟩ := hplaces.exists_turns hcoherent hat hinside
      rcases hinside.owes_or_cleaning with howes | hcleaning'
      · rcases hturns.of_owes hcoherent ht howes with howes | ⟨-, houtside⟩
        · exact (howes.not_cleaning hnodup hcleaning).elim
        · exact (houtside (inside_of_cleaning hcleaning)).elim
      · refine .inr ⟨hat' _ hcleaning', j, ⟨hij, Nat.lt_succ_of_lt hjk, hentry⟩, ?_⟩
        rintro j' ⟨hij', hj', l, hentry'⟩
        rcases Nat.lt_succ_iff_lt_or_eq.mp hj' with hlt | rfl
        · exact hunique j' ⟨hij', hlt, l, hentry'⟩
        · exact (hplaces.not_entry_of_cleaning hcoherent ht hcleanup hat hentry').elim

lemma cleansOnce : flow.CleansOnce (fun rest ↦ (stand rest).Inside id) t.record link where
  start := by
    rw [hplaces.start]
    exact not_mem_nil
  begins W mem sp k hout hin := by
    obtain ⟨q, rest, _, houtside, hinside, hnode, -, hturns, -⟩ := hplaces.exists_turns hcoherent hout hin
    rcases hinside.owes_or_cleaning with howes | hcleaning
    · rcases hturns.of_owes hcoherent ht howes with howes | ⟨⟨handler, hvalue⟩, -⟩
      · exact (houtside howes.inside).elim
      · exact ⟨handler, hvalue ▸ hnode⟩
    · rcases hturns.of_cleaning hcoherent ht hcleanup hcleaning with hcleaning | ⟨howes, -⟩
      · exact (houtside (inside_of_cleaning hcleaning)).elim
      · exact (houtside howes.inside).elim
  within W mem sp k l hentry := by
    obtain ⟨rest, st, hstatus, howes⟩ := hplaces.owes_of_entry hcoherent ht hcleanup hentry
    exact ⟨rest, st, hstatus, howes.inside⟩
  once W mem sp i k hik hout hin hleave := by
    rcases hplaces.history hcoherent ht hcleanup hik hout hin with ⟨hat, -⟩ | ⟨hat, j, ⟨hij, hjk, hentry⟩, hunique⟩
    · -- A cleanup that is still to be run keeps the run inside.
      exfalso
      rcases hleave with hout' | hended
      · obtain ⟨q, _, _, howes, houtside, -, -, hturns, -⟩ := hplaces.exists_turns hcoherent hat hout'
        rcases hturns.owes hcoherent ht hcleanup howes with howes | hcleaning
        · exact houtside howes.inside
        · exact houtside (inside_of_cleaning hcleaning)
      · obtain ⟨_, _, hstatus, howes⟩ := hat
        obtain ⟨x, hx, -⟩ := (hplaces.sheds_of_hasEnded hcoherent hstatus hended).owes_iff.mp howes
        exact not_mem_nil hx
    · refine ⟨j, ⟨hij, le_of_lt hjk, hentry⟩, ?_⟩
      rintro j' ⟨hij', hj', l, hentry'⟩
      rcases Nat.lt_or_eq_of_le hj' with hlt | rfl
      · exact hunique j' ⟨hij', hlt, l, hentry'⟩
      · exact (hplaces.not_entry_of_cleaning hcoherent ht hcleanup hat hentry').elim

lemma enteredBy : flow.EnteredBy (fun rest ↦ .cleaning id ∈ stand rest) (.cleanupEntry start link) := by
  intro V W mem sp k hout hin
  obtain ⟨q, _, _, hbefore, hafter, hnode, -, hturns, -⟩ := hplaces.exists_turns hcoherent hout hin
  rcases hturns.of_cleaning hcoherent ht hcleanup hafter with hcleaning | ⟨-, hvalue⟩
  · exact (hbefore hcleaning).elim
  · exact hvalue ▸ hnode

end

lemma balanced : flow.Balanced (fun rest ↦ (stand rest).protecting) g.recordOf where
  tryBegin q rest slot handler hsuffix hvalue := by
    generalize stand (q :: rest) = X, stand rest = Y, hvalue ▸ hplaces.node q rest hsuffix = hnode
    cases hnode with
    | steady hp => cases hp
    | @tryBegin _ id t _ ht hX =>
      refine ⟨id, congrArg (id :: ·) ?_, recordOf_of_mem hcoherent ht⟩
      rcases hX with rfl | rfl
      · rfl
      · exact (protecting_raised t id).symm
  tryEnd q rest slot hsuffix hvalue := by
    generalize stand (q :: rest) = X, stand rest = Y, hvalue ▸ hplaces.node q rest hsuffix = hnode
    cases hnode with
    | steady hp => cases hp
    | @tryEnd id t ht => exact ⟨id, congrArg (id :: ·) (protecting_raised t id).symm, recordOf_of_mem hcoherent ht⟩
  ret q rest value hsuffix hvalue := by
    generalize stand (q :: rest) = X, stand rest = Y, hvalue ▸ hplaces.node q rest hsuffix = hnode
    cases hnode with
    | steady hp => cases hp
    | ret hshed => exact hshed.protecting_eq
  chained W mem sp k rest st hstatus := (hplaces.run hcoherent hstatus).2.chained hcoherent
  raise W mem sp k rest st value hstatus := by
    obtain ⟨-, hbacks⟩ := hplaces.run hcoherent hstatus
    rcases hbacks.of_protecting with ⟨hnil, hmark⟩ | ⟨id, t, r, heq, ht, hmark, hr, hh, hback⟩
    · refine ⟨fun _ ↦ ?_, fun id ids heq ↦ ?_⟩
      · simp [PrimState.raise, hmark]
      · cases hnil.symm.trans heq
    · refine ⟨fun hnil ↦ ?_, fun id' ids heq' ↦ ?_⟩
      · cases hnil.symm.trans heq
      · cases heq.symm.trans heq'
        refine ⟨r.handler, { st with mark := r.outer, sp := r.sp }, ?_, ?_, fun _ hseek ↦ ?_, hback.chained hcoherent⟩
        · simp [PrimState.raise, hmark, hr]
        · obtain ⟨m, -, hnode⟩ := records_run hstatus hr
          obtain ⟨q, _, _, hstatus', hvalue⟩ := exists_of_nodeAt hnode
          refine ⟨q, (hplaces.run hcoherent hstatus').1.subset mem_cons_self, ?_⟩
          rw [hvalue, recordOf_of_mem hcoherent ht]
        · rw [hplaces.stand_of_seek hh hseek, protecting_raised]

lemma awaits (h : flow.statusAt W (.initial mem sp) k = .running (q :: rest, st))
    (hvalue : (∃ l, q.value = .cleanupEntry l link) ∨ ∃ resumes, q.value = .cleanupReturn link resumes) :
    ∃ resume, st.links link = some resume ∧ flow.Awaits W (.initial mem sp) k link resume := by
  obtain ⟨hsuffix, hbacks⟩ := hplaces.run hcoherent h
  have hnode := hplaces.node q rest hsuffix
  generalize stand (q :: rest) = X, stand rest = Y at hnode hbacks
  rcases hvalue with ⟨l, hvalue⟩ | ⟨_, hvalue⟩ <;> rw [hvalue] at hnode
  · cases hnode with
    | steady hp => cases hp
    | cleanupEntry ht hcleanup =>
      obtain ⟨resume, hlinked, -⟩ := hbacks.of_called hcoherent ht hcleanup (.inl rfl)
      exact ⟨resume, hlinked⟩
  · cases hnode with
    | steady hp => cases hp
    | cleanupReturn ht hcleanup =>
      obtain ⟨resume, hlinked, -⟩ := hbacks.of_called hcoherent ht hcleanup (.inr rfl)
      exact ⟨resume, hlinked⟩

lemma callsCleanups
    (hresumes : ∀ p ∈ flow, ∀ q ∈ flow, ∀ start link resume resumes, p.value = .cleanupCall start link resume →
      q.value = .cleanupReturn link resumes → resume ∈ resumes) : flow.CallsCleanups where
  entry W mem sp k l link hnode := by
    obtain ⟨q, rest, st, hstatus, hvalue⟩ := exists_of_nodeAt hnode
    obtain ⟨resume, -, hawaits⟩ := hplaces.awaits hcoherent hstatus (.inl ⟨l, hvalue⟩)
    exact ⟨resume, hawaits⟩
  goesOn W mem sp k link resumes hnode := by
    obtain ⟨q, rest, st, hstatus, hvalue⟩ := exists_of_nodeAt hnode
    obtain ⟨resume, hlink, hawaits⟩ := hplaces.awaits hcoherent hstatus (.inr ⟨resumes, hvalue⟩)
    refine ⟨resume, ?_, hawaits, q :: rest, st, hstatus, hlink⟩
    -- The call is a node of the flow list, so the end of the cleanup lists its label.
    obtain ⟨m, -, ⟨start, hcall⟩, -⟩ := hawaits
    obtain ⟨q', _, _, hstatus', hvalue'⟩ := exists_of_nodeAt hcall
    have hmem := (hplaces.run hcoherent hstatus).1.subset mem_cons_self
    have hmem' := (hplaces.run hcoherent hstatus').1.subset mem_cons_self
    exact hresumes q' hmem' q hmem start link resume resumes hvalue' hvalue

end Lowering.Notes.Places

/-! ## Scoped functions -/

variable {f : FunctionDef} {n : Names} {label next : Nat} {p : PrimFunction}

namespace FunctionDef

/-- The points of a nested function stand where the clauses of its source put them. -/
structure Stands (f : FunctionDef) (n : Names) (label : Nat) (flow : Flow) (g : Notes) (stand : Flow → Standing) :
    Prop where
  nested : f.IsNested n label g flow
  places : g.Places flow stand
  named : ∀ name l scope found, (f.context n label).labels.lookup name = some (l, scope) →
    flow.seek l = some found → stand found = (f.context n label).standing (f.labelPath name)
  marked : ∀ marker l found, (f.context n label).cases[marker]? = some l →
    flow.seek l = some found → stand found = (f.context n label).standing (f.markerPath marker)

lemma Scoped.exists_stands (hf : f.Scoped n) (h : f.lower n label = .ok (p, next)) :
    ∃ g stand, f.Stands n label p.prims g stand := by
  obtain ⟨g, hnested⟩ := hf.exists_isNested h
  obtain ⟨Z, hleads⟩ := hnested.leads
  obtain ⟨stand, hstart, hnode⟩ := hleads.exists_stand
  have hplaces : g.Places p.prims stand := ⟨hstart, hnode⟩
  refine ⟨g, stand, hnested, hplaces, fun _ l _ _ hl hseek ↦ ?_, fun _ l _ hl hseek ↦ ?_⟩
  · exact hplaces.stand_of_seek (Notes.labels_mono hnested.notes_le (labels_named hl).2) hseek
  · exact hplaces.stand_of_seek (Notes.labels_mono hnested.notes_le (labels_case hl)) hseek

end FunctionDef

namespace Lowering.Example

/-- `try { try { g(); return; } finally { g(); } } catch (int x) { goto done; } finally { g(); } done: ;` -/
def leaving : FunctionDef where
  decl := ⟨0⟩
  label := "f"
  exported := true
  result := .void
  params := []
  hiddenResult := false
  body :=
    let i (scope : Nat) : StmtInfo := ⟨⟨scope⟩, .builtin⟩
    let g (scope : Nat) : Stmt := .expr (i scope) (.call ⟨.void, .builtin⟩ (.direct "g") [])
    .block (i 1) [
      .tryStmt (i 1) ⟨0⟩
        (.tryStmt (i 2) ⟨1⟩ (.block (i 3) [g 3, .ret (i 3) none]) none (some (g 2)))
        (some (.mk ⟨0⟩ (.goto (i 4) "done")))
        (some (g 1)),
      .label (i 1) "done" (.empty (i 1))]
  paramScope := ⟨1⟩
  tries := [true, true]
  cases := 0
  loc := .builtin

def names : Names where
  types := .initial
  symbols := {
    scopes := #[default, ⟨.param, some ⟨0⟩, [], []⟩, ⟨.tryBody ⟨0⟩, some ⟨1⟩, [], []⟩,
      ⟨.tryBody ⟨1⟩, some ⟨2⟩, [], []⟩, ⟨.catchBody ⟨0⟩, some ⟨1⟩, [], []⟩]
    decls := #[⟨"x", .variable .int .none .stack, ⟨4⟩, .builtin⟩] }

lemma sites_leaving : leaving.sites = [ ⟨[], [], ⟨1⟩, .tries ⟨0⟩ true⟩, ⟨[(⟨0⟩, .body)], [], ⟨2⟩, .tries ⟨1⟩ true⟩,
    ⟨[(⟨1⟩, .body), (⟨0⟩, .body)], [], ⟨3⟩, .returns⟩, ⟨[(⟨0⟩, .handler)], [], ⟨4⟩, .jumps "done"⟩,
    ⟨[], [], ⟨1⟩, .named "done"⟩] := by
  simp [FunctionDef.sites, leaving, Stmt.sites, Stmt.allSites, Stmt.sites?, Handler.sites?, Expr.sites, Expr.allSites,
    Callee.sites, Expr.sites?]

lemma allows_leaving (hx : x ∈ leaving.sites) : (leaving.jumps names 0).Allows x := by
  have hlabel : (leaving.jumps names 0).label "done" = some ([], ⟨1⟩) := by decide +kernel
  rw [sites_leaving] at hx
  simp only [mem_cons, not_mem_nil, or_false] at hx
  rcases hx with rfl | rfl | rfl | rfl | rfl
  · exact ⟨by decide +kernel, by decide +kernel⟩
  · exact ⟨by decide +kernel, by decide +kernel⟩
  · change Context.leaves _ _ _ _ _ = true
    decide +kernel
  · change ∀ d scope, (leaving.jumps names 0).label "done" = some (d, scope) → (leaving.jumps names 0).jump _ _ d scope
    rw [hlabel]
    intro d scope hl
    cases hl
    exact ⟨[(⟨0⟩, .handler)], rfl, by decide +kernel⟩
  · change ∀ d scope, (leaving.jumps names 0).label "done" = some (d, scope) → d = []
    rw [hlabel]
    intro d _ hl
    cases hl
    rfl

lemma scoped_leaving : leaving.Scoped names where
  nodup := by
    rw [sites_leaving]
    decide
  allows _ hx := allows_leaving hx

lemma exists_lowered {r : Except InternalFault (PrimFunction × Nat)} {P : PrimFunction → Bool} (h : (match r with
      | .ok (p, _) => P p
      | .error _ => false) = true) : ∃ p next, r = .ok (p, next) ∧ P p := by
  cases r with
  | ok x => exact ⟨x.1, x.2, rfl, h⟩
  | error _ => cases h

def world : World Unit where
  constant _ := ()
  slotAddress _ _ := ()
  param := 0
  symbol _ := 0
  locate _ _ := .outer 0
  unary _ _ _ _ := ()
  binary _ _ _ _ _ := ()
  cast _ _ _ _ := ()
  order _ _ _ := .eq
  isZero _ _ := true
  hidden _ := false
  answer _ := .returns (fun _ ↦ none) fun _ ↦ ()

def initial : PrimState Unit := .initial (fun _ ↦ ()) 0

end Lowering.Example

/-- Each time that a run goes through a try statement with a cleanup, it runs the cleanup once before it gets to
a point outside of the statement. -/
theorem FunctionDef.Scoped.cleanups_once (hf : f.Scoped n) (h : f.lower n label = .ok (p, next)) :
    ∃ g stand, f.Stands n label p.prims g stand ∧ ∀ id t start link, (id, t) ∈ g.tries →
      t.cleanup = some (start, link) → Flow.CleansOnce p.prims (fun rest ↦ (stand rest).Inside id) t.record link := by
  obtain ⟨g, stand, hstands⟩ := hf.exists_stands h
  refine ⟨g, stand, hstands, fun id t start link ht hcleanup ↦ ?_⟩
  exact hstands.places.cleansOnce hstands.nested.coherent ht hcleanup

/-- The cleanup of the statement inside, with the link in slot 3. -/
theorem Lowering.Example.cleanups_once_leaving :
    ∃ p next, leaving.lower names 0 = .ok (p, next) ∧ (∃ q ∈ p.prims, q.value = .cleanupEntry ⟨5⟩ ⟨3⟩) ∧
      ∃ inside record, Flow.CleansOnce p.prims inside record ⟨3⟩ := by
  obtain ⟨p, next, hlower, hentry⟩ : ∃ p next, leaving.lower names 0 = .ok (p, next) ∧
      p.prims.any (·.value = .cleanupEntry ⟨5⟩ ⟨3⟩) := exists_lowered (by decide +kernel)
  obtain ⟨q, hq, hvalue⟩ := List.any_eq_true.mp hentry
  have hvalue := of_decide_eq_true hvalue
  refine ⟨p, next, hlower, ⟨q, hq, hvalue⟩, ?_⟩
  obtain ⟨g, stand, hstands, honce⟩ := FunctionDef.Scoped.cleanups_once scoped_leaving hlower
  obtain ⟨before, after, heq⟩ := List.append_of_mem hq
  have hnode := hstands.places.node q after (heq ▸ List.suffix_append before _)
  rw [hvalue] at hnode
  generalize stand (q :: after) = X, stand after = Y at hnode
  cases hnode with
  | steady hp => cases hp
  | cleanupEntry ht hcleanup => exact ⟨_, _, honce _ _ _ _ ht hcleanup⟩

/-- At every point of a run the records on the chain are those of the statements that protect the point. -/
theorem FunctionDef.Scoped.chain_balanced (hf : f.Scoped n) (h : f.lower n label = .ok (p, next)) :
    ∃ g stand, f.Stands n label p.prims g stand ∧
      Flow.Balanced p.prims (fun rest ↦ (stand rest).protecting) g.recordOf := by
  obtain ⟨g, stand, hstands⟩ := hf.exists_stands h
  exact ⟨g, stand, hstands, hstands.places.balanced hstands.nested.coherent⟩

/-- In the body of the statement inside both records are on the chain. -/
theorem Lowering.Example.chain_balanced_leaving :
    ∃ p next, leaving.lower names 0 = .ok (p, next) ∧ ∃ regions record, Flow.Balanced p.prims regions record ∧
      ∃ rest st, Flow.statusAt world p.prims initial 3 = .running (rest, st) ∧
        (regions rest).map record = [⟨2⟩, ⟨0⟩] := by
  obtain ⟨p, next, hlower, hrun⟩ : ∃ p next, leaving.lower names 0 = .ok (p, next) ∧
      (match Flow.statusAt world p.prims initial 3 with
        | .running (_, st) => st.mark = some ⟨2⟩ && (st.records ⟨2⟩).map (·.outer) = some (some ⟨0⟩) &&
          (st.records ⟨0⟩).map (·.outer) = some none
        | .ended _ => false : Bool) := exists_lowered (by decide +kernel)
  obtain ⟨g, stand, -, hbalanced⟩ := FunctionDef.Scoped.chain_balanced scoped_leaving hlower
  refine ⟨p, next, hlower, _, _, hbalanced, ?_⟩
  split at hrun
  · rename_i rest st hstatus
    simp only [Bool.and_eq_true, decide_eq_true_eq, Option.map_eq_some_iff] at hrun
    obtain ⟨⟨hmark, r, hr, houter⟩, r', hr', houter'⟩ := hrun
    have hchained := hbalanced.chained world _ _ 3 rest st hstatus
    refine ⟨rest, st, hstatus, hchained.unique ?_⟩
    rw [hmark]
    refine .cons hr ?_
    rw [houter]
    refine .cons hr' ?_
    rw [houter']
    exact .nil
  · cases hrun

/-- A run gets into a cleanup by its entry alone, which is executed after a call of the cleanup, and the end of the
cleanup goes on where the latest call says. -/
theorem FunctionDef.Scoped.cleanups_called (hf : f.Scoped n) (h : f.lower n label = .ok (p, next)) :
    ∃ g stand, f.Stands n label p.prims g stand ∧ Flow.CallsCleanups p.prims ∧ ∀ id t start link, (id, t) ∈ g.tries →
      t.cleanup = some (start, link) →
      Flow.EnteredBy p.prims (fun rest ↦ .cleaning id ∈ stand rest) (.cleanupEntry start link) := by
  obtain ⟨g, stand, hstands⟩ := hf.exists_stands h
  have hcoherent := hstands.nested.coherent
  refine ⟨g, stand, hstands, hstands.places.callsCleanups hcoherent hstands.nested.resumes, ?_⟩
  exact fun id t start link ht hcleanup ↦ hstands.places.enteredBy hcoherent ht hcleanup

/-- The cleanup of the statement inside has been called by the exit that the return takes. -/
theorem Lowering.Example.cleanups_called_leaving :
    ∃ p next, leaving.lower names 0 = .ok (p, next) ∧
      Flow.nodeAt world p.prims initial 12 = some (.cleanupReturn ⟨3⟩ [⟨10⟩, ⟨15⟩]) ∧
      ∃ resume ∈ [(⟨10⟩ : Label), ⟨15⟩], Flow.Awaits world p.prims initial 12 ⟨3⟩ resume := by
  obtain ⟨p, next, hlower, hrun⟩ : ∃ p next, leaving.lower names 0 = .ok (p, next) ∧
      decide (Flow.nodeAt world p.prims initial 12 = some (.cleanupReturn ⟨3⟩ [⟨10⟩, ⟨15⟩])) :=
    exists_lowered (by decide +kernel)
  have hnode := of_decide_eq_true hrun
  obtain ⟨g, stand, -, hcalls, -⟩ := FunctionDef.Scoped.cleanups_called scoped_leaving hlower
  obtain ⟨resume, hresume, hawaits, -⟩ := hcalls.goesOn world _ _ 12 _ _ hnode
  exact ⟨p, next, hlower, hnode, resume, hresume, hawaits⟩

end W16Compiler
