import W16Compiler.Proofs.Prim.Rewriting

/-!
# Passes over temporaries

What every pass needs of a flow list and keeps: labels are defined once, and a slot that holds a struct
or an array is read through its address only, since an operand in a block representation names the
place of the block and not its words.

A temporary that nobody mentions is lost: computing it changes nothing that can be seen. A temporary
that is computed for the next node to copy, and is mentioned nowhere else, is lost once the value goes
to the copy's place directly.
-/

namespace W16Compiler

open List Option Prim Flow

mutual

def Operand.loaded : Operand → List SlotId
  | .load place => place.loaded
  | _ => []

def Place.loaded : Place → List SlotId
  | .slot s _ => [s]
  | .indirect pointer _ => pointer.loaded
  | _ => []

end

def Place.addressLoaded : Place → List SlotId
  | .indirect pointer _ => pointer.loaded
  | _ => []

namespace Prim

def loaded (p : Prim) : List SlotId :=
  p.operands.flatMap (·.loaded) ++ (p.dst.map (·.addressLoaded)).getD []

def blockSlot? (p : Prim) : Option SlotId :=
  match p.dst, p.dstRep with
  | some (.slot s _), some (.block _) => some s
  | _, _ => none

end Prim

namespace Flow

def loaded (flow : Flow) : List SlotId := flow.flatMap (·.value.loaded)

def blockSlots (flow : Flow) : List SlotId := flow.filterMap (·.value.blockSlot?)

/-- Labels are defined once, and no block is read as a value. -/
structure WellFormed (flow : Flow) : Prop where
  labels_nodup : flow.labels.Nodup
  notMem_loaded : ∀ s ∈ flow.blockSlots, s ∉ flow.loaded

/-- A flow list mentions no more than another one. -/
structure Within (flow' flow : Flow) : Prop where
  labels : flow'.labels.Sublist flow.labels
  blockSlots : flow'.blockSlots ⊆ flow.blockSlots
  loaded : flow'.loaded ⊆ flow.loaded

variable {flow flow' : Flow} {s : SlotId}

lemma WellFormed.of_within (h : flow.WellFormed) (hw : Within flow' flow) : flow'.WellFormed where
  labels_nodup := h.labels_nodup.sublist hw.labels
  notMem_loaded s hs hl := h.notMem_loaded s (hw.blockSlots hs) (hw.loaded hl)

lemma mem_blockSlots : s ∈ flow.blockSlots ↔ ∃ p ∈ flow, p.value.blockSlot? = some s := mem_filterMap

lemma mem_loaded : s ∈ flow.loaded ↔ ∃ p ∈ flow, s ∈ p.value.loaded := mem_flatMap

lemma Within.of_nodes (hlabels : flow'.labels.Sublist flow.labels) (h : ∀ p ∈ flow', p ∈ flow ∨
      (∀ s, p.value.blockSlot? = some s → s ∈ flow.blockSlots) ∧ ∀ s ∈ p.value.loaded, s ∈ flow.loaded) :
    Within flow' flow where
  labels := hlabels
  blockSlots s hs := by
    obtain ⟨p, hp, hs⟩ := mem_blockSlots.mp hs
    rcases h p hp with hp | hp
    · exact mem_blockSlots.mpr ⟨p, hp, hs⟩
    · exact hp.1 s hs
  loaded s hs := by
    obtain ⟨p, hp, hs⟩ := mem_loaded.mp hs
    rcases h p hp with hp | hp
    · exact mem_loaded.mpr ⟨p, hp, hs⟩
    · exact hp.2 s hs

lemma Within.of_sublist (h : Sublist flow' flow) : Within flow' flow :=
  .of_nodes (h.filterMap _) fun _ hp ↦ .inl (h.subset hp)

lemma Within.trans (h : Within flow'' flow') (h' : Within flow' flow) : Within flow'' flow :=
  ⟨h.labels.trans h'.labels, Subset.trans h.blockSlots h'.blockSlots, Subset.trans h.loaded h'.loaded⟩

lemma Within.of_map (hlabel : ∀ p, (k p).value.definedLabel = p.value.definedLabel)
    (hblock : ∀ p, (k p).value.blockSlot? = p.value.blockSlot?) (hloaded : ∀ p, (k p).value.loaded = p.value.loaded) :
    Within (flow.map k) flow where
  labels := by simp [Flow.labels, filterMap_map, hlabel]
  blockSlots := by simp [Flow.blockSlots, filterMap_map, hblock]
  loaded := by simp [Flow.loaded, flatMap_map, hloaded]

end Flow

variable {V : Type} {W : World V}

lemma Prim.act_of_isPure {p : Prim} (hp : p.isPure) : ∃ dst rep, p.dst = some dst ∧ p.dstRep = some rep ∧
      ∀ (W : World V) (past : List (CallEvent V)) (st : PrimState V), p.act W past st =
        (none, .next (st.write W.toModel dst rep.words (p.value W.toModel st))) := by
  cases p with
  | cast dst rep src srcRep | unary op rep dst src | binary op rep dst lhs rhs | assign rep dst src =>
    exact ⟨dst, rep, rfl, rfl, fun _ _ _ ↦ rfl⟩
  | _ => cases hp

lemma Prim.withDst_spec (p : Prim) (d : Place) :
    (p.withDst d).definedLabel = p.definedLabel ∧ (p.withDst d).operands = p.operands ∧
      (p.withDst d).dst = p.dst.map (fun _ ↦ d) ∧ (p.withDst d).dstRep = p.dstRep := by
  cases p with
  | call target words result => cases target <;> cases result <;> exact ⟨rfl, rfl, rfl, rfl⟩
  | catchEntry l dst => cases dst <;> exact ⟨rfl, rfl, rfl, rfl⟩
  | _ => exact ⟨rfl, rfl, rfl, rfl⟩

variable {P : Provenance W} {d : Slack W} {past : List (CallEvent V)} {st st' : PrimState V} {t s : SlotId} {rep : Rep}
  {dst : Place} {target : CallTarget} {mem : Cell → V} {words : Nat} {isTemp : SlotId → Bool} {flow : Flow}

/-- A call whose result is lost goes on like one whose result is not asked for. -/
lemma Similar.call_lost (h : Similar P d past st st') (hs : d.lost s)
    (offset : Int) (rep : Rep) (hr : ∀ t ∈ (call target words none).readSlots, d.reached t) :
    ((call target words (some (.slot s offset, rep))).act W past st).1 = ((call target words none).act W past st').1 ∧
      Move.Similar P d (((call target words (some (.slot s offset, rep))).act W past st).1.toList ++ past)
        ((call target words (some (.slot s offset, rep))).act W past st).2
        ((call target words none).act W past st').2 := by
  have hev := h.callEvent hr
  have hstore : ∀ (u u' : PrimState V) (value : Nat → V),
      Similar P d (st'.callEvent W target words :: past) u u' → (∀ i, d.Allows P (value i)) →
      Similar P d (st'.callEvent W target words :: past)
        (id (u.store W.toModel (some (.slot s offset, rep)) value)) (u'.store W.toModel none value) :=
    fun u u' value hu _ ↦ hu.write_lost hs offset rep.words value
  refine ⟨congrArg some hev, ?_⟩
  simp only [Prim.act, hev]
  simpa using (h.observed hr).afterCall words hstore

namespace Flow

def unread (W : World V) (hh : ∀ s, isTemp s → W.hidden s) (flow : Flow) : Slack W where
  rename := id
  labels _ := True
  lost s := isTemp s ∧ s ∉ flow.reads
  reached s := s ∈ flow.reads
  hidden_of_lost s h := hh s h.1
  not_lost_of_reached _ h h' := h'.2 h

lemma mem_reads {p : Item Prim} (hp : p ∈ flow) (hs : s ∈ p.value.readSlots) : s ∈ flow.reads :=
  mem_flatMap.mpr ⟨p, hp, hs⟩

/-! ## Unread temporaries -/

def liveNode (isTemp : SlotId → Bool) (reads : List SlotId) (p : Item Prim) : Option (Item Prim) :=
  match p.value.dst with
  | some (.slot s _) => if isTemp s && !reads.contains s then withoutResult p else some p
  | _ => some p

def keepLive (isTemp : SlotId → Bool) (reads : List SlotId) (flow : Flow) : Flow :=
  flow.filterMap (liveNode isTemp reads)

/-- A node computes an unread temporary, and nothing else or a call is left of it. -/
structure Dead (isTemp : SlotId → Bool) (reads : List SlotId) (p : Item Prim) (s : SlotId)
    (offset : Int) : Prop where
  dst : p.value.dst = some (.slot s offset)
  temp : isTemp s
  notMem : s ∉ reads
  rest : (p.value.isPure ∧ liveNode isTemp reads p = none) ∨
    ∃ target words result, p.value = .call target words result ∧
      liveNode isTemp reads p = some { p with value := .call target words none }

lemma withoutResult_of_isPure {p : Item Prim} (hp : p.value.isPure) : withoutResult p = none := by
  cases hv : p.value <;> simp_all [withoutResult, isPure]

lemma liveNode_cases (isTemp : SlotId → Bool) (reads : List SlotId) (p : Item Prim) :
    liveNode isTemp reads p = some p ∨ ∃ s offset, Dead isTemp reads p s offset := by
  by_cases hdead : ∃ s offset, p.value.dst = some (.slot s offset) ∧ isTemp s ∧ s ∉ reads
  · obtain ⟨s, offset, hdst, ht, hs⟩ := hdead
    have heq : liveNode isTemp reads p = withoutResult p := by
      simp [liveNode, hdst, ht, hs]
    by_cases hpure : p.value.isPure
    · refine .inr ⟨s, offset, hdst, ht, hs, .inl ⟨hpure, ?_⟩⟩
      rw [heq, withoutResult_of_isPure hpure]
    · cases hv : p.value with
      | call target words result =>
        refine .inr ⟨s, offset, hdst, ht, hs, .inr ⟨target, words, result, hv, ?_⟩⟩
        rw [heq, withoutResult, hv]
      | _ => simp_all [withoutResult]
  · refine .inl ?_
    rw [liveNode]
    split
    · rename_i s offset hdst
      have hs : isTemp s → s ∈ reads := fun ht ↦ by
        by_contra hs
        exact hdead ⟨s, offset, hdst, ht, hs⟩
      cases ht : isTemp s with
      | false => simp
      | true => simp [hs ht]
    · rfl

lemma Dead.definedLabel {reads : List SlotId} {p : Item Prim}
    (h : Dead isTemp reads p s offset) : p.value.definedLabel = none := by
  rcases h.rest with ⟨hp, -⟩ | ⟨_, _, _, hp, -⟩
  · cases hv : p.value <;> simp_all [isPure, Prim.definedLabel]
  · simp [hp, Prim.definedLabel]

variable {l : Label} {rest a : Flow}

lemma liveNode_of_label {reads : List SlotId} {p : Item Prim} (hp : p.value.definedLabel = some l) :
    liveNode isTemp reads p = some p := by
  rcases liveNode_cases isTemp reads p with h | ⟨s, offset, h⟩
  · exact h
  · rw [h.definedLabel] at hp
    cases hp

lemma of_liveNode {reads : List SlotId} {p q : Item Prim} (h : liveNode isTemp reads p = some q) :
    q = p ∨ ∃ target words result, p.value = .call target words result ∧ q.value = .call target words none := by
  rcases liveNode_cases isTemp reads p with heq | ⟨s, offset, hd⟩
  · exact .inl (some.inj (h.symm.trans heq))
  · rcases hd.rest with ⟨-, heq⟩ | ⟨target, words, result, hv, heq⟩
    · cases heq.symm.trans h
    · exact .inr ⟨target, words, result, hv, by rw [← some.inj (heq.symm.trans h)]⟩

lemma definedLabel_liveNode {reads : List SlotId} {p q : Item Prim}
    (h : liveNode isTemp reads p = some q) : q.value.definedLabel = p.value.definedLabel := by
  rcases of_liveNode h with rfl | ⟨_, _, _, hp, hq⟩
  · rfl
  · rw [hp, hq]
    rfl

lemma readSlots_call_none (h : s ∈ (call target words none).readSlots) :
    s ∈ (call target words result).readSlots := by
  simp only [readSlots, dst, map_none, getD_none, append_nil] at h
  simp only [readSlots, append_assoc]
  refine mem_append_left _ ?_
  cases target <;> exact h

lemma readSlots_liveNode {reads : List SlotId} {p q : Item Prim}
    (h : liveNode isTemp reads p = some q) (hs : s ∈ q.value.readSlots) : s ∈ p.value.readSlots := by
  rcases of_liveNode h with rfl | ⟨_, _, _, hp, hq⟩
  · exact hs
  · rw [hq] at hs
    rw [hp]
    exact readSlots_call_none hs

lemma reads_keepLive (isTemp : SlotId → Bool) (reads : List SlotId) (flow : Flow) :
    (keepLive isTemp reads flow).reads ⊆ flow.reads := by
  intro s hs
  obtain ⟨q, hq, hs⟩ := mem_flatMap.mp hs
  obtain ⟨p, hp, hk⟩ := mem_filterMap.mp hq
  exact mem_reads hp (readSlots_liveNode hk hs)

lemma removeDeadTemps_rewrites (hh : ∀ s, isTemp s → W.hidden s) (flow : Flow) :
    Rewrites (unread W hh (flow.removeDeadTemps isTemp)) flow (flow.removeDeadTemps isTemp)
      (keepLive isTemp flow.reads) (· <:+ flow) where
  rename := rfl
  start := rfl
  spot_start := suffix_rfl
  spot_seek _ _ := seek_suffix
  seek _ _ := seekLabel_filterMap (fun _ ↦ liveNode_of_label)
    (fun _ _ hk hq ↦ (definedLabel_liveNode hk).symm.trans hq) flow
  labelled _ _ _ here hp _ := ⟨filterMap_cons_some (liveNode_of_label hp), suffix_of_cons here⟩
  targets _ _ _ _ := trivial
  reads _ hp _ hs := mem_reads hp hs

lemma removeDeadTemps_alike (P : Provenance W) (hf : P.Fresh mem) (sp : Word)
    (hh : ∀ s, isTemp s → W.hidden s) (flow : Flow) : Alike W mem sp flow (flow.removeDeadTemps isTemp) := by
  have hw := removeDeadTemps_rewrites hh flow
  have hsim : Process.Simulation (flow.process W) ((flow.removeDeadTemps isTemp).process W)
      (·.1.length) (Paired P (unread W hh (flow.removeDeadTemps isTemp)) (flow.removeDeadTemps isTemp)
        (keepLive isTemp flow.reads) (· <:+ flow)) := by
    constructor
    rintro past ⟨rest, st⟩ ⟨_, _⟩ ⟨here, there, rfl, h⟩
    cases rest with
    | nil => exact .inr ⟨rfl, .ended _⟩
    | cons p rest =>
      rcases liveNode_cases isTemp flow.reads p with hk | ⟨s, offset, hd⟩
      · have hcons : keepLive isTemp flow.reads (p :: rest) = p :: keepLive isTemp flow.reads rest :=
          filterMap_cons_some hk
        simp only [hcons] at there ⊢
        exact .inr (hw.step (fun _ _ _ ↦ id) (mem_of_suffix here) there h fun _ ↦ ⟨rfl, suffix_of_cons here⟩)
      · have hlost : (unread W hh (flow.removeDeadTemps isTemp)).lost s :=
          ⟨hd.temp, fun hs ↦ hd.notMem (reads_keepLive isTemp flow.reads flow hs)⟩
        rcases hd.rest with ⟨hpure, hk⟩ | ⟨target, words, result, hv, hk⟩
        · have hcons : keepLive isTemp flow.reads (p :: rest) = keepLive isTemp flow.reads rest :=
            filterMap_cons_none hk
          simp only [hcons] at there ⊢
          obtain ⟨dst, rep, hdst, -, hact⟩ := act_of_isPure (V := V) hpure
          obtain rfl : dst = .slot s offset := some.inj (hdst.symm.trans hd.dst)
          have hst := h.write_lost hlost offset rep.words (p.value.value W.toModel st)
          refine .inl ⟨(rest, st.write W.toModel (.slot s offset) rep.words _), ?_,
            ⟨suffix_of_cons here, there, rfl, hst⟩, Nat.lt_succ_self _⟩
          simp [process, hact, follow]
        · have hcons : keepLive isTemp flow.reads (p :: rest) =
              { p with value := .call target words none } :: keepLive isTemp flow.reads rest :=
            filterMap_cons_some hk
          simp only [hcons] at there ⊢
          obtain ⟨rep, rfl⟩ : ∃ rep, result = some (.slot s offset, rep) := by
            have hdst := hd.dst
            rw [hv, dst, map_eq_some_iff] at hdst
            obtain ⟨⟨_, rep⟩, hr, rfl⟩ := hdst
            exact ⟨rep, hr⟩
          obtain ⟨hev, hm⟩ := h.call_lost hlost offset rep (hw.reads _ (mem_of_suffix there))
          rw [← Move.mapNext_id ((call target words (some (.slot s offset, rep))).act W past st).2] at hm
          simp only [process, hv]
          exact .inr ⟨hev, hw.follow (fun _ _ ↦ id) hm _ _
            fun u u' _ hu ↦ ⟨suffix_of_cons here, suffix_of_cons there, rfl, hu⟩⟩
  exact hsim.alike (hw.paired_initial hf sp)

/-! ## Copied temporaries -/

/-- The node `p` computes the temporary `t` for `q` alone, which copies it to `dst`. -/
structure Forwards (isTemp : SlotId → Bool) (reads : List SlotId) (p q : Item Prim) (t : SlotId)
    (rep : Rep) (dst : Place) : Prop where
  produces : p.value.isPure ∨ p.value.isCall
  result : p.value.dst = some (.slot t 0)
  resultRep : p.value.dstRep = some rep
  temp : isTemp t
  once : reads.count t = 1
  copies : q.value = .assign rep dst (.load (.slot t 0))

def redirected (p : Item Prim) (dst : Place) : Item Prim := { p with value := p.value.withDst dst }

lemma producedOnce_eq_some {reads defs : List SlotId} {p : Prim} {t : SlotId} {rep : Rep}
    (h : producedOnce isTemp reads defs p = some (t, rep)) :
    (p.isPure ∨ p.isCall) ∧ p.dst = some (.slot t 0) ∧ p.dstRep = some rep ∧ isTemp t ∧ reads.count t = 1 := by
  rw [producedOnce] at h
  split at h
  · cases h
  · rename_i hk
    split at h
    · rename_i s r hd hr
      split at h
      · rename_i hc
        cases h
        simp only [Bool.and_eq_true, beq_iff_eq] at hc
        simp only [Bool.not_eq_true', Bool.or_eq_false_iff, not_and_or, Bool.not_eq_false] at hk
        exact ⟨hk, hd, hr, hc.1.1, hc.2⟩
      · cases h
    · cases h

lemma copyOf_eq_some {q : Prim} {dst : Place} (h : copyOf temp q = some dst) :
    q = .assign temp.2 dst (.load (.slot temp.1 0)) := by
  unfold copyOf at h
  split at h
  · split at h
    · rename_i hc
      simp only [Bool.and_eq_true, decide_eq_true_eq] at hc
      cases h
      rw [hc.1, hc.2]
    · cases h
  · cases h

lemma forwardFrom_cons_cons (isTemp : SlotId → Bool) (reads defs : List SlotId) (p q : Item Prim) (rest : Flow) :
    (∃ t rep dst, Forwards isTemp reads p q t rep dst ∧ forwardFrom isTemp reads defs (p :: q :: rest) =
        redirected p dst :: forwardFrom isTemp reads defs rest) ∨
    forwardFrom isTemp reads defs (p :: q :: rest) = p :: forwardFrom isTemp reads defs (q :: rest) := by
  rw [forwardFrom]
  split
  · rename_i dst h
    obtain ⟨⟨t, rep⟩, hp, hq⟩ := bind_eq_some_iff.mp h
    obtain ⟨hk, hd, hr, ht, hc⟩ := producedOnce_eq_some hp
    exact .inl ⟨t, rep, dst, ⟨hk, hd, hr, ht, hc, copyOf_eq_some hq⟩, rfl⟩
  · exact .inr rfl

lemma operands_redirected (p : Item Prim) (dst : Place) : (redirected p dst).value.operands = p.value.operands :=
  (p.value.withDst_spec dst).2.1

namespace Forwards

variable {reads : List SlotId} {p q : Item Prim} (h : Forwards isTemp reads p q t rep dst)

include h

lemma definedLabel : p.value.definedLabel = none := by
  have hp := h.produces
  cases hv : p.value <;> simp_all [isPure, isCall, Prim.definedLabel]

lemma definedLabel_redirected : (redirected p dst).value.definedLabel = none :=
  (p.value.withDst_spec dst).1.trans h.definedLabel

lemma dst_redirected : (redirected p dst).value.dst = some dst := by
  rw [redirected, (p.value.withDst_spec dst).2.2.1, h.result]
  rfl

lemma dstRep_redirected : (redirected p dst).value.dstRep = some rep :=
  (p.value.withDst_spec dst).2.2.2.trans h.resultRep

lemma readSlots_redirected : (redirected p dst).value.readSlots = p.value.readSlots ++ dst.addressSlots := by
  have hp := h.produces
  have hnew := h.dst_redirected
  simp only [readSlots, operands_redirected, hnew, h.result, map_some, getD_some, Place.addressSlots, List.append_nil]
  cases hv : p.value <;> simp_all [isPure, isCall, redirected, withDst]

lemma readSlots_copy : q.value.readSlots = t :: dst.addressSlots := by
  simp [h.copies, readSlots, operands, Operand.slots, Place.slots, Prim.dst]

end Forwards

lemma forwardFrom_fuses (isTemp : SlotId → Bool) (reads defs : List SlotId) :
    Fuses (fun p q p' ↦ ∃ t rep dst, Forwards isTemp reads p q t rep dst ∧ p' = redirected p dst)
      (forwardFrom isTemp reads defs) where
  nil := rfl
  single _ := rfl
  pair p q rest := (forwardFrom_cons_cons isTemp reads defs p q rest).imp_left fun ⟨t, rep, dst, hfw, heq⟩ ↦
    ⟨_, ⟨t, rep, dst, hfw, rfl⟩, heq⟩
  unlabelled := by
    rintro p q _ ⟨t, _, _, hfw, rfl⟩
    exact ⟨hfw.definedLabel, by simp [hfw.copies, definedLabel], hfw.definedLabel_redirected⟩

/-! ### Counting -/

lemma reads_cons (p : Item Prim) (rest : Flow) : reads (p :: rest) = p.value.readSlots ++ reads rest := flatMap_cons

lemma reads_append (flow flow' : Flow) : reads (flow ++ flow') = flow.reads ++ flow'.reads := flatMap_append

lemma Forwards.count_reads {reads : List SlotId} {p q : Item Prim} {t : SlotId} {rep : Rep}
    {dst : Place} (h : Forwards isTemp reads p q t rep dst) (s : SlotId) :
    (redirected p dst).value.readSlots.count s + [t].count s =
      p.value.readSlots.count s + q.value.readSlots.count s := by
  simp only [h.readSlots_redirected, h.readSlots_copy, count_append, count_cons, count_nil]
  omega

lemma count_reads_forwardFrom (isTemp : SlotId → Bool) (reads defs : List SlotId) (s : SlotId)
    (a : Flow) : (forwardFrom isTemp reads defs a).reads.count s ≤ a.reads.count s := by
  refine (forwardFrom_fuses isTemp reads defs).induction (M := fun a a' ↦ a'.reads.count s ≤ a.reads.count s)
    (Nat.le_refl _) ?_ ?_ a
  · intro p _ _ ih
    rw [reads_cons, reads_cons, count_append, count_append]
    omega
  · rintro p q _ _ _ ⟨t, _, _, hfw, rfl⟩ _
    have hcount := hfw.count_reads s
    rw [reads_cons, reads_cons, reads_cons, count_append, count_append, count_append]
    omega

/-- A rest of the flow list where the pass looks for the next pair of nodes. -/
def ForwardSpot (isTemp : SlotId → Bool) (flow a : Flow) : Prop :=
  ∃ before before', flow = before ++ a ∧
    flow.forwardTemps isTemp = before' ++ forwardFrom isTemp flow.reads flow.definitions a ∧
    ∀ s, (reads before').count s ≤ (reads before).count s

lemma ForwardSpot.next {p : Item Prim} (h : ForwardSpot isTemp flow (p :: rest))
    (hk : forwardFrom isTemp flow.reads flow.definitions (p :: rest) =
      p :: forwardFrom isTemp flow.reads flow.definitions rest) : ForwardSpot isTemp flow rest := by
  obtain ⟨before, before', hflow, hflow', hcount⟩ := h
  refine ⟨before ++ [p], before' ++ [p], by simp [← hflow], by simp [hflow', hk], fun s ↦ ?_⟩
  rw [reads_append, reads_append, count_append, count_append]
  exact Nat.add_le_add_right (hcount s) _

section

variable {p q : Item Prim} (h : ForwardSpot isTemp flow (p :: q :: rest))
  (hfw : Forwards isTemp flow.reads p q t rep dst)
  (hk : forwardFrom isTemp flow.reads flow.definitions (p :: q :: rest) =
    redirected p dst :: forwardFrom isTemp flow.reads flow.definitions rest)

include h hfw hk

lemma ForwardSpot.skip : ForwardSpot isTemp flow rest := by
  obtain ⟨before, before', hflow, hflow', hcount⟩ := h
  refine ⟨before ++ [p, q], before' ++ [redirected p dst], by simp [← hflow], by simp [hflow', hk], fun s ↦ ?_⟩
  have hpair := hfw.count_reads s
  have hbefore := hcount s
  rw [reads_append, reads_append, count_append, count_append, reads_cons, reads_cons, reads_cons]
  simp only [reads, flatMap_nil, append_nil, count_append] at hbefore ⊢
  omega

lemma ForwardSpot.notMem_reads : t ∉ (flow.forwardTemps isTemp).reads := by
  obtain ⟨_, _, hflow, hflow', hcount⟩ := h
  have hrest := count_reads_forwardFrom isTemp flow.reads flow.definitions t rest
  have hbefore := hcount t
  have honce := hfw.once
  have hpair := hfw.count_reads t
  have hq : 0 < q.value.readSlots.count t := by simp [hfw.readSlots_copy]
  rw [hflow, reads_append, reads_cons, reads_cons] at honce
  simp only [count_append] at honce
  rw [← count_eq_zero, hflow', hk, reads_append, reads_cons]
  simp only [count_append]
  rw [count_singleton_self] at hpair
  omega

end

lemma ForwardSpot.seek (h : ForwardSpot isTemp flow a) (hs : a.seek l = some found) :
    ForwardSpot isTemp flow found := by
  induction a using twoStepInduction with
  | nil => cases hs
  | singleton p =>
    rw [seek_cons, Flow.seek, seekLabel, Option.none_or] at hs
    split at hs
    · exact some.inj hs ▸ h
    · cases hs
  | cons_cons p q rest ih ih' =>
    rw [seek_cons] at hs
    rcases forwardFrom_cons_cons isTemp flow.reads flow.definitions p q rest with
      ⟨t, rep, dst, hfw, heq⟩ | heq
    · have hq : q.value.definedLabel = none := by simp [hfw.copies, definedLabel]
      rw [seek_cons, hfw.definedLabel, hq] at hs
      exact ih (h.skip hfw heq) (by simpa using hs)
    · rcases or_eq_some_iff.mp hs with hs | ⟨-, hs⟩
      · exact ih' q (h.next heq) hs
      · split at hs
        · exact some.inj hs ▸ h
        · cases hs

lemma ForwardSpot.suffix (h : ForwardSpot isTemp flow a) :
    a <:+ flow ∧ forwardFrom isTemp flow.reads flow.definitions a <:+ flow.forwardTemps isTemp := by
  obtain ⟨before, before', hflow, hflow', -⟩ := h
  exact ⟨⟨before, hflow.symm⟩, ⟨before', hflow'.symm⟩⟩

lemma ForwardSpot.start (isTemp : SlotId → Bool) (flow : Flow) : ForwardSpot isTemp flow flow :=
  ⟨[], [], rfl, rfl, fun _ ↦ Nat.le_refl _⟩

lemma forwardTemps_rewrites (hh : ∀ s, isTemp s → W.hidden s) (flow : Flow) :
    Rewrites (unread W hh (flow.forwardTemps isTemp)) flow (flow.forwardTemps isTemp)
      (forwardFrom isTemp flow.reads flow.definitions) (ForwardSpot isTemp flow) where
  rename := rfl
  start := rfl
  spot_start := .start isTemp flow
  spot_seek _ _ hs := (ForwardSpot.start isTemp flow).seek hs
  seek l _ := (forwardFrom_fuses isTemp flow.reads flow.definitions).seek l flow
  labelled p rest l here hp _ := by
    have hcons := (forwardFrom_fuses isTemp flow.reads flow.definitions).cons_of_label hp rest
    exact ⟨hcons, here.next hcons⟩
  targets _ _ _ _ := trivial
  reads _ hp _ hs := mem_reads hp hs

end Flow

/-! ### Runs -/

lemma Rep.isBlock_eq_false_of_load {flow : Flow} (h : flow.WellFormed) {p q : Item Prim} (hp : p ∈ flow)
    (hq : q ∈ flow) {isTemp : SlotId → Bool} {reads : List SlotId} (hfw : Forwards isTemp reads p q t rep dst) :
    rep.isBlock = false := by
  cases hr : rep with
  | block n =>
    refine (h.notMem_loaded t (List.mem_filterMap.mpr ⟨p, hp, ?_⟩) ?_).elim
    · simp [blockSlot?, hfw.result, hfw.resultRep, hr]
    · refine List.mem_flatMap.mpr ⟨q, hq, ?_⟩
      simp [hfw.copies, Prim.loaded, operands, Operand.loaded, Place.loaded]
  | _ => rfl

/-- Memory after the copy of a temporary that was just written is memory after a write to the copy's
place, but for the temporary. -/
lemma Similar.write_copied (h : Similar P d past st st') (ht : d.lost t) (hb : rep.isBlock = false)
    (hs : ∀ s ∈ dst.addressSlots, d.reached s) {value value' : Nat → V} (hv : ∀ i < rep.words, value i = value' i)
    (ha : ∀ i < rep.words, d.Allows P (value' i)) :
    Similar P d past ((st.write W.toModel (.slot t 0) rep.words value).write W.toModel dst rep.words
        (W16Compiler.assignedWord W.toModel (st.write W.toModel (.slot t 0) rep.words value) rep
          (.load (.slot t 0)))) (st'.write W.toModel dst rep.words value') := by
  refine (h.write_lost ht 0 rep.words value).write hs (fun i hi ↦ ?_) ha
  have hinj : ∀ i < rep.words, ∀ j < rep.words,
      (Place.slot t 0).cell W.toModel st i = (Place.slot t 0).cell W.toModel st j → i = j := by
    intro i _ j _ hij
    simp only [Place.cell, Cell.slot.injEq, true_and] at hij
    omega
  rw [← hv i hi, W16Compiler.assignedWord, hb]
  exact writeWords_apply hinj hi

lemma Prim.withDst_of_isPure {p : Prim} (hp : p.isPure) (dst : Place) :
    (p.withDst dst).isPure ∧ ∀ (M : Model V) (st : PrimState V), (p.withDst dst).value M st = p.value M st := by
  cases p with
  | cast | unary | binary | assign => exact ⟨rfl, fun _ _ ↦ rfl⟩
  | _ => cases hp

def copied (M : Model V) (rep : Rep) (dst : Place) (t : SlotId) (st : PrimState V) : PrimState V :=
  st.write M dst rep.words (assignedWord M st rep (.load (.slot t 0)))

lemma Similar.redirected (h : Similar P d past st st') {isTemp : SlotId → Bool} {reads : List SlotId}
    {p q : Item Prim} (hfw : Forwards isTemp reads p q t rep dst) (ht : d.lost t) (hb : rep.isBlock = false)
    (hr : ∀ s ∈ (redirected p dst).value.readSlots, d.reached s) :
    (p.value.act W past st).1 = ((redirected p dst).value.act W past st').1 ∧
      Move.Similar P d ((p.value.act W past st).1.toList ++ past)
        ((p.value.act W past st).2.mapNext (copied W.toModel rep dst t))
        ((redirected p dst).value.act W past st').2 := by
  rw [hfw.readSlots_redirected] at hr
  have hp : ∀ s ∈ p.value.readSlots, d.reached s := fun s hs ↦ hr s (mem_append_left _ hs)
  have hdst : ∀ s ∈ dst.addressSlots, d.reached s := fun s hs ↦ hr s (mem_append_right _ hs)
  rcases hfw.produces with hpure | hcall
  · obtain ⟨place, rep', hd, hrep, hact⟩ := Prim.act_of_isPure (V := V) hpure
    obtain ⟨hpure', hvalue⟩ := withDst_of_isPure (V := V) hpure dst
    obtain ⟨place', rep'', hd', hrep', hact'⟩ := Prim.act_of_isPure (V := V) hpure'
    obtain rfl : place = .slot t 0 := some.inj (hd.symm.trans hfw.result)
    obtain rfl : rep' = rep := some.inj (hrep.symm.trans hfw.resultRep)
    obtain rfl : place' = dst := some.inj (hd'.symm.trans hfw.dst_redirected)
    obtain rfl : rep'' = rep' := some.inj (hrep'.symm.trans hfw.dstRep_redirected)
    simp only [redirected, hact, hact', hvalue]
    exact ⟨trivial, .next (h.write_copied ht hb hdst (fun i _ ↦ h.value hp i) fun i _ ↦ h.value_allowed hp i)⟩
  · cases hv : p.value with
    | call target words result =>
      obtain ⟨rep', rfl⟩ : ∃ rep', result = some (.slot t 0, rep') := by
        have hd := hfw.result
        rw [hv, Prim.dst, Option.map_eq_some_iff] at hd
        obtain ⟨⟨_, rep'⟩, hr, rfl⟩ := hd
        exact ⟨rep', hr⟩
      obtain rfl : rep' = rep := by
        have hd := hfw.resultRep
        rw [hv] at hd
        exact some.inj hd
      rw [hv] at hp
      have hev := h.callEvent hp
      have hstore : ∀ (u u' : PrimState V) (value : Nat → V),
          Similar P d (st'.callEvent W target words :: past) u u' → (∀ i, d.Allows P (value i)) →
          Similar P d (st'.callEvent W target words :: past)
            (copied W.toModel rep' dst t (u.store W.toModel (some (.slot t 0, rep')) value))
            (u'.store W.toModel (some (dst, rep')) value) :=
        fun u u' _ hu ha ↦ hu.write_copied ht hb hdst (fun _ _ ↦ rfl) fun i _ ↦ ha i
      simp only [redirected, hv, withDst, map_some]
      refine ⟨congrArg some hev, ?_⟩
      simp only [Prim.act, hev]
      exact (h.observed hp).afterCall words hstore
    | _ => simp [hv, isCall] at hcall

namespace Flow

/-- Two runs are at places that correspond, or one of them is about to copy a temporary that the other
one has put in place already. -/
inductive Forwarded (P : Provenance W) (d : Slack W) (isTemp : SlotId → Bool) (flow : Flow)
    (past : List (CallEvent V)) : Flow × PrimState V → Flow × PrimState V → Prop
  | paired {a b : Flow × PrimState V}
    (h : Paired P d (flow.forwardTemps isTemp) (forwardFrom isTemp flow.reads flow.definitions)
      (ForwardSpot isTemp flow) past a b) : Forwarded P d isTemp flow past a b
  | copying {q : Item Prim} {rest : Flow} {st st' : PrimState V} {rep : Rep} {dst : Place} {t : SlotId}
    (hq : q.value = .assign rep dst (.load (.slot t 0))) (here : ForwardSpot isTemp flow rest)
    (h : Similar P d past (copied W.toModel rep dst t st) st') :
    Forwarded P d isTemp flow past (q :: rest, st)
      (forwardFrom isTemp flow.reads flow.definitions rest, st')

lemma forwardTemps_alike (P : Provenance W) (hf : P.Fresh mem) (sp : Word)
    (hh : ∀ s, isTemp s → W.hidden s) (hwf : flow.WellFormed) : Alike W mem sp flow (flow.forwardTemps isTemp) := by
  have hw := forwardTemps_rewrites hh flow
  have hsim : Process.Simulation (flow.process W) ((flow.forwardTemps isTemp).process W) (·.1.length)
      (Forwarded P (unread W hh (flow.forwardTemps isTemp)) isTemp flow) := by
    constructor
    rintro _ ⟨rest, st⟩ ⟨_, _⟩ hi
    cases hi with
    | @copying _ rest _ _ rep dst t hq here h =>
      refine .inl ⟨(rest, copied W.toModel rep dst t st), ?_, .paired ⟨here, here.suffix.2, rfl, h⟩, Nat.lt_succ_self _⟩
      simp only [process, hq, act, follow]
      rfl
    | paired hpair =>
      obtain ⟨here, there, rfl, h⟩ := hpair
      have hmem : ∀ {p : Item Prim} {rest : Flow}, ForwardSpot isTemp flow (p :: rest) → p ∈ flow :=
        fun hs ↦ mem_of_suffix hs.suffix.1
      rcases rest with _ | ⟨p, _ | ⟨q, rest⟩⟩
      · exact .inr ⟨rfl, .ended _⟩
      · exact .inr (hw.step (fun _ _ _ ↦ .paired) (hmem here) there h fun _ ↦ ⟨rfl, here.next rfl⟩)
      · rcases forwardFrom_cons_cons isTemp flow.reads flow.definitions p q rest with
          ⟨t, rep, dst, hfw, heq⟩ | heq
        · simp only [heq] at there ⊢
          have hlost : (unread W hh (flow.forwardTemps isTemp)).lost t := ⟨hfw.temp, here.notMem_reads hfw heq⟩
          have hq : q ∈ flow := mem_of_suffix (suffix_of_cons here.suffix.1)
          have hb := Rep.isBlock_eq_false_of_load hwf (hmem here) hq hfw
          obtain ⟨hev, hm⟩ := h.redirected hfw hlost hb (hw.reads _ (mem_of_suffix there))
          exact .inr ⟨hev, hw.follow (fun _ _ ↦ .paired) hm _ _
            fun u u' _ hu ↦ .copying hfw.copies (here.skip hfw heq) hu⟩
        · simp only [heq] at there ⊢
          exact .inr (hw.step (fun _ _ _ ↦ .paired) (hmem here) there h fun _ ↦ ⟨rfl, here.next heq⟩)
  exact hsim.alike (.paired (hw.paired_initial hf sp))

end Flow

end W16Compiler
