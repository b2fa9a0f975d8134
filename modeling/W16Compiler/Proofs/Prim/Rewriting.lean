import W16Compiler.Proofs.Prim.Similarity
import Mathlib.Data.List.Induction

/-!
# Rewriting a flow list from the back

A pass turns every rest of a flow list into a rest of the new one. If it keeps the nodes that define
labels, a jump leads from related places to related places, and a node that the pass keeps takes one
step on both sides. What is left to each pass are the nodes that it takes away or replaces.
-/

namespace W16Compiler

open Option List

variable {V : Type} {W : World V} {P : Provenance W} {d : Slack W} {l : Label} {flow flow' rest : Flow} {g : Flow → Flow}
  {spot : Flow → Prop}

namespace Flow

/-! ## Finding labels -/

def labels (flow : Flow) : List Label := flow.filterMap (·.value.definedLabel)

lemma labels_cons (p : Item Prim) (rest : Flow) :
    labels (p :: rest) = p.value.definedLabel.toList ++ labels rest := by
  simp only [labels, filterMap_cons]
  cases p.value.definedLabel <;> rfl

lemma seek_cons (l : Label) (p : Item Prim) (rest : Flow) :
    seek l (p :: rest) = (seek l rest).or (if p.value.definedLabel = some l then some (p :: rest) else none) :=
  seekLabel_cons p rest

variable {found : Flow}

lemma seek_suffix (h : flow.seek l = some found) : found <:+ flow := seekLabel_suffix h

lemma seek_head (h : flow.seek l = some found) : ∃ p rest, found = p :: rest ∧ p.value.definedLabel = some l :=
  seekLabel_head h

lemma seek_eq_none_iff : flow.seek l = none ↔ l ∉ flow.labels := seekLabel_eq_none_iff

lemma seek_of_suffix (hn : flow.labels.Nodup) {p : Item Prim} (hp : p.value.definedLabel = some l)
    (h : p :: rest <:+ flow) : flow.seek l = some (p :: rest) :=
  seekLabel_of_suffix hn hp h

lemma startsWith_iff : flow.startsWith l ↔ ∃ p rest, flow = p :: rest ∧ p.value.definedLabel = some l := by
  cases flow with
  | nil | cons p rest => simp [startsWith]

lemma seek_of_startsWith (hn : flow.labels.Nodup) (hs : rest.startsWith l) (h : rest <:+ flow) :
    flow.seek l = some rest := by
  obtain ⟨p, _, rfl, hp⟩ := startsWith_iff.mp hs
  exact seek_of_suffix hn hp h

end Flow

/-! ## Nodes -/

@[simp] lemma Prim.mapTargets_id (p : Prim) : p.mapTargets id = p := by
  cases p <;> simp [Prim.mapTargets]

variable {p : Prim}

lemma Prim.fallsThrough_of_definedLabel {l : Label} (h : p.definedLabel = some l) : p.fallsThrough := by
  cases p <;> first | rfl | cases h

lemma Prim.act_of_definedLabel {l : Label} (h : p.definedLabel = some l) (past : List (CallEvent V))
    (st : PrimState V) : p.act W past st = (none, .next st) := by
  cases p <;> first | rfl | cases h

lemma PrimState.raise_ne_next (st st1 : PrimState V) (v : V) : st.raise W v ≠ .next st1 := by
  simp only [PrimState.raise]
  split
  · simp
  · split <;> simp

/-- Control goes on to the next node only where the flow graph says so. -/
lemma Prim.fallsThrough_of_act {past : List (CallEvent V)} {st st1 : PrimState V}
    (h : (p.act W past st).2 = .next st1) : p.fallsThrough := by
  cases p with
  | jump l => cases h
  | ret value => cases h
  | throwValue value => exact (PrimState.raise_ne_next _ _ _ h).elim
  | cleanupCall start link resume => cases h
  | cleanupReturn link resumes =>
    simp only [Prim.act] at h
    split at h <;> cases h
  | _ => rfl

/-! ## Passes over pairs of nodes -/

namespace Flow

/-- A pass that puts nodes in the places of pairs, as `R` allows, and keeps all others. -/
structure Fuses (R : Item Prim → Item Prim → Item Prim → Prop) (g : Flow → Flow) : Prop where
  nil : g [] = []
  single : ∀ p, g [p] = [p]
  pair : ∀ p q rest, (∃ p', R p q p' ∧ g (p :: q :: rest) = p' :: g rest) ∨ g (p :: q :: rest) = p :: g (q :: rest)
  unlabelled : ∀ {p q p'}, R p q p' →
    p.value.definedLabel = none ∧ q.value.definedLabel = none ∧ p'.value.definedLabel = none

namespace Fuses

variable {R : Item Prim → Item Prim → Item Prim → Prop} (h : Fuses R g)

include h

lemma induction {M : Flow → Flow → Prop} (nil : M [] [])
    (keep : ∀ p rest rest', M rest rest' → M (p :: rest) (p :: rest'))
    (fuse : ∀ p q p' rest rest', R p q p' → M rest rest' → M (p :: q :: rest) (p' :: rest')) (flow : Flow) :
    M flow (g flow) := by
  induction flow using twoStepInduction with
  | nil => rwa [h.nil]
  | singleton p =>
    rw [h.single]
    exact keep p [] [] nil
  | cons_cons p q rest ih ih' =>
    rcases h.pair p q rest with ⟨p', hr, heq⟩ | heq
    · exact heq ▸ fuse p q p' rest _ hr ih
    · exact heq ▸ keep p _ _ (ih' q)

lemma labels (flow : Flow) : (g flow).labels = flow.labels := by
  refine h.induction (M := fun flow flow' ↦ flow'.labels = flow.labels) rfl ?_ ?_ flow
  · intro p _ _ ih
    rw [labels_cons, labels_cons, ih]
  · intro p q p' _ _ hr ih
    obtain ⟨hp, hq, hp'⟩ := h.unlabelled hr
    rw [labels_cons, labels_cons, labels_cons, hp, hq, hp', ih]
    rfl

lemma mem {flow : Flow} (hp' : p' ∈ g flow) : p' ∈ flow ∨ ∃ p ∈ flow, ∃ q ∈ flow, R p q p' := by
  refine h.induction (M := fun flow flow' ↦ p' ∈ flow' → p' ∈ flow ∨ ∃ p ∈ flow, ∃ q ∈ flow, R p q p')
    (by simp) ?_ ?_ flow hp' <;> grind

lemma cons_of_label {p : Item Prim} {l : Label} (hp : p.value.definedLabel = some l) (rest : Flow) :
    g (p :: rest) = p :: g rest := by
  cases rest with
  | nil => rw [h.single, h.nil]
  | cons q rest =>
    refine (h.pair p q rest).resolve_left ?_
    rintro ⟨_, hr, -⟩
    cases (h.unlabelled hr).1.symm.trans hp

lemma seek (l : Label) (flow : Flow) : (g flow).seek l = (flow.seek l).map g := by
  induction flow using twoStepInduction with
  | nil => rw [h.nil]; rfl
  | singleton p =>
    rw [h.single, seek_cons]
    simp only [Flow.seek, seekLabel, none_or]
    split
    · rw [map_some, h.single]
    · rfl
  | cons_cons p q rest ih ih' =>
    rcases h.pair p q rest with ⟨p', hr, heq⟩ | heq
    · obtain ⟨hp, hq, hp'⟩ := h.unlabelled hr
      rw [heq, seek_cons, seek_cons, seek_cons, hp, hq, hp', ih]
      simp
    · rw [heq, seek_cons, seek_cons, ih' q]
      cases Flow.seek l (q :: rest) with
      | some found => rfl
      | none =>
        split
        · exact congrArg some heq.symm
        · rfl

end Fuses

end Flow

/-! ## Places that correspond -/

namespace Flow

variable {past : List (CallEvent V)}

/-- A pass that turns the rests of `flow` from some spots on into rests of `flow'`. All labels stand at
such spots. -/
structure Rewrites (d : Slack W) (flow flow' : Flow) (g : Flow → Flow) (spot : Flow → Prop) : Prop where
  rename : d.rename = id
  start : flow' = g flow
  spot_start : spot flow
  spot_seek : ∀ l found, flow.seek l = some found → spot found
  seek : ∀ l, d.labels l → flow'.seek l = (flow.seek l).map g
  labelled : ∀ p rest l, spot (p :: rest) → p.value.definedLabel = some l → d.labels l →
    g (p :: rest) = p :: g rest ∧ spot rest
  targets : ∀ p ∈ flow, ∀ l ∈ p.value.targets, d.labels l
  reads : ∀ p ∈ flow', ∀ s ∈ p.value.readSlots, d.reached s

/-- Two runs are at places that correspond, in similar states. -/
structure Paired (P : Provenance W) (d : Slack W) (flow' : Flow) (g : Flow → Flow) (spot : Flow → Prop)
    (past : List (CallEvent V)) (a b : Flow × PrimState V) : Prop where
  here : spot a.1
  there : b.1 <:+ flow'
  rest : b.1 = g a.1
  state : Similar P d past a.2 b.2

variable {p : Item Prim} {st st' : PrimState V}

lemma mem_of_suffix (h : p :: rest <:+ flow) : p ∈ flow := h.subset mem_cons_self

lemma suffix_of_cons (h : p :: rest <:+ flow) : rest <:+ flow := (suffix_cons p rest).trans h

variable (hw : Rewrites d flow flow' g spot)

include hw

lemma Rewrites.goto (h : Similar P d past st st') (hl : d.labels l) (rest rest' : Flow) :
    Process.Matches (Paired P d flow' g spot past) (flow.follow W.toModel rest (.goto l st))
      (flow'.follow W.toModel rest' (.goto l st')) := by
  have hseek := hw.seek l hl
  simp only [follow]
  cases hf : flow.seek l with
  | none =>
    simp only [hf, map_none] at hseek
    simp only [hseek]
    exact .ended _
  | some found =>
    simp only [hf, map_some] at hseek
    simp only [hseek]
    exact .running ⟨hw.spot_seek l found hf, seek_suffix hseek, rfl, h⟩

lemma Rewrites.handle (h : Similar P d past st st') (hl : d.labels l)
    {v : V} (hv : d.Allows P v) (rest rest' : Flow) :
    Process.Matches (Paired P d flow' g spot past) (flow.follow W.toModel rest (.handle l v st))
      (flow'.follow W.toModel rest' (.handle l v st')) := by
  have hseek := hw.seek l hl
  simp only [follow]
  cases hf : flow.seek l with
  | none =>
    simp only [hf, map_none] at hseek
    simp only [hseek]
    exact .ended _
  | some found =>
    obtain ⟨p, tail, rfl, hp⟩ := seek_head hf
    obtain ⟨hcons, hspot⟩ := hw.labelled p tail l (hw.spot_seek l _ hf) hp hl
    simp only [hf, map_some, hcons] at hseek
    simp only [hseek]
    have hthere := seek_suffix hseek
    exact .running ⟨hspot, suffix_of_cons hthere, rfl, h.receive (hw.reads p (mem_of_suffix hthere)) hv⟩

lemma Rewrites.follow {R : Flow × PrimState V → Flow × PrimState V → Prop}
    (hR : ∀ a b, Paired P d flow' g spot past a b → R a b)
    (hm : Move.Similar P d past (m.mapNext f) m') (rest rest' : Flow)
    (hnext : ∀ st st', m = .next st → Similar P d past (f st) st' → R (rest, st) (rest', st')) :
    Process.Matches R (flow.follow W.toModel rest m) (flow'.follow W.toModel rest' m') := by
  cases m with
  | next st =>
    cases hm with
    | next h => exact .running (hnext st _ rfl h)
  | goto l st =>
    cases hm with
    | goto hl h =>
      rw [hw.rename]
      exact (hw.goto h hl rest rest').mono hR
  | handle l v st =>
    cases hm with
    | handle hl hv h =>
      rw [hw.rename]
      exact (hw.handle h hl hv rest rest').mono hR
  | finish o =>
    cases hm with
    | finish => exact .ended o

lemma Rewrites.step {R : List (CallEvent V) → Flow × PrimState V → Flow × PrimState V → Prop}
    (hR : ∀ past a b, Paired P d flow' g spot past a b → R past a b) (hp : p ∈ flow)
    (there : p :: rest' <:+ flow') (h : Similar P d past st st')
    (hrest : p.value.fallsThrough → rest' = g rest ∧ spot rest) :
    (flow.process W past (p :: rest, st)).event = (flow'.process W past (p :: rest', st')).event ∧
      Process.Matches (R ((flow.process W past (p :: rest, st)).event.toList ++ past))
        (flow.process W past (p :: rest, st)).next (flow'.process W past (p :: rest', st')).next := by
  obtain ⟨hev, hm⟩ := h.act (hw.reads p (mem_of_suffix there)) (hw.targets p hp)
  rw [hw.rename, Prim.mapTargets_id] at hev hm
  rw [← Move.mapNext_id (p.value.act W past st).2] at hm
  refine ⟨hev, hw.follow (hR _) hm rest rest' fun st1 _ hst hs ↦ hR _ _ _ ?_⟩
  obtain ⟨hg, hspot⟩ := hrest (Prim.fallsThrough_of_act hst)
  exact ⟨hspot, suffix_of_cons there, hg, hs⟩

end Flow

/-! ## Whole runs -/

/-- Memory that leads into no slot, as on entry to a function. -/
def Provenance.Fresh (P : Provenance W) (mem : Cell → V) : Prop := ∀ c s, ¬ P.into (mem c) s

lemma Similar.initial {P : Provenance W} {mem : Cell → V} (hf : P.Fresh mem) (d : Slack W)
    (sp : Word) : Similar P d [] (.initial mem sp) (.initial mem sp) where
  mem _ _ := rfl
  sp := rfl
  mark := rfl
  records _ := rfl
  links _ := rfl
  handlers _ _ h := by cases h
  resumes _ _ h := by cases h
  allowed c s hin := (hf c s hin).elim
  shown _ he := by cases he

/-- Two flow lists that behave alike from the same memory. -/
def Flow.Alike (W : World V) (mem : Cell → V) (sp : Word) (flow flow' : Flow) : Prop :=
  (flow.process W).Alike (flow'.process W) (flow, .initial mem sp) (flow', .initial mem sp)

section

variable {mem : Cell → V} (hf : P.Fresh mem) (hw : Flow.Rewrites d flow flow' g spot) (sp : Word)

include hf hw

lemma Flow.Rewrites.paired_initial : Paired P d flow' g spot [] (flow, .initial mem sp) (flow', .initial mem sp) :=
  ⟨hw.spot_start, suffix_rfl, hw.start, .initial hf d sp⟩

lemma Flow.Rewrites.alike (hspot : ∀ rest, spot rest → rest <:+ flow) (hnil : g [] = [])
    (hcons : ∀ p rest, p :: rest <:+ flow → (g (p :: rest) = g rest ∧ spot rest ∧
        ∀ past st, flow.process W past (p :: rest, st) = ⟨none, .running (rest, st)⟩) ∨
      ∃ rest', g (p :: rest) = p :: rest' ∧ (p.value.fallsThrough → rest' = g rest ∧ spot rest)) :
    Alike W mem sp flow flow' := by
  have hsim : Process.Simulation (flow.process W) (flow'.process W) (·.1.length) (Paired P d flow' g spot) := by
    constructor
    rintro past ⟨rest, st⟩ ⟨_, _⟩ ⟨here, there, rfl, h⟩
    cases rest with
    | nil =>
      rw [hnil]
      exact .inr ⟨rfl, .ended _⟩
    | cons p rest =>
      have hsuffix := hspot _ here
      rcases hcons p rest hsuffix with ⟨hdrop, hrest, hstep⟩ | ⟨_, hkeep, hrest⟩
      · simp only [hdrop] at there ⊢
        exact .inl ⟨_, hstep past st, ⟨hrest, there, rfl, h⟩, Nat.lt_succ_self _⟩
      · simp only [hkeep] at there ⊢
        exact .inr (hw.step (fun _ _ _ ↦ id) (mem_of_suffix hsuffix) there h hrest)
  exact hsim.alike (hw.paired_initial hf sp)

end

end W16Compiler
