import W16Compiler.Proofs.Prim.Rewriting

/-!
# Passes over jumps and labels

A jump to the node behind it, a branch over a jump and nodes that control never gets to can be
rewritten because a label is defined once: a jump to it leads to just that place.

Control only goes to labels that some node refers to, so the others may go. Labels side by side are
one place: whatever went to one of them may go to the first, under its name. The names of labels that
wait in exception records and cleanup links change along with those in the nodes.
-/

namespace W16Compiler.Flow

open List Option Prim

variable {V : Type} {W : World V} {flow rest : Flow} {p : Item Prim} {l : Label} {mem : Cell → V}

lemma process_jump (hn : flow.labels.Nodup) (hp : p.value = .jump l) (hs : rest.startsWith l) (h : p :: rest <:+ flow)
    (past : List (CallEvent V)) (st : PrimState V) :
    flow.process W past (p :: rest, st) = ⟨none, .running (rest, st)⟩ := by
  simp [process, hp, act, follow, seek_of_startsWith hn hs (suffix_of_cons h)]

lemma Rewrites.everywhere (W : World V) {g : Flow → Flow} (hseek : ∀ l, (g flow).seek l = (flow.seek l).map g)
    (hlabelled : ∀ {p l} rest, p.value.definedLabel = some l → g (p :: rest) = p :: g rest) :
    Rewrites (.none W) flow (g flow) g (· <:+ flow) where
  rename := rfl
  start := rfl
  spot_start := List.suffix_rfl
  spot_seek _ _ := seek_suffix
  seek l _ := hseek l
  labelled _ rest _ here hp _ := ⟨hlabelled rest hp, suffix_of_cons here⟩
  targets _ _ _ _ := trivial
  reads _ _ _ _ := trivial

/-! ## Jumps to the next node -/

lemma removeJumpsToNext_cons_of_jump (hp : p.value = .jump l) (hs : rest.startsWith l) :
    removeJumpsToNext (p :: rest) = removeJumpsToNext rest := by
  simp [removeJumpsToNext, hp, hs]

lemma removeJumpsToNext_cons (h : ∀ l, p.value = .jump l → ¬ rest.startsWith l) :
    removeJumpsToNext (p :: rest) = p :: removeJumpsToNext rest := by
  rw [removeJumpsToNext]
  split
  · rw [if_neg (h _ ‹_›)]
  · rfl

lemma seek_removeJumpsToNext (l : Label) (flow : Flow) :
    (removeJumpsToNext flow).seek l = (flow.seek l).map removeJumpsToNext := by
  induction flow with
  | nil => rfl
  | cons p rest ih =>
    by_cases h : ∃ m, p.value = .jump m ∧ startsWith rest m
    · obtain ⟨m, hp, hs⟩ := h
      have hd : p.value.definedLabel ≠ some l := by simp [hp, definedLabel]
      rw [removeJumpsToNext_cons_of_jump hp hs, ih, seek_cons, if_neg hd, or_none]
    · have hkeep : ∀ m, p.value = .jump m → ¬ startsWith rest m := fun m hp hs ↦ h ⟨m, hp, hs⟩
      rw [removeJumpsToNext_cons hkeep, seek_cons, seek_cons, ih]
      cases seek l rest with
      | some found => rfl
      | none =>
        split
        · exact congrArg some (removeJumpsToNext_cons hkeep).symm
        · rfl

lemma removeJumpsToNext_rewrites (W : World V) (flow : Flow) :
    Rewrites (.none W) flow flow.removeJumpsToNext removeJumpsToNext (· <:+ flow) := by
  refine .everywhere W (seek_removeJumpsToNext · flow) fun _ hp ↦ removeJumpsToNext_cons fun m hm ↦ ?_
  rw [hm] at hp
  cases hp

lemma removeJumpsToNext_alike (P : Provenance W) (hf : P.Fresh mem) (sp : Word) (hn : flow.labels.Nodup) :
    Alike W mem sp flow flow.removeJumpsToNext := by
  refine (removeJumpsToNext_rewrites W flow).alike hf sp (fun _ ↦ id) rfl fun p rest here ↦ ?_
  by_cases hj : ∃ m, p.value = .jump m ∧ startsWith rest m
  · obtain ⟨m, hp, hs⟩ := hj
    exact .inl ⟨removeJumpsToNext_cons_of_jump hp hs, suffix_of_cons here, process_jump hn hp hs here⟩
  · exact .inr ⟨_, removeJumpsToNext_cons fun m hp hs ↦ hj ⟨m, hp, hs⟩, fun _ ↦ ⟨rfl, suffix_of_cons here⟩⟩

/-! ## Unreachable nodes -/

lemma removeUnreachableFrom_cons_of_label (hp : p.value.definedLabel = some l) (reachable : Bool) (rest : Flow) :
    removeUnreachableFrom reachable (p :: rest) = p :: removeUnreachable rest := by
  simp [removeUnreachableFrom, removeUnreachable, hp, fallsThrough_of_definedLabel hp]

lemma seek_removeUnreachableFrom (l : Label) (reachable : Bool) (flow : Flow) :
    (removeUnreachableFrom reachable flow).seek l = (flow.seek l).map removeUnreachable := by
  induction flow generalizing reachable with
  | nil => rfl
  | cons p rest ih =>
    rw [seek_cons]
    by_cases hd : p.value.definedLabel = some l
    · rw [removeUnreachableFrom_cons_of_label hd, seek_cons, if_pos hd, if_pos hd, removeUnreachable, ih]
      cases seek l rest with
      | some found => rfl
      | none =>
        simp only [none_or, map_some, map_none]
        rw [removeUnreachable, removeUnreachableFrom_cons_of_label hd, removeUnreachable]
    · rw [if_neg hd, or_none, removeUnreachableFrom]
      split
      · rw [seek_cons, if_neg hd, or_none, ih]
      · exact ih false

lemma removeUnreachable_rewrites (W : World V) (flow : Flow) :
    Rewrites (.none W) flow flow.removeUnreachable removeUnreachable (· <:+ flow) :=
  .everywhere W (seek_removeUnreachableFrom · true flow) fun rest hp ↦ removeUnreachableFrom_cons_of_label hp true rest

lemma removeUnreachable_alike (P : Provenance W) (hf : P.Fresh mem) (sp : Word) (flow : Flow) :
    Alike W mem sp flow flow.removeUnreachable := by
  refine (removeUnreachable_rewrites W flow).alike hf sp (fun _ ↦ id) rfl fun p rest here ↦ .inr ?_
  refine ⟨removeUnreachableFrom p.value.fallsThrough rest, ?_, fun hp ↦ ⟨?_, suffix_of_cons here⟩⟩
  · simp [removeUnreachable, removeUnreachableFrom]
  · rw [hp, removeUnreachable]

/-! ## Branches over jumps -/

structure OverJump (p q : Item Prim) (rest : Flow) (near far : Label) : Prop where
  branch : p.value.isBranch
  target : p.value.targets = [near]
  jump : q.value = .jump far
  startsWith : rest.startsWith near

def opposite (p : Item Prim) (far : Label) : Item Prim :=
  { p with value := p.value.invert.mapTargets fun _ ↦ far }

lemma invertBranches_cons_cons (p q : Item Prim) (rest : Flow) : (∃ near far, OverJump p q rest near far ∧
      invertBranches (p :: q :: rest) = opposite p far :: invertBranches rest) ∨
    invertBranches (p :: q :: rest) = p :: invertBranches (q :: rest) := by
  rw [invertBranches]
  split
  · rename_i near tail far hb ht hj
    split
    · refine .inl ⟨near, far, ⟨hb, ?_, hj, ‹_›⟩, rfl⟩
      cases hp : p.value with
      | compare | test => simp_all [targets]
      | _ => simp_all [isBranch]
    · exact .inr rfl
  · exact .inr rfl

lemma definedLabel_of_isBranch {p : Prim} (h : p.isBranch) : p.definedLabel = none := by
  cases p <;> first | rfl | cases h

lemma definedLabel_opposite (h : p.value.isBranch) (far : Label) : (opposite p far).value.definedLabel = none := by
  cases hp : p.value <;> simp_all [opposite, invert, mapTargets, definedLabel,
    isBranch]

lemma invertBranches_fuses :
    Fuses (fun p q p' ↦ ∃ far, p.value.isBranch ∧ q.value = .jump far ∧ p' = opposite p far) invertBranches where
  nil := rfl
  single _ := rfl
  pair p q rest := (invertBranches_cons_cons p q rest).imp_left fun ⟨_, far, ho, heq⟩ ↦
    ⟨_, ⟨far, ho.branch, ho.jump, rfl⟩, heq⟩
  unlabelled := by
    rintro p q _ ⟨far, hb, hj, rfl⟩
    exact ⟨definedLabel_of_isBranch hb, by simp [hj, definedLabel], definedLabel_opposite hb far⟩

lemma invertBranches_rewrites (W : World V) (flow : Flow) :
    Rewrites (.none W) flow flow.invertBranches invertBranches (· <:+ flow) :=
  .everywhere W (invertBranches_fuses.seek · flow) fun rest hp ↦ invertBranches_fuses.cons_of_label hp rest

lemma Cond.holds_negate (cond : Cond) (o : Ordering) : cond.negate.holds o = !cond.holds o := by
  cases cond <;> cases o <;> rfl

lemma act_branch (hp : p.value.isBranch) (ht : p.value.targets = [near]) (far : Label)
    (past : List (CallEvent V)) (st : PrimState V) :
    (p.value.act W past st = (none, .goto near st) ∧ (opposite p far).value.act W past st = (none, .next st)) ∨
    (p.value.act W past st = (none, .next st) ∧ (opposite p far).value.act W past st = (none, .goto far st)) := by
  cases hv : p.value with
  | compare cond rep lhs rhs l =>
    obtain rfl : l = near := by simpa [hv, targets] using ht
    simp only [opposite, hv, invert, mapTargets, act, Cond.holds_negate]
    cases cond.holds _
    · exact .inr ⟨rfl, rfl⟩
    · exact .inl ⟨rfl, rfl⟩
  | test nonzero rep value l =>
    obtain rfl : l = near := by simpa [hv, targets] using ht
    simp only [opposite, hv, invert, mapTargets, act]
    cases W.isZero rep _ <;> cases nonzero <;> simp
  | _ => rw [hv] at hp; cases hp

/-- Two runs are at places that correspond, or one stands at a jump that was branched over and the
other one still at the opposite branch. -/
inductive Inverted (P : Provenance W) (flow : Flow) (past : List (CallEvent V)) :
    Flow × PrimState V → Flow × PrimState V → Prop
  | paired {a b : Flow × PrimState V}
    (h : Paired P (.none W) flow.invertBranches invertBranches (· <:+ flow) past a b) :
    Inverted P flow past a b
  | waiting {q p' : Item Prim} {rest : Flow} {st st' : PrimState V} {far : Label}
    (hq : q.value = .jump far) (hp : p'.value.act W past st' = (none, .goto far st'))
    (h : Similar P (.none W) past st st') :
    Inverted P flow past (q :: rest, st) (p' :: invertBranches rest, st')

lemma invertBranches_alike (P : Provenance W) (hf : P.Fresh mem) (sp : Word) (hn : flow.labels.Nodup) :
    Alike W mem sp flow flow.invertBranches := by
  have hw := invertBranches_rewrites W flow
  have hsim : Process.Simulation (flow.process W) (flow.invertBranches.process W) (·.1.length) (Inverted P flow) := by
    constructor
    rintro past ⟨rest, st⟩ ⟨_, st'⟩ hi
    cases hi with
    | @waiting q _ _ _ _ far hq hp h =>
      have ha : q.value.act W past st = (none, .goto far st) := by rw [hq, act]
      refine .inr ?_
      simp only [process, ha, hp]
      exact ⟨trivial, (hw.goto h trivial _ _).mono fun _ _ ↦ .paired⟩
    | paired hpair =>
      obtain ⟨here, there, rfl, h⟩ := hpair
      rcases rest with _ | ⟨p, _ | ⟨q, rest⟩⟩
      · exact .inr ⟨rfl, .ended _⟩
      · exact .inr (hw.step (fun _ _ _ ↦ .paired) (mem_of_suffix here) there h fun _ ↦ ⟨rfl, suffix_of_cons here⟩)
      · rcases invertBranches_cons_cons p q rest with ⟨near, far, ho, heq⟩ | heq
        · simp only [heq] at there ⊢
          have hmem := suffix_of_cons (suffix_of_cons here)
          obtain rfl : st = st' := h.eq_of_none
          rcases act_branch (W := W) ho.branch ho.target far past st with ⟨ha, hb⟩ | ⟨ha, hb⟩
          · refine .inr ?_
            simp only [process, ha, hb, follow, seek_of_startsWith hn ho.startsWith hmem]
            exact ⟨trivial, .running (.paired ⟨hmem, suffix_of_cons there, rfl, h⟩)⟩
          · refine .inl ⟨(q :: rest, st), ?_, .waiting ho.jump hb h, Nat.lt_succ_self _⟩
            simp [process, ha, follow]
        · simp only [heq] at there ⊢
          exact .inr (hw.step (fun _ _ _ ↦ .paired) (mem_of_suffix here) there h fun _ ↦ ⟨rfl, suffix_of_cons here⟩)
  exact hsim.alike (.paired (hw.paired_initial hf sp))

/-! ## Labels -/

/-! ## Unused labels -/

def isUsed (used : List Label) (p : Item Prim) : Bool :=
  match p.value.definedLabel with
  | some l => used.contains l
  | none => true

def keepUsed (used : List Label) (flow : Flow) : Flow := flow.filter (isUsed used)

variable {used : List Label} {first : Label} {renames : List (Label × Label)}

lemma keepUsed_cons_of_mem (hp : p.value.definedLabel = some l) (hl : l ∈ used)
    (rest : Flow) : keepUsed used (p :: rest) = p :: keepUsed used rest := by
  simp [keepUsed, isUsed, hp, hl]

lemma keepUsed_cons_of_notMem (hp : p.value.definedLabel = some l) (hl : l ∉ used)
    (rest : Flow) : keepUsed used (p :: rest) = keepUsed used rest := by
  simp [keepUsed, isUsed, hp, hl]

lemma keepUsed_cons_of_none (hp : p.value.definedLabel = none) (rest : Flow) :
    keepUsed used (p :: rest) = p :: keepUsed used rest := by
  simp [keepUsed, isUsed, hp]

lemma seek_keepUsed (hl : l ∈ used) (flow : Flow) :
    (keepUsed used flow).seek l = (flow.seek l).map (keepUsed used) := by
  have heq : keepUsed used = filterMap (Option.guard (isUsed used)) :=
    funext fun a ↦ (congrFun filterMap_eq_filter a).symm
  rw [heq]
  refine seekLabel_filterMap (fun p hp ↦ ?_) (fun p q hk hq ↦ ?_) flow
  · simp [Option.guard, isUsed, hp, hl]
  · rwa [← (Option.guard_eq_some_iff.mp hk).1] at hq

def onlyLabels (W : World V) (used : List Label) : Slack W :=
  { Slack.none W with labels := (· ∈ used) }

lemma removeUnusedLabels_rewrites (W : World V) (flow : Flow) :
    Rewrites (onlyLabels W flow.usedLabels) flow flow.removeUnusedLabels (keepUsed flow.usedLabels) (· <:+ flow) where
  rename := rfl
  start := rfl
  spot_start := suffix_rfl
  spot_seek _ _ := seek_suffix
  seek _ hl := seek_keepUsed hl flow
  labelled _ rest _ here hp hl := ⟨keepUsed_cons_of_mem hp hl rest, suffix_of_cons here⟩
  targets p hp _ hl := mem_flatMap.mpr ⟨p, hp, hl⟩
  reads _ _ _ _ := trivial

lemma removeUnusedLabels_alike (P : Provenance W) (hf : P.Fresh mem) (sp : Word) (flow : Flow) :
    Alike W mem sp flow flow.removeUnusedLabels := by
  refine (removeUnusedLabels_rewrites W flow).alike hf sp (fun _ ↦ id) rfl fun p rest here ↦ ?_
  have hrest := suffix_of_cons here
  cases hp : p.value.definedLabel with
  | none => exact .inr ⟨_, keepUsed_cons_of_none hp rest, fun _ ↦ ⟨rfl, hrest⟩⟩
  | some l =>
    by_cases hl : l ∈ flow.usedLabels
    · exact .inr ⟨_, keepUsed_cons_of_mem hp hl rest, fun _ ↦ ⟨rfl, hrest⟩⟩
    · refine .inl ⟨keepUsed_cons_of_notMem hp hl rest, hrest, fun _ st ↦ ?_⟩
      simp [process, act_of_definedLabel hp, follow]

/-! ## Labels side by side -/

def keptFrom (before : Option Label) : Flow → Flow
  | [] => []
  | p :: rest =>
    match p.value, before with
    | .label _, some first => keptFrom (some first) rest
    | .label l, none => p :: keptFrom (some l) rest
    | _, _ => p :: keptFrom none rest

def droppedFrom (before : Option Label) : Flow → List (Label × Label)
  | [] => []
  | p :: rest =>
    match p.value, before with
    | .label second, some first => (second, first) :: droppedFrom (some first) rest
    | .label l, none => droppedFrom (some l) rest
    | _, _ => droppedFrom none rest

lemma dropRepeatedLabels_eq (before : Option Label) (renames : List (Label × Label)) (flow : Flow) :
    dropRepeatedLabels before renames flow = (keptFrom before flow, (droppedFrom before flow).reverse ++ renames) := by
  induction flow generalizing before renames with
  | nil => rfl
  | cons p rest ih =>
    cases hp : p.value with
    | label l => cases before <;> simp [dropRepeatedLabels, keptFrom, droppedFrom, hp, ih]
    | _ => simp [dropRepeatedLabels, keptFrom, droppedFrom, hp, ih]

/-- What becomes of the first node. A label behind a label is dropped, and every other node is kept. -/
inductive Merge (p : Item Prim) (rest : Flow) : Option Label → Prop
  | again {l first : Label} (hp : p.value = .label l)
    (hk : keptFrom (some first) (p :: rest) = keptFrom (some first) rest)
    (hd : droppedFrom (some first) (p :: rest) = (l, first) :: droppedFrom (some first) rest) :
    Merge p rest (some first)
  | first {l : Label} (hp : p.value = .label l) (hk : keptFrom none (p :: rest) = p :: keptFrom (some l) rest)
    (hd : droppedFrom none (p :: rest) = droppedFrom (some l) rest) : Merge p rest none
  | other {before : Option Label} (hp : ∀ l, p.value ≠ .label l)
    (hk : keptFrom before (p :: rest) = p :: keptFrom none rest)
    (hd : droppedFrom before (p :: rest) = droppedFrom none rest) : Merge p rest before

lemma merge (p : Item Prim) (rest : Flow) (before : Option Label) : Merge p rest before := by
  cases hp : p.value with
  | label l =>
    cases before with
    | none => exact .first hp (by simp [keptFrom, hp]) (by simp [droppedFrom, hp])
    | some first => exact .again hp (by simp [keptFrom, hp]) (by simp [droppedFrom, hp])
  | _ => exact .other (by simp [hp]) (by simp [keptFrom, hp]) (by simp [droppedFrom, hp])

lemma keptFrom_cons_other (hp : ∀ l, p.value ≠ .label l) (before : Option Label) (rest : Flow) :
    keptFrom before (p :: rest) = p :: keptFrom none rest := by
  cases merge p rest before with
  | again hl | first hl => exact absurd hl (hp _)
  | other _ hk => exact hk

lemma keptFrom_sublist (before : Option Label) (flow : Flow) : Sublist (keptFrom before flow) flow := by
  induction flow generalizing before with
  | nil => exact .slnil
  | cons p rest ih =>
    cases merge p rest before with
    | again _ hk => exact hk ▸ (ih _).cons p
    | first _ hk | other _ hk => exact hk ▸ (ih _).cons_cons p

lemma labels_perm (before : Option Label) (flow : Flow) :
    flow.labels.Perm ((keptFrom before flow).labels ++ (droppedFrom before flow).map (·.1)) := by
  induction flow generalizing before with
  | nil => exact .nil
  | cons p rest ih =>
    cases merge p rest before with
    | @again l _ hp hk hd =>
      rw [hk, hd, labels, filterMap_cons, hp]
      exact ((ih _).cons l).trans perm_middle.symm
    | @first l hp hk hd =>
      simp only [hk, hd, labels, filterMap_cons, hp, definedLabel, cons_append]
      exact (ih _).cons l
    | other _ hk hd =>
      simp only [hk, hd, labels, filterMap_cons]
      cases p.value.definedLabel with
      | none => exact ih none
      | some l => exact (ih none).cons l

lemma mem_labels_of_droppedFrom {flow : Flow}
    (h : (second, first) ∈ droppedFrom before flow) : before = some first ∨ first ∈ (keptFrom before flow).labels := by
  induction flow generalizing before with
  | nil => cases h
  | cons p rest ih =>
    cases merge p rest before with
    | again _ hk hd =>
      rw [hd] at h
      rw [hk]
      rcases mem_cons.mp h with h | h
      · cases h
        exact .inl rfl
      · exact ih h
    | first hp hk hd =>
      rw [hk, labels, filterMap_cons, hp]
      rcases ih (hd ▸ h) with h | h
      · exact .inr (mem_cons.mpr (.inl (Option.some.inj h).symm))
      · exact .inr (mem_cons_of_mem _ h)
    | other _ hk hd =>
      rw [hk, labels, filterMap_cons]
      rcases ih (hd ▸ h) with h | h
      · cases h
      · cases p.value.definedLabel with
        | none => exact .inr h
        | some l => exact .inr (mem_cons_of_mem l h)

/-! ### Names -/

lemma lookup_of_mem (hn : (renames.map (·.1)).Nodup) (h : (l, first) ∈ renames) : renames.lookup l = some first := by
  induction renames with
  | nil => cases h
  | cons r rest ih =>
    obtain ⟨m, n⟩ := r
    rw [map_cons, nodup_cons] at hn
    rcases mem_cons.mp h with heq | hrest
    · cases heq
      simp
    · have hne : (l == m) = false := by
        refine beq_false_of_ne ?_
        rintro rfl
        exact hn.1 (mem_map.mpr ⟨_, hrest, rfl⟩)
      simp [lookup_cons, hne, ih hn.2 hrest]

lemma resolve_of_lookup (h : renames.lookup l = none) (steps : Nat) : resolve renames steps l = l := by
  cases steps with
  | zero => rfl
  | succ n => simp [resolve, h]

def mergedName (flow : Flow) (l : Label) : Label :=
  resolve (droppedFrom none flow).reverse (droppedFrom none flow).reverse.length l

lemma lookup_of_forall (h : ∀ first, (l, first) ∉ droppedFrom none flow) :
    (droppedFrom none flow).reverse.lookup l = none := by
  refine lookup_eq_none_iff.mpr fun r hr ↦ ?_
  obtain ⟨m, first⟩ := r
  have hne : l ≠ m := by
    rintro rfl
    exact h first (mem_reverse.mp hr)
  simpa using hne

lemma lookup_of_kept (hn : flow.labels.Nodup) (h : l ∈ (keptFrom none flow).labels) :
    (droppedFrom none flow).reverse.lookup l = none := by
  have hdisj := (nodup_append'.mp ((labels_perm none flow).nodup_iff.mp hn)).2.2
  exact lookup_of_forall fun _ hmem ↦ hdisj h (mem_map.mpr ⟨_, hmem, rfl⟩)

lemma mergedName_of_kept (hn : flow.labels.Nodup) (h : l ∈ (keptFrom none flow).labels) : mergedName flow l = l :=
  resolve_of_lookup (lookup_of_kept hn h) _

lemma mergedName_of_dropped (hn : flow.labels.Nodup) (h : (l, first) ∈ droppedFrom none flow) :
    mergedName flow l = first := by
  have hkeys := (nodup_append'.mp ((labels_perm none flow).nodup_iff.mp hn)).2.1
  have hlookup : (droppedFrom none flow).reverse.lookup l = some first := by
    refine lookup_of_mem ?_ (mem_reverse.mpr h)
    rw [map_reverse]
    exact nodup_reverse.mpr hkeys
  have hfirst : first ∈ (keptFrom none flow).labels := (mem_labels_of_droppedFrom h).resolve_left nofun
  have hself := resolve_of_lookup (lookup_of_kept hn hfirst)
  obtain ⟨k, hk⟩ : ∃ k, (droppedFrom none flow).reverse.length = k + 1 := by
    rw [length_reverse]
    exact Nat.exists_eq_succ_of_ne_zero (Nat.ne_of_gt (length_pos_of_mem h))
  rw [mergedName, hk, resolve]
  simp [hlookup, hself]

lemma mergedName_of_undefined (h : l ∉ flow.labels) : mergedName flow l = l := by
  refine resolve_of_lookup (lookup_of_forall fun _ hmem ↦ h ?_) _
  rw [(labels_perm none flow).mem_iff, mem_append]
  exact .inr (mem_map.mpr ⟨_, hmem, rfl⟩)

/-! ### Places -/

lemma label_suffix (before : Option Label) {flow : Flow} (hp : p.value = .label l) (h : p :: rest <:+ flow) :
    (∃ first, before = some first ∧ keptFrom before flow = keptFrom (some first) rest ∧
      (l, first) ∈ droppedFrom before flow) ∨
    ∃ q first, q.value = .label first ∧ q :: keptFrom (some first) rest <:+ keptFrom before flow ∧
      (first = l ∨ (l, first) ∈ droppedFrom before flow) := by
  induction flow generalizing before with
  | nil => simp at h
  | cons q tail ih =>
    rcases suffix_cons_iff.mp h with heq | h
    · cases heq
      cases merge p rest before with
      | @again _ first hm hk hd =>
        cases hp.symm.trans hm
        exact .inl ⟨first, rfl, hk, hd ▸ mem_cons_self⟩
      | first hm hk =>
        cases hp.symm.trans hm
        exact .inr ⟨p, l, hp, hk ▸ suffix_rfl, .inl rfl⟩
      | other hp' => exact absurd hp (hp' l)
    · cases merge q tail before with
      | again _ hk hd =>
        rw [hk, hd]
        rcases ih (some _) h with ⟨first, hb, hk, hd⟩ | ⟨q', first, hq', hs, hd⟩
        · exact .inl ⟨first, hb, hk, mem_cons_of_mem _ hd⟩
        · exact .inr ⟨q', first, hq', hs, hd.imp_right (mem_cons_of_mem _)⟩
      | @first m hq hk hd =>
        rw [hk, hd]
        rcases ih (some m) h with ⟨first, hb, hk, hd⟩ | ⟨q', first, hq', hs, hd⟩
        · cases hb
          exact .inr ⟨q, m, hq, hk ▸ suffix_rfl, .inr hd⟩
        · exact .inr ⟨q', first, hq', hs.trans (suffix_cons q _), hd⟩
      | other _ hk hd =>
        rw [hk, hd]
        rcases ih none h with ⟨first, hb, -⟩ | ⟨q', first, hq', hs, hd⟩
        · cases hb
        · exact .inr ⟨q', first, hq', hs.trans (suffix_cons q _), hd⟩

lemma other_suffix (before : Option Label) {flow : Flow} (hp : ∀ l, p.value ≠ .label l)
    (h : p :: rest <:+ flow) : p :: keptFrom none rest <:+ keptFrom before flow := by
  induction flow generalizing before with
  | nil => simp at h
  | cons q tail ih =>
    rcases suffix_cons_iff.mp h with heq | h
    · cases heq
      exact keptFrom_cons_other hp before rest ▸ suffix_rfl
    · cases merge q tail before with
      | again _ hk => exact hk ▸ ih _ h
      | first _ hk | other _ hk => exact hk ▸ (ih _ h).trans (suffix_cons q _)

/-! ### Runs -/

def mergedNode (flow : Flow) (p : Item Prim) : Item Prim :=
  { p with value := dedupResumes (p.value.mapTargets (mergedName flow)) }

def mergedFlow (flow : Flow) : Flow := (keptFrom none flow).map (mergedNode flow)

lemma mergeLabels_eq (flow : Flow) : mergeLabels flow = flow ∨ mergeLabels flow = mergedFlow flow := by
  simp only [mergeLabels, dropRepeatedLabels_eq, append_nil]
  split
  · exact .inl rfl
  · exact .inr rfl

lemma act_mergedNode (flow : Flow) (p : Item Prim) (past : List (CallEvent V)) (st : PrimState V) :
    (mergedNode flow p).value.act W past st = (p.value.mapTargets (mergedName flow)).act W past st := by
  cases hp : p.value <;> simp [mergedNode, hp, mapTargets, dedupResumes, act]

lemma definedLabel_mergedNode (flow : Flow) (p : Item Prim) :
    (mergedNode flow p).value.definedLabel = p.value.definedLabel := by
  cases hp : p.value <;> simp [mergedNode, hp, mapTargets, dedupResumes, definedLabel]

lemma mergedNode_of_label (flow : Flow) (hp : p.value.definedLabel = some l) : mergedNode flow p = p := by
  obtain ⟨value, _⟩ := p
  cases value <;> first | rfl | cases hp

lemma labels_mergedFlow (flow : Flow) : (mergedFlow flow).labels = (keptFrom none flow).labels := by
  simp only [mergedFlow, labels, filterMap_map]
  exact filterMap_congr fun p _ ↦ definedLabel_mergedNode flow p

lemma labels_keptFrom_nodup (hn : flow.labels.Nodup) : (keptFrom none flow).labels.Nodup :=
  hn.sublist ((keptFrom_sublist none flow).filterMap _)

lemma labels_mergedFlow_nodup (hn : flow.labels.Nodup) : (mergedFlow flow).labels.Nodup := by
  rw [labels_mergedFlow]
  exact labels_keptFrom_nodup hn

/-- A place among labels side by side corresponds to the place behind the first of them, and also to
the first one itself. -/
inductive MergedPlace (flow : Flow) : Flow → Flow → Prop
  | behind (before : Option Label) (rest : Flow) :
    MergedPlace flow rest ((keptFrom before rest).map (mergedNode flow))
  | ahead {p q : Item Prim} {l first : Label} (hp : p.value = .label l) (hq : q.value = .label first)
    (rest : Flow) : MergedPlace flow (p :: rest) (q :: (keptFrom (some first) rest).map (mergedNode flow))

lemma seek_mergedFlow (hn : flow.labels.Nodup) (h : flow.seek l = some (p :: rest))
    (hd : p.value.definedLabel = some l) : ∃ q rest', (mergedFlow flow).seek (mergedName flow l) = some (q :: rest') ∧
      MergedPlace flow (p :: rest) (q :: rest') ∧ MergedPlace flow rest rest' ∧
      ∀ (st : PrimState V) (v : V), q.value.receive W.toModel st v = p.value.receive W.toModel st v := by
  have hs := seek_suffix h
  have hmap : ∀ {a : Flow}, a <:+ keptFrom none flow → a.map (mergedNode flow) <:+ mergedFlow flow := fun ha ↦ ha.map _
  by_cases hp : ∃ m, p.value = .label m
  · obtain ⟨m, hp⟩ := hp
    obtain rfl : m = l := by simpa [hp, definedLabel] using hd
    rcases label_suffix none hp hs with ⟨first, hb, -⟩ | ⟨q, first, hq, hsuf, hname⟩
    · cases hb
    · have hqd : q.value.definedLabel = some first := by rw [hq, definedLabel]
      have hkept : first ∈ (keptFrom none flow).labels := mem_filterMap.mpr ⟨q, mem_of_suffix hsuf, hqd⟩
      have hml : mergedName flow m = first := by
        rcases hname with rfl | hdrop
        · exact mergedName_of_kept hn hkept
        · exact mergedName_of_dropped hn hdrop
      have hseek := hmap hsuf
      rw [map_cons, mergedNode_of_label flow hqd] at hseek
      refine ⟨q, _, ?_, .ahead hp hq rest, .behind (some first) rest, ?_⟩
      · rw [hml]
        exact seek_of_suffix (labels_mergedFlow_nodup hn) hqd hseek
      · intro st v
        simp [hp, hq, receive]
  · have hp : ∀ m, p.value ≠ .label m := fun m hm ↦ hp ⟨m, hm⟩
    have hsuf := other_suffix none hp hs
    have hkept : l ∈ (keptFrom none flow).labels := mem_filterMap.mpr ⟨p, mem_of_suffix hsuf, hd⟩
    have hseek := hmap hsuf
    rw [map_cons, mergedNode_of_label flow hd] at hseek
    refine ⟨p, _, ?_, ?_, .behind none rest, fun _ _ ↦ rfl⟩
    · rw [mergedName_of_kept hn hkept]
      exact seek_of_suffix (labels_mergedFlow_nodup hn) hd hseek
    · have hplace : MergedPlace flow (p :: rest) _ := .behind none (p :: rest)
      rwa [keptFrom_cons_other hp, map_cons, mergedNode_of_label flow hd] at hplace

lemma seek_mergedFlow_of_none (h : flow.seek l = none) : (mergedFlow flow).seek (mergedName flow l) = none := by
  have hl : l ∉ flow.labels := seek_eq_none_iff.mp h
  rw [mergedName_of_undefined hl]
  refine seek_eq_none_iff.mpr fun hmem ↦ hl ?_
  rw [labels_mergedFlow] at hmem
  exact ((keptFrom_sublist none flow).filterMap _).subset hmem

def renamed (W : World V) (flow : Flow) : Slack W :=
  { Slack.none W with rename := mergedName flow }

structure Merged (P : Provenance W) (flow : Flow) (past : List (CallEvent V))
    (a b : Flow × PrimState V) : Prop where
  place : MergedPlace flow a.1 b.1
  state : Similar P (renamed W flow) past a.2 b.2

lemma Merged.follow (hn : flow.labels.Nodup)
    (hp : MergedPlace flow rest rest') (hm : Move.Similar P (renamed W flow) past m m') :
    Process.Matches (Merged P flow past) (flow.follow W.toModel rest m)
      ((mergedFlow flow).follow W.toModel rest' m') := by
  cases hm with
  | next h => exact .running ⟨hp, h⟩
  | finish o => exact .ended o
  | @goto _ _ l _ h =>
    simp only [Flow.follow]
    cases hf : flow.seek l with
    | none =>
      simp only [renamed, seek_mergedFlow_of_none hf]
      exact .ended _
    | some found =>
      obtain ⟨p, _, rfl, hd⟩ := seek_head hf
      obtain ⟨q, _, hs, hplace, -⟩ := seek_mergedFlow (W := W) hn hf hd
      simp only [renamed, hs]
      exact .running ⟨hplace, h⟩
  | @handle _ _ l _ _ hv h =>
    simp only [Flow.follow]
    cases hf : flow.seek l with
    | none =>
      simp only [renamed, seek_mergedFlow_of_none hf]
      exact .ended _
    | some found =>
      obtain ⟨p, _, rfl, hd⟩ := seek_head hf
      obtain ⟨q, _, hs, -, hplace, hreceive⟩ := seek_mergedFlow (W := W) hn hf hd
      simp only [renamed, hs]
      refine .running ⟨hplace, ?_⟩
      simp only [hreceive]
      exact h.receive (fun _ _ ↦ trivial) hv

lemma mergedFlow_alike (P : Provenance W) (hf : P.Fresh mem) (sp : Word) (hn : flow.labels.Nodup) :
    Alike W mem sp flow (mergedFlow flow) := by
  have hsim : Process.Simulation (flow.process W) ((mergedFlow flow).process W) (·.1.length) (Merged P flow) := by
    constructor
    rintro past ⟨rest, st⟩ ⟨rest', st'⟩ ⟨hplace, h⟩
    cases hplace with
    | @ahead _ _ _ first hp hq rest =>
      refine .inr ?_
      simp only [process, hp, hq, act, Flow.follow]
      exact ⟨trivial, .running ⟨.behind (some first) rest, h⟩⟩
    | behind before =>
      cases rest with
      | nil => exact .inr ⟨rfl, .ended _⟩
      | cons p rest =>
        have hstep : ∀ rest', MergedPlace flow rest rest' → (flow.process W past (p :: rest, st)).event =
              ((mergedFlow flow).process W past (mergedNode flow p :: rest', st')).event ∧
            Process.Matches (Merged P flow ((flow.process W past (p :: rest, st)).event.toList ++ past))
              (flow.process W past (p :: rest, st)).next
              ((mergedFlow flow).process W past (mergedNode flow p :: rest', st')).next := by
          intro _ hp
          obtain ⟨hev, hm⟩ := Similar.act (p := p.value) h (fun _ _ ↦ trivial) fun _ _ ↦ trivial
          simp only [renamed, ← act_mergedNode] at hev hm
          exact ⟨hev, Merged.follow hn hp hm⟩
        cases merge p rest before with
        | @again _ first hp hk =>
          simp only [hk]
          refine .inl ⟨(rest, st), ?_, ⟨.behind (some first) rest, h⟩, Nat.lt_succ_self _⟩
          simp [process, hp, act, Flow.follow]
        | first _ hk | other _ hk =>
          simp only [hk, map_cons]
          exact .inr (hstep _ (.behind _ rest))
  exact hsim.alike ⟨.behind none flow, .initial hf _ sp⟩

lemma mergeLabels_alike (P : Provenance W) (hf : P.Fresh mem) (sp : Word) (hn : flow.labels.Nodup) :
    Alike W mem sp flow flow.mergeLabels := by
  rcases mergeLabels_eq flow with h | h
  · rw [h]
    exact Process.Alike.refl _ _
  · rw [h]
    exact mergedFlow_alike P hf sp hn

end W16Compiler.Flow
