import W16Compiler.Proofs.Frame.Displacements
import W16Compiler.Proofs.Machine.DeadCode

/-!
# Depths and paths

The depths are found with a list of work. Whatever an instruction with a known depth leads to is known
at the right depth or still in the list, and the steps last until the list is empty. So the depths that
are found agree along every edge of the flow graph.

Every instruction of a function with symbolic displacements keeps a piece of code after layout. A path
follows these pieces as the machine runs them: to the next one, to a label that the instruction lists,
or to a label whose address was taken before, with the stack pointer of that time. Wherever a path
leads, the stack pointer is as far below the frame as the depth says that was found there, so every
piece does what its instruction means.
-/

namespace W16Compiler.Frame

open List BitVec MachineState Instr

section

open Array

variable {function : String} {frame : Nat} {places : List (Label × Nat)} {code : List Instr} {l : Label}

/-! ## Edges -/

def jumpDepth (frame : Nat) (i : Instr) (d : Int) : Int :=
  if i matches .loadLabel .. then d else wrap32 (d + i.stackEffect frame)

section

variable {length n : Nat} {i : Instr} {d : Int} {next : List (Nat × Int)}
  (h : flowFrom function frame places length n i d = .ok next)

include h

lemma flowFrom_eq_ok : ∃ refs, i.labelRefs.mapM (fun l ↦ match places.lookup l with
        | some target => (pure (target, jumpDepth frame i d) : Except InternalFault (Nat × Int))
        | none => throw (InternalFault.undefinedLabelIn function l.text)) = .ok refs ∧
      next = if i.fallsThrough && n + 1 < length then refs ++ [(n + 1, wrap32 (d + i.stackEffect frame))]
        else refs := by
  obtain ⟨refs, hrefs, hnext⟩ := bind_eq_ok.mp h
  cases hnext
  exact ⟨refs, hrefs, rfl⟩

omit h in
lemma mem_of_mapM_labels {e : Int} {labels : List Label} {refs : List (Nat × Int)}
    (h : labels.mapM (fun l ↦ match places.lookup l with
        | some target => (pure (target, e) : Except InternalFault (Nat × Int))
        | none => throw (InternalFault.undefinedLabelIn function l.text)) = .ok refs) :
    refs.length = labels.length ∧ ∀ l ∈ labels, ∃ target, places.lookup l = some target ∧ (target, e) ∈ refs := by
  induction labels generalizing refs with
  | nil =>
    cases h
    simp
  | cons l labels ih =>
    obtain ⟨ref, refs', href, hrefs, rfl⟩ := mapM_cons_eq_ok.mp h
    obtain ⟨hlength, hmem⟩ := ih hrefs
    refine ⟨by simp [hlength], fun l' hl' ↦ ?_⟩
    rcases mem_cons.mp hl' with rfl | hl'
    · split at href
      · rename_i target hl
        cases href
        exact ⟨target, hl, mem_cons_self⟩
      · cases href
    · obtain ⟨target, hl, hin⟩ := hmem l' hl'
      exact ⟨target, hl, mem_cons_of_mem _ hin⟩

lemma flowFrom_length : next.length ≤ i.labelRefs.length + 1 := by
  obtain ⟨_, hrefs, rfl⟩ := flowFrom_eq_ok h
  have hlength := (mem_of_mapM_labels hrefs).1
  split <;> simp <;> omega

lemma flowFrom_label
    (hl : l ∈ i.labelRefs) : ∃ target, places.lookup l = some target ∧ (target, jumpDepth frame i d) ∈ next := by
  obtain ⟨_, hrefs, rfl⟩ := flowFrom_eq_ok h
  obtain ⟨target, htarget, hmem⟩ := (mem_of_mapM_labels hrefs).2 l hl
  refine ⟨target, htarget, ?_⟩
  split
  · exact mem_append_left _ hmem
  · exact hmem

lemma flowFrom_next
    (hfall : i.fallsThrough) (hn : n + 1 < length) : (n + 1, wrap32 (d + i.stackEffect frame)) ∈ next := by
  obtain ⟨_, -, rfl⟩ := flowFrom_eq_ok h
  simp [hfall, hn]

end

/-! ## The list of work -/

/-- How many entries the instructions without a depth can still add. -/
def pending : List Instr → List (Option Int) → Nat
  | i :: code, d :: depths => (if d.isNone then i.labelRefs.length + 1 else 0) + pending code depths
  | _, _ => 0

lemma pending_replicate (code : List Instr) :
    pending code (replicate code.length none) = total (code.map fun i ↦ i.labelRefs.length + 1) := by
  induction code with
  | nil => rfl
  | cons i code ih =>
    rw [List.length_cons, List.replicate_succ, pending, ih]
    rfl

lemma pending_set {depths : List (Option Int)} {n : Nat} {i : Instr} {d : Int} (hi : code[n]? = some i)
    (hd : depths[n]? = some none) :
    pending code (depths.set n (some d)) + (i.labelRefs.length + 1) = pending code depths := by
  induction n generalizing code depths with
  | zero =>
    cases code with
    | nil => cases hi
    | cons j code =>
      cases depths with
      | nil => cases hd
      | cons e depths =>
        cases hi
        cases hd
        simp [pending, Nat.add_comm]
  | succ n ih =>
    cases code with
    | nil => cases hi
    | cons j code =>
      cases depths with
      | nil => cases hd
      | cons e depths => rw [set_cons_succ, pending, pending, Nat.add_assoc, ih hi hd]

/-- What an instruction with a known depth leads to is known or waits in the list. -/
structure Explored (function : String) (frame : Nat) (places : List (Label × Nat)) (code : Array Instr)
    (work : List (Nat × Int)) (depths : Array (Option Int)) : Prop where
  size : depths.size = code.size
  edges : ∀ n d, depths[n]? = some (some d) → ∃ i next, code[n]? = some i ∧
    flowFrom function frame places code.size n i d = .ok next ∧
      ∀ m e, (m, e) ∈ next → m < code.size → (m, e) ∈ work ∨ depths[m]? = some (some e)

section

variable {code : Array Instr} {work : List (Nat × Int)} {depths : Array (Option Int)} {n : Nat} {d : Int}

lemma Explored.tail (h : Explored function frame places code ((n, d) :: work) depths)
    (hn : n < code.size → depths[n]? = some (some d)) : Explored function frame places code work depths where
  size := h.size
  edges m e hm := by
    obtain ⟨i, next, hi, hnext, hedges⟩ := h.edges m e hm
    refine ⟨i, next, hi, hnext, fun m' e' hmem hlt ↦ ?_⟩
    rcases hedges m' e' hmem hlt with hwork | hknown
    · rcases mem_cons.mp hwork with heq | hwork
      · cases heq
        exact .inr (hn hlt)
      · exact .inl hwork
    · exact .inr hknown

lemma Explored.visit (h : Explored function frame places code ((n, d) :: work) depths) {i : Instr}
    {next : List (Nat × Int)} (hi : code[n]? = some i) (hd : depths[n]? = some none)
    (hnext : flowFrom function frame places code.size n i d = .ok next) :
    Explored function frame places code (next.reverse ++ work) (depths.setIfInBounds n (some d)) where
  size := by rw [size_setIfInBounds, h.size]
  edges m e hm := by
    have hn : n < depths.size := (Array.getElem?_eq_some_iff.mp hd).1
    have hkept : ∀ (m' : Nat) (e' : Int), depths[m']? = some (some e') →
        (depths.setIfInBounds n (some d))[m']? = some (some e') := by
      intro m' e' hm'
      have hne : n ≠ m' := by
        rintro rfl
        rw [hd] at hm'
        cases hm'
      rw [getElem?_setIfInBounds_ne hne, hm']
    by_cases heq : n = m
    · subst heq
      rw [getElem?_setIfInBounds_self_of_lt hn] at hm
      cases hm
      exact ⟨i, next, hi, hnext, fun m' e' hmem _ ↦ .inl (mem_append_left _ (mem_reverse.mpr hmem))⟩
    · rw [getElem?_setIfInBounds_ne heq] at hm
      obtain ⟨j, next', hj, hnext', hedges⟩ := h.edges m e hm
      refine ⟨j, next', hj, hnext', fun m' e' hmem hlt ↦ ?_⟩
      rcases hedges m' e' hmem hlt with hwork | hknown
      · rcases mem_cons.mp hwork with heq' | hwork
        · cases heq'
          exact .inr (getElem?_setIfInBounds_self_of_lt hn)
        · exact .inl (mem_append_right _ hwork)
      · exact .inr (hkept m' e' hknown)

lemma explored_walk {result : Array (Option Int)}
    (hwalk : walk function frame places code fuel work depths = .ok result)
    (h : Explored function frame places code work depths)
    (hfuel : work.length + pending code.toList depths.toList < fuel) : Explored function frame places code [] result ∧
      (∀ m e, (m, e) ∈ work → m < code.size → result[m]? = some (some e)) ∧
      ∀ (m : Nat) (e : Int), depths[m]? = some (some e) → result[m]? = some (some e) := by
  induction fuel generalizing work depths with
  | zero => omega
  | succ fuel ih =>
    cases work with
    | nil =>
      rw [walk] at hwalk
      · cases hwalk
        exact ⟨h, fun m e hmem ↦ (not_mem_nil hmem).elim, fun m e hm ↦ hm⟩
      · exact Nat.succ_ne_zero fuel
    | cons entry work =>
      obtain ⟨n, d⟩ := entry
      rw [length_cons] at hfuel
      rw [walk] at hwalk
      split at hwalk
      · -- The entry is behind the code.
        rename_i hn
        have hout : code.size ≤ n := getElem?_eq_none_iff.mp hn
        obtain ⟨hres, hwork, hkept⟩ := ih hwalk (h.tail fun hlt ↦ absurd hlt (by omega)) (by omega)
        refine ⟨hres, fun m e hmem hlt ↦ ?_, hkept⟩
        rcases mem_cons.mp hmem with heq | hmem
        · cases heq
          omega
        · exact hwork m e hmem hlt
      · -- The depth is known and has to be the same.
        rename_i i seen hi hseen
        split at hwalk
        · rename_i heq
          subst heq
          have hknown := Option.join_eq_some_iff.mp hseen
          obtain ⟨hres, hwork, hkept⟩ := ih hwalk (h.tail fun _ ↦ hknown) (by omega)
          refine ⟨hres, fun m e hmem hlt ↦ ?_, hkept⟩
          rcases mem_cons.mp hmem with heq | hmem
          · cases heq
            exact hkept n seen hknown
          · exact hwork m e hmem hlt
        · cases hwalk
      · -- The instruction is reached for the first time.
        rename_i i hi hnone
        obtain ⟨next, hnext, hwalk⟩ := bind_eq_ok.mp hwalk
        have hn : n < code.size := (Array.getElem?_eq_some_iff.mp hi).1
        have hd : depths[n]? = some none := by
          cases hget : depths[n]? with
          | none =>
            have := getElem?_eq_none_iff.mp hget
            rw [h.size] at this
            omega
          | some e =>
            rw [hget] at hnone
            exact congrArg some hnone
        have hpending : pending code.toList (depths.toList.set n (some d)) + (i.labelRefs.length + 1) =
            pending code.toList depths.toList := pending_set (by simpa using hi) (by simpa using hd)
        have hlength := flowFrom_length hnext
        obtain ⟨hres, hwork, hkept⟩ := ih hwalk (h.visit hi hd hnext) (by
          rw [length_append, length_reverse, toList_setIfInBounds]
          omega)
        have hset : (depths.setIfInBounds n (some d))[n]? = some (some d) :=
          getElem?_setIfInBounds_self_of_lt (h.size ▸ hn)
        refine ⟨hres, fun m e hmem hlt ↦ ?_, fun m e hm ↦ hkept m e ?_⟩
        · rcases mem_cons.mp hmem with heq | hmem
          · cases heq
            exact hkept n d hset
          · exact hwork m e (mem_append_right _ hmem) hlt
        · have hne : n ≠ m := by
            rintro rfl
            rw [hd] at hm
            cases hm
          rw [getElem?_setIfInBounds_ne hne, hm]

end

lemma explored_depths {ds : Array (Option Int)} (h : depths f = .ok ds) :
    Explored f.label f.frame (labelPlaces (f.code.map (·.value))) (f.code.map (·.value)).toArray [] ds ∧
      (f.code ≠ [] → ds[0]? = some (some (wrap32 (-f.frame)))) := by
  rw [depths] at h
  have hstart : Explored f.label f.frame (labelPlaces (f.code.map (·.value))) (f.code.map (·.value)).toArray
      (if (f.code.map (·.value)).isEmpty then [] else [(0, wrap32 (-f.frame))])
      (replicate (f.code.map (·.value)).length none) := by
    refine ⟨by simp, fun n d hn ↦ ?_⟩
    rw [Array.getElem?_replicate] at hn
    split at hn <;> cases hn
  have hfuel : (if (f.code.map (·.value)).isEmpty then [] else [(0, wrap32 (-f.frame))]).length +
      pending (f.code.map (·.value)).toArray.toList
        (Array.replicate (f.code.map (·.value)).length (none : Option Int)).toList <
      2 + total ((f.code.map (·.value)).map fun i ↦ i.labelRefs.length + 1) := by
    rw [toList_replicate, pending_replicate]
    split <;> simp
  obtain ⟨hres, hwork, -⟩ := explored_walk h hstart hfuel
  refine ⟨hres, fun hne ↦ ?_⟩
  cases hcode : f.code with
  | nil => exact (hne hcode).elim
  | cons i code => exact hwork 0 _ (by simp [hcode]) (by simp [hcode])

/-! ## Labels -/

def placesFrom (k : Nat) (code : List Instr) : List (Label × Nat) :=
  ((code.zipIdx k).filterMap fun (i, n) ↦ i.definedLabel.map (·, n)).reverse

lemma lookup_placesFrom_cons (l : Label) (k : Nat) (i : Instr) (code : List Instr) :
    (placesFrom k (i :: code)).lookup l =
      ((placesFrom (k + 1) code).lookup l).or (if i.definedLabel = some l then some k else none) := by
  rw [placesFrom, zipIdx_cons]
  cases hi : i.definedLabel with
  | none =>
    rw [filterMap_cons_none (by simp [hi])]
    simp [placesFrom]
  | some m =>
    rw [filterMap_cons_some (by simp only [hi, Option.map_some]; rfl), reverse_cons, lookup_append]
    by_cases hm : m = l
    · simp [placesFrom, hm]
    · have hne : (l == m) = false := beq_eq_false_iff_ne.mpr fun h ↦ hm h.symm
      simp [placesFrom, lookup_cons, hm, hne]

lemma seekLabel_placesFrom (l : Label) (k : Nat) (code : List Instr) :
    ∃ m : Option Nat, (placesFrom k code).lookup l = m.map (k + ·) ∧
      seekLabel Instr.definedLabel l code = m.map (code.drop ·) := by
  induction code generalizing k with
  | nil => exact ⟨none, rfl, rfl⟩
  | cons i code ih =>
    obtain ⟨m, hplace, hseek⟩ := ih (k + 1)
    rw [seekLabel_cons, lookup_placesFrom_cons, hplace, hseek]
    cases m with
    | some m => exact ⟨some (m + 1), by simp [Nat.add_assoc, Nat.add_comm 1 m], by simp⟩
    | none =>
      by_cases hi : i.definedLabel = some l
      · exact ⟨some 0, by simp [hi], by simp [hi]⟩
      · exact ⟨none, by simp [hi], by simp [hi]⟩

lemma seekLabel_of_labelPlaces {n : Nat} (h : (labelPlaces code).lookup l = some n) :
    seekLabel Instr.definedLabel l code = some (code.drop n) := by
  obtain ⟨m, hplace, hseek⟩ := seekLabel_placesFrom l 0 code
  have hn : m.map (0 + ·) = some n := by
    rw [← hplace]
    exact h
  cases m with
  | none => cases hn
  | some m =>
    rw [Option.map_some, Nat.zero_add] at hn
    cases hn
    exact hseek

end

/-! ## Paths through laid out code -/

/-- An instruction of a node, and the code that stands for it after layout. -/
structure Laid where
  node : Prim
  instr : Instr
  code : List Instr

structure Visit where
  past : List MachineEvent
  state : MachineState
  /-- The labels whose addresses were taken, each with the stack pointer of that time. -/
  saved : List (Label × Word)
  /-- The address and the number of the words that the latest start of a call reserved. -/
  area : Option (Word × Nat)

def Laid.saves (i : Laid) (v : Visit) : List (Label × Word) :=
  match i.instr with
  | .loadLabel _ l _ => (l, v.state.sp) :: v.saved
  | _ => v.saved

def Laid.reserves (i : Laid) (v : Visit) (ms : MachineState) : Option (Word × Nat) :=
  match i.node with
  | .callStart n => some (ms.sp, n)
  | _ => v.area

/-- The points that a run gets to from a state at the start of the code. -/
inductive Visits (E : Surroundings) (whole : List Laid) (start : MachineState) : List Laid → Visit → Prop where
  | entry : Visits E whole start whole ⟨[], start, [], none⟩
  | next {i : Laid} {rest : List Laid} {v : Visit} {past : List MachineEvent} {ms : MachineState}
    (h : Visits E whole start (i :: rest) v) (hrun : perform E v.past v.state i.code = (past, .next ms)) :
    Visits E whole start rest ⟨past, ms, i.saves v, i.reserves v ms⟩
  | goto {i : Laid} {rest found : List Laid} {v : Visit} {past : List MachineEvent} {l : Label}
    {ms : MachineState} (h : Visits E whole start (i :: rest) v)
    (hrun : perform E v.past v.state i.code = (past, .goto l ms))
    (hl : l ∈ i.instr.successors ∨ (l, ms.sp) ∈ v.saved)
    (hfound : seekLabel (·.instr.definedLabel) l whole = some found) :
    Visits E whole start found ⟨past, ms, v.saved, v.area⟩

/-! ## Code that follows the stack pointer -/

def tracksStack : Instr → Bool
  | .addImm rd base d => rd != .sp || (base == .sp && !d.isSymbolic)
  | .load rd .. | .alu _ rd .. | .unary _ rd _ | .loadImm rd _ | .loadSymbol rd .. | .loadLabel rd .. => rd != .sp
  | _ => true

def staysInFrame (i : Instr) : Bool :=
  i.leavesScratch && match i.access with
    | some (base, d) => !d.isSymbolic || base == .sp
    | none => true

/-- A way out of the function, on which the stack pointer is that of a handler. -/
inductive Leaving : List Instr → Prop where
  | load (rest : List Instr) : Leaving (.load .r1 .r1 (.num 1) :: .jumpReg .r1 [] :: rest)
  | jump (rest : List Instr) : Leaving (.jumpReg .r1 [] :: rest)

/-- Code in which the stack pointer is known everywhere but on ways out. -/
def Orderly : List Instr → Prop
  | [] => True
  | i :: rest => staysInFrame i ∧ (tracksStack i ∨ Leaving rest) ∧ Orderly rest

lemma Orderly.suffix {code rest : List Instr} (h : Orderly code) (hs : rest <:+ code) : Orderly rest := by
  induction code with
  | nil => rwa [suffix_nil.mp hs]
  | cons i code ih =>
    rcases suffix_cons_iff.mp hs with rfl | hs
    · exact h
    · exact ih h.2.2 hs

variable {E : Surroundings} {frame : Nat} {top : Word} {past : List MachineEvent} {ms : MachineState} {l : Label}

section

variable {offset : SlotId → Option Nat} {past' : List MachineEvent} {ms' : MachineState} {i : Instr} {code : List Instr}

lemma meaning_eq_stackEffect {d : Disp} (hd : d.isSymbolic = false) (sp : Word) :
    meaning offset frame top sp d = -.ofInt 16 ((addImm .sp .sp d).stackEffect frame) := by
  cases d with
  | num v => simp [meaning, stackEffect, ofInt_wrap32, ofInt_neg, neg_neg]
  | frame k =>
    simp only [meaning, stackEffect, ofInt_wrap32, ofInt_mul, ofInt_neg, ofInt_natCast]
    grind
  | slot | param => cases hd

lemma afterCall_next (h : ms.afterCall reply = .next ms') : ms'.sp = ms.sp := by
  unfold afterCall at h
  split at h <;> cases h
  exact reply.state_sp ms.sp

lemma sp_of_next (hi : tracksStack i) (h : (i.act (framed E offset frame top) (fun _ ↦ true) past ms).2 = .next ms') :
    ms'.sp = ms.sp - .ofInt 16 (i.stackEffect frame) := by
  have hzero : i.stackEffect frame = 0 → ms'.sp = ms.sp → ms'.sp = ms.sp - .ofInt 16 (i.stackEffect frame) := by
    intro heffect hsp
    rw [heffect, hsp]
    exact (BitVec.sub_zero ms.sp).symm
  cases i with
  | addImm rd base d =>
    cases h
    by_cases hrd : rd = .sp
    · subst hrd
      simp only [tracksStack, bne_self_eq_false, Bool.false_or, Bool.and_eq_true, beq_iff_eq, Bool.not_eq_true'] at hi
      obtain ⟨rfl, hd⟩ := hi
      rw [set_sp_self, value, address, displacement_framed, meaning_eq_stackEffect hd, sub_eq_add_neg]
      rfl
    · refine hzero ?_ (set_sp_of_ne ms _ hrd)
      cases rd <;> first | rfl | exact (hrd rfl).elim
  | load | alu | unary | loadImm | loadSymbol | loadLabel =>
    cases h
    exact hzero rfl (set_sp_of_ne ms _ (by simpa [tracksStack] using hi))
  | label | store =>
    cases h
    exact hzero rfl rfl
  | branch | branchZero =>
    simp only [act] at h
    split at h <;> cases h
    exact hzero rfl rfl
  | call | callReg => exact hzero rfl (afterCall_next h)
  | jumpReg ra targets =>
    simp only [act] at h
    split at h
    · split at h <;> cases h
    · cases h
  | jump | jumpSymbol | ret => cases h

lemma sp_of_goto (hl : l ∈ i.successors)
    (h : (i.act (framed E offset frame top) (fun _ ↦ true) past ms).2 = .goto l ms') :
    ms'.sp = ms.sp ∧ i.stackEffect frame = 0 := by
  cases i with
  | branch | branchZero =>
    simp only [act] at h
    split at h <;> cases h
    exact ⟨rfl, rfl⟩
  | jump =>
    cases h
    exact ⟨rfl, rfl⟩
  | jumpReg ra targets =>
    simp only [act] at h
    split at h
    · split at h <;> cases h
      exact ⟨rfl, rfl⟩
    · cases h
  | _ => cases hl

section

variable (h : SameEffect (perform E past ms code) (perform (framed E offset frame top) past ms [i]))

include h

lemma SameEffect.next (hrun : perform E past ms code = (past', .next ms')) :
    ∃ ms1, (i.act (framed E offset frame top) (fun _ ↦ true) past ms).2 = .next ms1 ∧ ms'.sp = ms1.sp := by
  rw [hrun, perform_singleton] at h
  obtain ⟨-, hmove⟩ := h
  generalize (i.act (framed E offset frame top) (fun _ ↦ true) past ms).2 = m at hmove
  cases hmove with
  | next hregs hmem => exact ⟨_, rfl, hregs .sp (by decide)⟩
  | same => exact ⟨ms', rfl, rfl⟩

lemma SameEffect.goto (hrun : perform E past ms code = (past', .goto l ms')) :
    (i.act (framed E offset frame top) (fun _ ↦ true) past ms).2 = .goto l ms' := by
  rw [hrun, perform_singleton] at h
  obtain ⟨-, hmove⟩ := h
  generalize (i.act (framed E offset frame top) (fun _ ↦ true) past ms).2 = m at hmove
  cases hmove with
  | same => rfl

end

end

/-! ## Depths along a path -/

/-- Pieces that are made at the depths that were found. -/
structure LaidAt (offsets : List (Option Nat)) (frame : Nat) (ds : Array (Option Int)) (whole : List Laid) :
    Prop where
  pieces : ∀ (k : Nat) (i : Laid), whole[k]? = some i → ∃ j,
    resolveInstr offsets frame ((ds[k]?).join.getD 0) i.instr = .ok j ∧ i.code = expand j
  explored : ∃ function,
    Explored function frame (labelPlaces (whole.map (·.instr))) (whole.map (·.instr)).toArray [] ds
  start : whole ≠ [] → ds[0]? = some (some (wrap32 (-frame)))
  orderly : Orderly (whole.map (·.instr))

/-- The stack pointer is as deep as the depth says that was found at a place. -/
def LevelAt (frame : Nat) (ds : Array (Option Int)) (top : Word) (k : Nat) (sp : Word) : Prop :=
  ∃ d, ds[k]? = some (some d) ∧ sp = top - .ofNat 16 frame - .ofInt 16 d

/-- Where a path leads, the stack pointer is known, and so it is where handlers are entered. -/
structure Tracked (frame : Nat) (ds : Array (Option Int)) (whole : List Laid) (top : Word) (rest : List Laid)
    (v : Visit) : Prop where
  here : ∃ k, rest = whole.drop k ∧
    (rest ≠ [] → LevelAt frame ds top k v.state.sp ∨ Leaving (rest.map (·.instr)))
  saved : ∀ l sp, (l, sp) ∈ v.saved →
    ∃ m, (labelPlaces (whole.map (·.instr))).lookup l = some m ∧ LevelAt frame ds top m sp

section

variable {offsets : List (Option Nat)} {k m : Nat} {ds : Array (Option Int)} {whole rest found : List Laid} {sp : Word}
  {v : Visit} {i : Laid} {instr : Instr}

lemma getElem?_of_drop_eq_cons (h : i :: rest = whole.drop k) : whole[k]? = some i ∧ rest = whole.drop (k + 1) := by
  constructor
  · rw [← head?_drop, ← h, head?_cons]
  · rw [← tail_drop, ← h, tail_cons]

lemma LaidAt.orderly_cons (h : LaidAt offsets frame ds whole) (hk : i :: rest = whole.drop k) :
    staysInFrame i.instr ∧ (tracksStack i.instr ∨ Leaving (rest.map (·.instr))) ∧ Orderly (rest.map (·.instr)) := by
  have hsuffix : (i :: rest).map (·.instr) <:+ whole.map (·.instr) := by
    rw [hk]
    exact (drop_suffix k whole).map _
  exact h.orderly.suffix hsuffix

lemma drop_of_labelPlaces (hm : (labelPlaces (whole.map (·.instr))).lookup l = some m)
    (hfound : seekLabel (·.instr.definedLabel) l whole = some found) : found = whole.drop m := by
  have hseek := seekLabel_of_labelPlaces hm
  have hmap : seekLabel definedLabel l (whole.map (·.instr)) =
      (seekLabel (·.instr.definedLabel) l whole).map (map (·.instr)) := seekLabel_map (·.instr) whole
  rw [hseek, hfound, Option.map_some, Option.some.injEq, ← map_drop] at hmap
  have hlength : found.length = (whole.drop m).length := by
    simpa using (congrArg length hmap).symm
  have hsuffix : found <:+ whole := seekLabel_suffix hfound
  exact (suffix_of_suffix_length_le hsuffix (drop_suffix m whole) (Nat.le_of_eq hlength)).eq_of_length hlength

lemma Tracked.sameEffect (h : Tracked frame ds whole top (i :: rest) v) (hlaid : LaidAt offsets frame ds whole) :
    SameEffect (perform E v.past v.state i.code)
      (perform (framed E (offsetIn offsets) frame top) v.past v.state [i.instr]) := by
  obtain ⟨⟨k, hk, hlevel⟩, -⟩ := h
  obtain ⟨hi, -⟩ := getElem?_of_drop_eq_cons hk
  obtain ⟨j, hj, hcode⟩ := hlaid.pieces k i hi
  have horderly := (hlaid.orderly_cons hk).1
  rw [staysInFrame, Bool.and_eq_true] at horderly
  rw [hcode]
  refine sameEffect_expand hj horderly.1 fun r d haccess hd ↦ ?_
  rcases hlevel (cons_ne_nil i rest) with ⟨d', hd', hsp⟩ | hleaving
  · rw [hd', Option.join_some, Option.getD_some]
    exact hsp
  · rw [map_cons] at hleaving
    generalize i.instr = instr, rest.map (·.instr) = instrs at haccess hleaving
    cases hleaving <;> cases haccess
    cases hd

lemma lt_of_labelPlaces (hm : (labelPlaces (whole.map (·.instr))).lookup l = some m) : m < whole.length := by
  obtain ⟨_, _, hdrop, -⟩ := seekLabel_head (seekLabel_of_labelPlaces hm)
  by_contra hle
  rw [List.drop_eq_nil_of_le (by simpa using hle)] at hdrop
  cases hdrop

lemma ofInt_jumpDepth {d : Int} (h : instr.stackEffect frame = 0) :
    BitVec.ofInt 16 (jumpDepth frame instr d) = BitVec.ofInt 16 d := by
  unfold jumpDepth
  split
  · rfl
  · rw [if_neg Bool.false_ne_true, h, Int.add_zero, ofInt_wrap32]

lemma mem_labelRefs (h : l ∈ instr.successors) : l ∈ instr.labelRefs := by
  cases instr <;> first | exact h | cases h

section

variable (h : LaidAt offsets frame ds whole) (hi : whole[k]? = some i) (hlevel : LevelAt frame ds top k sp)

include h hi hlevel

lemma LaidAt.level_next (hfall : i.instr.fallsThrough)
    (hk : k + 1 < whole.length) (hsp : sp' = sp - .ofInt 16 (i.instr.stackEffect frame)) :
    LevelAt frame ds top (k + 1) sp' := by
  obtain ⟨d, hd, hsp0⟩ := hlevel
  obtain ⟨_, hexplored⟩ := h.explored
  obtain ⟨instr, _, hinstr, hflow, hedges⟩ := hexplored.edges k d hd
  have heq : instr = i.instr := by simpa [hi] using hinstr.symm
  subst heq
  have hmem := flowFrom_next hflow hfall (by simpa using hk)
  have hnext := (hedges _ _ hmem (by simpa using hk)).resolve_left not_mem_nil
  refine ⟨_, hnext, ?_⟩
  rw [hsp, hsp0, ofInt_wrap32, ofInt_add]
  grind

lemma LaidAt.level_label (hl : l ∈ i.instr.labelRefs) (heffect : i.instr.stackEffect frame = 0) :
    ∃ m, (labelPlaces (whole.map (·.instr))).lookup l = some m ∧ LevelAt frame ds top m sp := by
  obtain ⟨d, hd, hsp0⟩ := hlevel
  obtain ⟨_, hexplored⟩ := h.explored
  obtain ⟨instr, _, hinstr, hflow, hedges⟩ := hexplored.edges k d hd
  have heq : instr = i.instr := by simpa [hi] using hinstr.symm
  subst heq
  obtain ⟨m, hm, hmem⟩ := flowFrom_label hflow hl
  have hlt := lt_of_labelPlaces hm
  have hnext := (hedges _ _ hmem (by simpa using hlt)).resolve_left List.not_mem_nil
  refine ⟨m, hm, _, hnext, ?_⟩
  rw [hsp0, ofInt_jumpDepth heffect]

end

lemma Tracked.entry (hlaid : LaidAt offsets frame ds whole) (start : MachineState) :
    Tracked frame ds whole start.sp whole ⟨[], start, [], none⟩ where
  here := by
    refine ⟨0, rfl, fun hne ↦ .inl ⟨_, hlaid.start hne, ?_⟩⟩
    rw [ofInt_wrap32, BitVec.ofInt_neg, BitVec.ofInt_natCast]
    grind
  saved _ _ h := (not_mem_nil h).elim

lemma Tracked.next (h : Tracked frame ds whole top (i :: rest) v) (hlaid : LaidAt offsets frame ds whole)
    (hrun : perform E v.past v.state i.code = (past, .next ms)) :
    Tracked frame ds whole top rest ⟨past, ms, i.saves v, i.reserves v ms⟩ := by
  obtain ⟨ms1, hact, hsp⟩ := SameEffect.next (h.sameEffect hlaid) hrun
  have hfall := fallsThrough_of_act hact
  obtain ⟨⟨k, hk, hlevel⟩, hsaved⟩ := h
  obtain ⟨hi, hrest⟩ := getElem?_of_drop_eq_cons hk
  obtain ⟨-, htracks, -⟩ := hlaid.orderly_cons hk
  have hhere := hlevel (cons_ne_nil i rest)
  constructor
  · refine ⟨k + 1, hrest, fun hne ↦ ?_⟩
    have hlength : k + 1 < whole.length := by
      rw [hrest, ne_eq, drop_eq_nil_iff] at hne
      omega
    rcases htracks with htracks | hleaving
    · rcases hhere with hat | hleaving
      · have hsp' := sp_of_next htracks hact
        rw [← hsp] at hsp'
        exact .inl (hlaid.level_next hi hat hfall hlength hsp')
      · -- On the way out the next instruction is the jump.
        refine .inr ?_
        rw [map_cons] at hleaving
        generalize i.instr = instr, rest.map (·.instr) = instrs at hleaving hfall
        cases hleaving with
        | load => exact .jump _
        | jump => cases hfall
    · exact .inr hleaving
  · intro l sp hmem
    simp only [Laid.saves] at hmem
    split at hmem
    · rename_i rd l' short hinstr
      rcases mem_cons.mp hmem with heq | hmem
      · cases heq
        rcases hhere with hat | hleaving
        · exact hlaid.level_label hi hat (by simp [hinstr, labelRefs]) (by rw [hinstr]; rfl)
        · rw [map_cons, hinstr] at hleaving
          cases hleaving
      · exact hsaved l sp hmem
    · exact hsaved l sp hmem

lemma Tracked.goto (h : Tracked frame ds whole top (i :: rest) v) (hlaid : LaidAt offsets frame ds whole)
    (hrun : perform E v.past v.state i.code = (past, .goto l ms)) (hl : l ∈ i.instr.successors ∨ (l, ms.sp) ∈ v.saved)
    (hfound : seekLabel (·.instr.definedLabel) l whole = some found) :
    Tracked frame ds whole top found ⟨past, ms, v.saved, v.area⟩ := by
  have hact := SameEffect.goto (h.sameEffect hlaid) hrun
  obtain ⟨⟨k, hk, hlevel⟩, hsaved⟩ := h
  obtain ⟨hi, -⟩ := getElem?_of_drop_eq_cons hk
  refine ⟨?_, hsaved⟩
  have htarget : ∃ m, (labelPlaces (whole.map (·.instr))).lookup l = some m ∧ LevelAt frame ds top m ms.sp := by
    rcases hl with hl | hmem
    · obtain ⟨hsp, heffect⟩ := sp_of_goto hl hact
      rcases hlevel (cons_ne_nil i rest) with hat | hleaving
      · rw [hsp]
        exact hlaid.level_label hi hat (mem_labelRefs hl) heffect
      · rw [map_cons] at hleaving
        generalize i.instr = instr, rest.map (·.instr) = instrs at hleaving hl
        cases hleaving <;> cases hl
    · exact hsaved l ms.sp hmem
  obtain ⟨m, hm, hat⟩ := htarget
  exact ⟨m, drop_of_labelPlaces hm hfound, fun _ ↦ .inl hat⟩

lemma Visits.tracked {start : MachineState} (h : Visits E whole start rest v)
    (hlaid : LaidAt offsets frame ds whole) : Tracked frame ds whole start.sp rest v := by
  induction h with
  | entry => exact .entry hlaid start
  | next _ hrun ih => exact ih.next hlaid hrun
  | goto _ hrun hl hfound ih => exact ih.goto hlaid hrun hl hfound

end

end W16Compiler.Frame
