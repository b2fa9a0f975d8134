import W16Compiler.Machine.Optimize
import W16Compiler.Proofs.Machine.DeadCode
import W16Compiler.Proofs.Machine.Knowledge

/-!
# Optimized machine code behaves alike

The walk with knowledge about registers goes through the same states, and removing dead instructions
keeps what is needed. Between the passes it stays true that labels declare what exceptions bring: a walk
makes a register live only where it knew its contents, and at labels it knows nothing.

Labels that declare registers must not be entered in any other way, and exceptions bring no register but
the first one. Without either of these the declared registers count as overwritten where they still
carry a value, and the instructions that compute it are removed.
-/

namespace W16Compiler

open Instr Knowledge

/-! ## Walks and declared registers -/

namespace Knowledge

variable {code rest' rest : Code} {k : Knowledge} {r rd : Reg} {j : Item Instr}

lemma known_stackLost (h : k.stackLost.known r ≠ .unknown) : k.known r ≠ .unknown := by
  intro hk
  simp [stackLost, hk] at h

lemma known_stackMoved (h : (k.stackMoved by_).known r ≠ .unknown) : k.known r ≠ .unknown := by
  intro hk
  simp [stackMoved, hk] at h

lemma known_set (h : (k.set rd v).known r ≠ .unknown) : k.known r ≠ .unknown ∨ r = rd := by
  rw [set] at h
  split at h
  · exact .inl (known_stackLost h)
  · by_cases hr : r = rd
    · exact .inr hr
    · exact .inl (by simpa [hr] using h)

lemma known_step {i : Instr} (h : (k.step i).known r ≠ .unknown) :
    k.known r ≠ .unknown ∨ i.overwrites.contains r := by
  have hset : ∀ {rd : Reg} {v : RegValue}, i.overwrites = .ofList [rd] →
      (k.set rd v).known r ≠ .unknown → k.known r ≠ .unknown ∨ i.overwrites.contains r := by
    intro rd v hw hk
    refine (known_set hk).imp_right fun hr ↦ ?_
    rw [hw, hr]
    simp
  cases i with
  | alu op rd ra rb =>
    simp only [step] at h
    split at h
    · split at h
      · exact .inl (known_stackMoved h)
      · exact .inl (known_stackLost h)
    · exact hset rfl h
  | addImm rd ra imm =>
    simp only [step] at h
    split at h
    · split at h
      · exact .inl (known_stackMoved h)
      · exact .inl (known_stackLost h)
    · split at h <;> exact hset rfl h
  | unary op rd ra | loadImm rd value | loadSymbol rd symbol offset | loadLabel rd l short | load rd base d =>
    exact hset rfl h
  | store rs base d | branch cond ra rb target short | branchZero nonzero ra target short => exact .inl h
  | _ => exact (h rfl).elim

/-- An instruction in the place of another one, as far as the flow of control and of registers goes. -/
structure Replaces (j i : Instr) : Prop where
  falls : j.fallsThrough = i.fallsThrough
  successors : j.successors = i.successors
  overwrites : j.overwrites = i.overwrites
  reads : ∀ r, j.reads.contains r → i.reads.contains r ∨ r = .sp
  label : ∀ l liveIn, j = .label l liveIn → i = .label l liveIn

lemma Replaces.refl (i : Instr) : Replaces i i := ⟨rfl, rfl, rfl, fun _ h ↦ .inl h, fun _ _ h ↦ h⟩

lemma Replaces.of_result {i j : Instr} (hi : i.result = some rd) (hj : j.result = some rd)
    (hreads : ∀ r, j.reads.contains r → i.reads.contains r ∨ r = .sp) : Replaces j i where
  falls := by rw [fallsThrough_of_result hi, fallsThrough_of_result hj]
  successors := by rw [successors_of_result hi, successors_of_result hj]
  overwrites := by rw [overwrites_of_result hi, overwrites_of_result hj]
  reads := hreads
  label l liveIn h := by
    rw [h] at hj
    cases hj

lemma walk_cons_cases (k : Knowledge) (i : Item Instr) (rest : Code) :
    (∃ rd, i.value.result = some rd ∧ k.known rd ≠ .unknown ∧ k.walk (i :: rest) = k.walk rest) ∨
      ∃ j : Item Instr, Replaces j.value i.value ∧ k.walk (i :: rest) = j :: (k.step j.value).walk rest := by
  have hr := simplify_rewritten k i.value
  rw [walk]
  cases hs : k.simplify i.value with
  | keep => exact .inr ⟨i, .refl i.value, rfl⟩
  | drop =>
    rw [hs] at hr
    cases hr with
    | drop hi hsp hk => exact .inl ⟨_, hi, hk, rfl⟩
  | replace j =>
    rw [hs] at hr
    refine .inr ⟨{ i with value := j }, ?_, rfl⟩
    cases hr with
    | replace hi hj hreads => exact .of_result hi hj hreads
    | store hi =>
      rw [hi]
      refine ⟨rfl, rfl, rfl, fun r h ↦ ?_, fun l _ h ↦ by cases h⟩
      simp only [reads, RegSet.contains_ofList, List.mem_cons, List.not_mem_nil, or_false, decide_eq_true_eq] at h ⊢
      exact h.imp_left .inl

lemma guarded_walk (h : code.Guarded b) (k : Knowledge) : Code.Guarded b (k.walk code) := by
  induction code generalizing b k with
  | nil => trivial
  | cons i rest ih =>
    obtain ⟨_, hi, -, hw⟩ | ⟨j, hj, hw⟩ := walk_cons_cases k i rest
    · have hrest : Code.Guarded true rest := fallsThrough_of_result hi ▸ h.2
      rw [hw]
      exact ih hrest.of_true k
    · rw [hw]
      exact ⟨fun hb l liveIn hl ↦ h.1 hb l liveIn (hj.label l liveIn hl), hj.falls ▸ ih h.2 _⟩

lemma mem_walk (h : j ∈ k.walk code) : ∃ i ∈ code, Replaces j.value i.value := by
  induction code generalizing k with
  | nil => cases h
  | cons i rest ih =>
    have hrest : ∀ {k : Knowledge}, j ∈ k.walk rest → ∃ i' ∈ i :: rest, Replaces j.value i'.value := by
      intro k hj
      obtain ⟨i', hi', hrep⟩ := ih hj
      exact ⟨i', List.mem_cons_of_mem i hi', hrep⟩
    obtain ⟨_, -, -, hw⟩ | ⟨_, hj, hw⟩ := walk_cons_cases k i rest
    · rw [hw] at h
      exact hrest h
    · rw [hw] at h
      rcases List.mem_cons.mp h with rfl | h
      · exact ⟨i, List.mem_cons_self, hj⟩
      · exact hrest h

lemma walk_eq_cons (h : j :: tail' = k.walk rest) :
    ∃ i tail, Replaces j.value i.value ∧ tail' = (k.step j.value).walk tail ∧
      ∀ r, LiveAt code r (i :: tail) → LiveAt code r rest ∨ k.known r ≠ .unknown := by
  induction rest with
  | nil => cases h
  | cons i rest ih =>
    obtain ⟨rd, hi, hk, hw⟩ | ⟨_, hj, hw⟩ := walk_cons_cases k i rest
    · rw [hw] at h
      obtain ⟨i', tail, hrep, htail, hlive⟩ := ih h
      refine ⟨i', tail, hrep, htail, fun r hr ↦ ?_⟩
      by_cases hrd : r = rd
      · exact .inr (hrd ▸ hk)
      · refine (hlive r hr).imp_left (.falls (fallsThrough_of_result hi) ?_)
        simp [overwrites_of_result hi, hrd]
    · rw [hw] at h
      cases h
      exact ⟨i, rest, hj, rfl, fun r hr ↦ .inl hr⟩

lemma liveAt_of_walk (h : LiveAt (nothing.walk code) r rest')
    (hrest : rest' = k.walk rest) : LiveAt code r rest ∨ k.known r ≠ .unknown ∨ r = .sp := by
  induction h generalizing k rest with
  | reads h =>
    obtain ⟨i, _, hrep, -, hlive⟩ := walk_eq_cons hrest
    rcases hrep.reads r h with hr | hr
    · exact (hlive r (.reads hr)).imp_right .inl
    · exact .inr (.inr hr)
  | falls hf hw h ih =>
    obtain ⟨i, _, hrep, htail, hlive⟩ := walk_eq_cons hrest
    rcases ih htail with hr | hk | hr
    · exact (hlive r (.falls (hrep.falls ▸ hf) (hrep.overwrites ▸ hw) hr)).imp_right .inl
    · refine .inr (.inl ((known_step hk).resolve_right ?_))
      simp [hw]
    · exact .inr (.inr hr)
  | jumps hl hw hseek h ih =>
    obtain ⟨i, _, hrep, -, hlive⟩ := walk_eq_cons hrest
    rw [seek_walk] at hseek
    obtain ⟨_, hfound, heq⟩ := Option.map_eq_some_iff.mp hseek
    rcases ih heq.symm with hr | hk | hr
    · exact (hlive r (.jumps (hrep.successors ▸ hl) (hrep.overwrites ▸ hw) hfound hr)).imp_right .inl
    · exact (hk rfl).elim
    · exact .inr (.inr hr)

lemma defines_of_walk (h : Code.Defines (nothing.walk code) l liveIn rest') :
    ∃ rest, code.Defines l liveIn rest ∧ rest' = nothing.walk rest :=
  h.of_map (seek_walk l nothing code) fun _ rest _ hi ↦ walk_cons_of_label hi nothing rest

end Knowledge

namespace Code

variable {code : Code} {entry : Label → Bool}

lemma simplify_declared (hd : code.Declared entry) : code.simplify.Declared entry := by
  constructor
  case falls => exact guarded_walk hd.falls _
  case jumps =>
    intro j hj l hl liveIn _ hwalk
    obtain ⟨rest, hdef, -⟩ := defines_of_walk hwalk
    obtain ⟨i, hi, hrep⟩ := mem_walk hj
    exact hd.jumps i hi l (hrep.successors ▸ hl) liveIn rest hdef
  case reads =>
    intro l liveIn _ hl hwalk r hlive
    obtain ⟨rest, hdef, hrest⟩ := defines_of_walk hwalk
    rcases liveAt_of_walk hlive hrest with hr | hk | hr
    · exact hd.reads l liveIn rest hl hdef r hr
    · exact (hk rfl).elim
    · exact .inl hr
  case passes =>
    intro l liveIn _ hl hwalk
    obtain ⟨rest, hdef, -⟩ := defines_of_walk hwalk
    exact hd.passes l liveIn rest hl hdef

/-! ## Rounds -/

lemma optimizeWithin_alike (rounds : Nat) (E : Surroundings) (hd : code.Declared entry) (st : MachineState) :
    (code.process E entry).Alike ((code.optimizeWithin rounds).process E entry) (code, st)
      (code.optimizeWithin rounds, st) := by
  induction rounds generalizing code with
  | zero => exact .refl _ _
  | succ rounds ih =>
    rw [optimizeWithin]
    split
    · exact .refl _ _
    · have hsimple := simplify_declared hd
      have hround : (code.process E entry).Alike (code.simplify.removeDead.process E entry) (code, st)
          (code.simplify.removeDead, st) :=
        (simplify_alike E entry code st).trans (removeDead_alike E hsimple st)
      exact hround.trans (ih (removeDead_declared hsimple))

/-! ## Jumps through registers -/

/-- The labels that exceptions enter: their addresses are loaded, and no jump lists them. -/
def handles (code : Code) (l : Label) : Bool :=
  let loads (i : Item Instr) : Bool := match i.value with
    | .loadLabel _ m _ => m = l
    | _ => false
  let lists (i : Item Instr) : Bool := match i.value with
    | .jumpReg _ targets => targets.contains l
    | _ => false
  code.any loads && !code.any lists

/-- Every jump through a register reaches a label that it lists or one that exceptions enter, or it
leaves the function. -/
def Confined (E : Surroundings) (code : Code) (st : MachineState) : Prop :=
  ∀ past, ¬ (code.process E code.handles).Ends (code, st) past .stray

variable {E : Surroundings} {st : MachineState} {past : List MachineEvent}

lemma confined_of_ends
    (h : (code.process E code.handles).Ends (code, st) past o) (ho : o ≠ .stray) : code.Confined E st :=
  fun _ hstray ↦ ho (h.unique hstray).2

/-- Two pieces of code behave alike from the same state, wherever jumps through registers go. -/
def Alike (E : Surroundings) (code code' : Code) (st : MachineState) : Prop :=
  (code.process E fun _ ↦ true).Alike (code'.process E fun _ ↦ true) (code, st) (code', st)

lemma act_of_not_stray {i : Instr} (h : (i.act E entry past st).2 ≠ .finish .stray) :
    i.act E entry past st = i.act E (fun _ ↦ true) past st := by
  cases i with
  | jumpReg ra targets =>
    simp only [act] at h ⊢
    cases hl : E.labelAt (st.regs ra) with
    | none => rfl
    | some l =>
      by_cases hok : (targets.contains l || entry l) = true
      · simp only [hok, Bool.or_true, if_true]
      · simp only [hl, hok] at h
        exact (h rfl).elim
  | _ => rfl

/-- What jumps may enter does not matter to a run that never enters anything else. -/
lemma alike_of_not_stray (h : ∀ past, ¬ (code.process E entry).Ends (code, st) past .stray) :
    (code.process E entry).Alike (code.process E fun _ ↦ true) (code, st) (code, st) := by
  -- The two runs are in the same state as long as the first one is where it has got to by itself.
  have hsim : Process.Simulation (code.process E entry) (code.process E fun _ ↦ true) (fun _ ↦ 0)
      (fun past a b ↦ a = b ∧ ∃ n, (code.process E entry).run (code, st) n = ⟨.running a, past⟩) := by
    constructor
    rintro past a b ⟨rfl, n, hn⟩
    have hrun : (code.process E entry).run (code, st) (n + 1) =
        ⟨(code.process E entry past a).next, (code.process E entry past a).event.toList ++ past⟩ := by
      rw [Process.run_succ, hn, Process.advance]
    have hsame : code.process E entry past a = code.process E (fun _ ↦ true) past a := by
      obtain ⟨rest, st'⟩ := a
      cases rest with
      | nil => rfl
      | cons i rest =>
        simp only [process]
        rw [act_of_not_stray]
        intro hstray
        refine h ((code.process E entry past (i :: rest, st')).event.toList ++ past) ⟨n + 1, ?_⟩
        rw [hrun]
        simp [process, hstray, follow]
    refine .inr ⟨by rw [hsame], ?_⟩
    rw [← hsame]
    cases hnext : (code.process E entry past a).next with
    | ended o => exact .ended o
    | running b => exact .running ⟨rfl, n + 1, by rw [hrun, hnext]⟩
  exact hsim.alike ⟨rfl, 0, rfl⟩

end Code

/-- Optimized code stores and calls the same, leaves the function in the same way and returns the
same. -/
theorem MachineFunction.alike_optimize (f : MachineFunction) (E : Surroundings) (st : MachineState)
    (hdeclared : f.code.Declared f.code.handles) (hconfined : f.code.Confined E st) :
    f.code.Alike E f.optimize.code st := by
  have hopt := Code.optimizeWithin_alike Code.maxRounds E hdeclared st
  have hstray : ∀ past, ¬ (f.optimize.code.process E f.code.handles).Ends (f.optimize.code, st) past .stray :=
    fun past hends ↦ hconfined past ((hopt.ends past .stray).mpr hends)
  exact ((Code.alike_of_not_stray hconfined).symm.trans hopt).trans (Code.alike_of_not_stray hstray)

namespace Code.Example

/-- The label with number one stands at address one. -/
def surroundings : Surroundings where
  label l := .ofNat 16 l.index
  labelAt w := if w = 1 then some ⟨1⟩ else none
  symbol _ := 0
  symbolic _ _ := 0
  answer _ := ⟨fun _ ↦ 0, fun _ ↦ 0, .returns⟩

def cleared : MachineState := ⟨fun _ ↦ 0, fun _ ↦ 0⟩

def function (code : List Instr) : MachineFunction where
  label := "f"
  exported := false
  loc := .builtin
  code := code.map fun i ↦ ⟨i, none⟩

/-- An exception with the value seven is caught in the function itself. The nine is never read. -/
def caught : MachineFunction := function
  [.loadLabel .r1 ⟨1⟩ false, .loadImm .r0 7, .loadImm .r2 9, .jumpReg .r1 [], .label ⟨1⟩ (.ofList [.r0]),
    .store .r0 .sp (.num 0), .ret false]

lemma eq_of_handles_caught (h : caught.code.handles l) : l = ⟨1⟩ := by
  simp [caught, function, handles] at h
  exact h.symm

lemma defines_caught {rest : Code} (h : caught.code.Defines ⟨1⟩ liveIn rest) :
    liveIn = .ofList [.r0] ∧ rest = [⟨.store .r0 .sp (.num 0), none⟩, ⟨.ret false, none⟩] := by
  obtain ⟨j, hj, hs⟩ := h
  cases hs
  cases hj
  exact ⟨rfl, rfl⟩

lemma caught_declared : caught.code.Declared caught.code.handles := by
  constructor
  case falls => simp [caught, function, Guarded, fallsThrough]
  case jumps => simp [caught, function, successors]
  case reads =>
    intro l _ _ hl hdef r hlive
    obtain ⟨rfl, rfl⟩ := defines_caught (eq_of_handles_caught hl ▸ hdef)
    cases hlive with
    | reads h => simpa [reads, or_comm] using h
    | falls hf hw h =>
      cases h with
      | reads h => exact .inr (by simpa [reads] using h)
      | falls hf hw h => cases hf
      | jumps hl hw hs h => cases hl
    | jumps hl hw hs h => cases hl
  case passes =>
    intro l _ _ hl hdef r hr
    obtain ⟨rfl, -⟩ := defines_caught (eq_of_handles_caught hl ▸ hdef)
    simpa using hr

lemma caught_confined : caught.code.Confined surroundings cleared := confined_of_ends ⟨7, rfl⟩ (by simp)

end Code.Example

open Code.Example

theorem MachineFunction.alike_optimize_caught :
    caught.code.Declared caught.code.handles ∧
      caught.code.Confined surroundings cleared ∧
      caught.optimize.code.length = 6 ∧
      caught.code.Alike surroundings caught.optimize.code
        cleared :=
  ⟨caught_declared, caught_confined, by decide +kernel,
    MachineFunction.alike_optimize _ _ _ caught_declared caught_confined⟩

/-! ## Labels that declare too much -/

/-- No displacement is left to the layout of the frame. -/
def Instr.isResolved : Instr → Bool
  | .addImm _ _ d | .load _ _ d | .store _ _ d => d.value.isSome
  | _ => true

namespace Code.Example

/-- Control passes a label that declares the register with the five. -/
def passed : MachineFunction := function
  [.loadImm .r0 5, .label ⟨1⟩ (.ofList [.r0]), .store .r0 .sp (.num 0), .ret false]

/-- An exception brings the five in a register that only its handler knows of. -/
def brought : MachineFunction := function
  [.loadLabel .r1 ⟨1⟩ false, .loadImm .r2 5, .jumpReg .r1 [], .label ⟨1⟩ (.ofList [.r2]),
    .unary .mov .r0 .r2, .ret false]

def passedCode : Code :=
  [⟨.label ⟨1⟩ (.ofList [.r0]), none⟩, ⟨.store .r0 .sp (.num 0), none⟩, ⟨.ret false, none⟩]

def broughtCode : Code :=
  [⟨.loadLabel .r1 ⟨1⟩ false, none⟩, ⟨.jumpReg .r1 [], none⟩, ⟨.label ⟨1⟩ (.ofList [.r2]), none⟩,
    ⟨.unary .mov .r0 .r2, none⟩, ⟨.ret false, none⟩]

lemma optimized : passed.optimize.code = passedCode ∧ brought.optimize.code = broughtCode := by decide +kernel

lemma passed_optimize : passed.optimize.code = passedCode := optimized.1

lemma brought_optimize : brought.optimize.code = broughtCode := optimized.2

lemma passed_readsDeclared : passed.code.ReadsDeclared passed.code.handles := by
  intro l _ _ hl
  simp [passed, function, handles] at hl

lemma brought_readsDeclared : brought.code.ReadsDeclared brought.code.handles := by
  intro l _ _ hl hdef r hlive
  have hl : (⟨1⟩ : Label) = l := by simpa [brought, function, handles] using hl
  subst hl
  obtain ⟨j, hj, hs⟩ := hdef
  cases hs
  cases hj
  cases hlive with
  | reads h => exact .inr (by simpa [reads] using h)
  | falls hf hw h =>
    cases h with
    | reads h => simp_all [reads, overwrites, writes, result]
    | falls hf hw h => cases hf
    | jumps hl hw hs h => cases hl
  | jumps hl hw hs h => cases hl

end Code.Example

/-- A label that declares a register must not be passed, and its handler must not be brought any other
register than the first one: the optimized code stores a zero, or returns one, in place of the five. -/
theorem MachineFunction.not_alike_optimize :
    (passed.code.all (·.value.isResolved) ∧
      passed.code.ReadsDeclared passed.code.handles ∧
      passed.code.Confined surroundings cleared ∧
      ¬ passed.code.Alike surroundings passed.optimize.code
        cleared) ∧
    (brought.code.all (·.value.isResolved) ∧
      brought.code.ReadsDeclared brought.code.handles ∧
      brought.code.Confined surroundings cleared ∧
      ¬ brought.code.Alike surroundings brought.optimize.code
        cleared) := by
  refine ⟨⟨rfl, passed_readsDeclared, Code.confined_of_ends ⟨4, rfl⟩ (by simp), fun h ↦ ?_⟩,
    rfl, brought_readsDeclared, Code.confined_of_ends ⟨6, rfl⟩ (by simp), fun h ↦ ?_⟩
  · rw [passed_optimize] at h
    have hstores : ([.stored 0 5] : List MachineEvent) = [.stored 0 0] := (h.ends_eq ⟨4, rfl⟩ ⟨3, rfl⟩).1
    simp at hstores
  · rw [brought_optimize] at h
    have hreturns : MachineOutcome.returned 0 5 none cleared.mem =
        .returned 0 0 none cleared.mem := (h.ends_eq ⟨6, rfl⟩ ⟨5, rfl⟩).2
    simp at hreturns

end W16Compiler
