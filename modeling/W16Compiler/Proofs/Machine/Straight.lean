import W16Compiler.Proofs.Faults
import W16Compiler.Proofs.Machine.Meaning

/-!
# Runs of straight code

Instructions that stand one behind the other run until the last one is through or control goes
elsewhere. What such a piece of code does is put together from what its parts do, and any machine code
that contains it does the same there.
-/

namespace W16Compiler

open List Function

/-- The configuration is on the way of another one. -/
def Process.Reaches {σ ε ο : Type} (P : Process σ ε ο) (c d : Configuration σ ε ο) : Prop :=
  ∃ n, P.advance^[n] c = d

lemma Process.Reaches.trans {σ ε ο : Type} {P : Process σ ε ο} {a b c : Configuration σ ε ο}
    (h : P.Reaches a b) (h' : P.Reaches b c) : P.Reaches a c := by
  obtain ⟨m, rfl⟩ := h
  obtain ⟨n, rfl⟩ := h'
  exact ⟨n + m, iterate_add_apply P.advance n m a⟩

namespace MachineState

def put (ms : MachineState) (a v : Word) : MachineState := { ms with mem := Function.update ms.mem a v }

@[simp] lemma put_regs (ms : MachineState) (a v : Word) : (ms.put a v).regs = ms.regs := rfl

@[simp] lemma put_sp (ms : MachineState) (a v : Word) : (ms.put a v).sp = ms.sp := rfl

@[simp] lemma put_mem (ms : MachineState) (a v : Word) : (ms.put a v).mem = update ms.mem a v := rfl

end MachineState

/-- Runs instructions one after another as long as control goes on to the next one. -/
def perform (E : Surroundings) (past : List MachineEvent) (ms : MachineState) :
    List Instr → List MachineEvent × MachineMove
  | [] => (past, .next ms)
  | i :: rest =>
    match i.act E (fun _ ↦ true) past ms with
    | (event, .next ms') => perform E (event.toList ++ past) ms' rest
    | (event, move) => (event.toList ++ past, move)

variable {E : Surroundings} {past past' : List MachineEvent} {ms ms' : MachineState} {i : Instr}
  {code rest : List Instr}

@[simp] lemma perform_nil : perform E past ms [] = (past, .next ms) := rfl

lemma perform_cons_next (h : i.act E (fun _ ↦ true) past ms = (event, .next ms')) :
    perform E past ms (i :: rest) = perform E (event.toList ++ past) ms' rest := by
  rw [perform, h]

lemma perform_singleton (i : Instr) : perform E past ms [i] =
      ((i.act E (fun _ ↦ true) past ms).1.toList ++ past, (i.act E (fun _ ↦ true) past ms).2) := by
  rw [perform]
  split
  · rename_i event ms' h
    rw [h]
    rfl
  · rename_i event move h hact
    rw [hact]

variable {rd : Reg} {goal : MachineMove → Prop}

lemma perform_cons_result (h : i.result = some rd) :
    perform E past ms (i :: rest) = perform E past (ms.set rd (i.value E ms)) rest :=
  perform_cons_next (Instr.act_of_result h E _ past ms)

lemma perform_append (h : perform E past ms code = (past', .next ms')) :
    perform E past ms (code ++ rest) = perform E past' ms' rest := by
  induction code generalizing past ms with
  | nil =>
    cases h
    rfl
  | cons i code ih =>
    rw [cons_append, perform]
    rw [perform] at h
    split at h
    · exact ih h
    · rename_i event move hnot hact
      cases h
      exact (hnot ms' rfl).elim

/-- The code runs to its end, into a state with a property. -/
def Runs (E : Surroundings) (past : List MachineEvent) (ms : MachineState) (code : List Instr)
    (post : MachineState → Prop) : Prop :=
  ∃ past' ms', perform E past ms code = (past', .next ms') ∧ post ms'

variable {post post' : MachineState → Prop} {d : Disp}

lemma Runs.nil (h : post ms) : Runs E past ms [] post := ⟨past, ms, rfl, h⟩

lemma Runs.of_perform (h : perform E past ms code = (past', .next ms')) (hpost : post ms') :
    Runs E past ms code post :=
  ⟨past', ms', h, hpost⟩

lemma Runs.mono (h : Runs E past ms code post) (hpost : ∀ ms', post ms' → post' ms') : Runs E past ms code post' := by
  obtain ⟨past1, ms1, hrun, hp⟩ := h
  exact ⟨past1, ms1, hrun, hpost ms1 hp⟩

lemma Runs.append_of_perform (h : perform E past ms code = (past', .next ms'))
    (hrest : Runs E past' ms' rest post) : Runs E past ms (code ++ rest) post := by
  obtain ⟨past2, ms2, hrun, hpost⟩ := hrest
  exact ⟨past2, ms2, by rw [perform_append h, hrun], hpost⟩

lemma Runs.append (h : Runs E past ms code post) (hrest : ∀ past' ms', post ms' → Runs E past' ms' rest post') :
    Runs E past ms (code ++ rest) post' := by
  obtain ⟨past1, ms1, hrun, hpost⟩ := h
  exact .append_of_perform hrun (hrest past1 ms1 hpost)

lemma Runs.cons_result (h : i.result = some rd) (hrest : Runs E past (ms.set rd (i.value E ms)) rest post) :
    Runs E past ms (i :: rest) post := by
  obtain ⟨past1, ms1, hrun, hpost⟩ := hrest
  exact ⟨past1, ms1, by rw [perform_cons_result h, hrun], hpost⟩

lemma Runs.cons_store (hrest : Runs E (.stored (ms.address E base d) (ms.regs rs) :: past)
      (ms.put (ms.address E base d) (ms.regs rs)) rest post) : Runs E past ms (.store rs base d :: rest) post := by
  obtain ⟨past1, ms1, hrun, hpost⟩ := hrest
  exact ⟨past1, ms1, by rw [perform_cons_next rfl]; exact hrun, hpost⟩

def Leads (E : Surroundings) (past : List MachineEvent) (ms : MachineState) (code : List Instr)
    (goal : MachineMove → Prop) : Prop :=
  goal (perform E past ms code).2

lemma Leads.append_of_perform (h : perform E past ms code = (past', .next ms')) (hrest : Leads E past' ms' rest goal)
    : Leads E past ms (code ++ rest) goal := by
  rw [Leads, perform_append h]
  exact hrest

lemma Leads.cons_result (h : i.result = some rd) (hrest : Leads E past (ms.set rd (i.value E ms)) rest goal) :
    Leads E past ms (i :: rest) goal := by
  rw [Leads, perform_cons_result h]
  exact hrest

lemma Leads.cons_store
    (hrest : Leads E (.stored (ms.address E base d) (ms.regs rs) :: past) (ms.put (ms.address E base d)
      (ms.regs rs)) rest goal) : Leads E past ms (.store rs base d :: rest) goal := by
  rw [Leads, perform_cons_next rfl]
  exact hrest

lemma Leads.singleton (h : goal (i.act E (fun _ ↦ true) past ms).2) : Leads E past ms [i] goal := by
  rw [Leads, perform_singleton]
  exact h

lemma Runs.leads (h : Runs E past ms code post) (hrest : ∀ past' ms', post ms' → Leads E past' ms' rest goal) :
    Leads E past ms (code ++ rest) goal := by
  obtain ⟨past1, ms1, hrun, hpost⟩ := h
  exact .append_of_perform hrun (hrest past1 ms1 hpost)

lemma Runs.leads_next (h : Runs E past ms code post) (hgoal : ∀ ms', post ms' → goal (.next ms')) :
    Leads E past ms code goal := by
  obtain ⟨_, ms1, hrun, hpost⟩ := h
  rw [Leads, hrun]
  exact hgoal ms1 hpost

/-- Pieces of code that run one after another keep an invariant that counts them. -/
lemma Runs.flatten_range {ε : Type} {f : Nat → Except ε (List Instr)}
    {pieces : List (List Instr)} (h : (range n).mapM f = .ok pieces)
    (inv : Nat → MachineState → Prop) (hstart : inv 0 ms)
    (hstep : ∀ k, k < n → ∀ code, f k = .ok code → ∀ past ms, inv k ms →
      Runs E past ms code (inv (k + 1))) : Runs E past ms pieces.flatten (inv n) := by
  -- The counter runs from `from_` on, so that the induction can be on what is left.
  suffices hall : ∀ m from_ pieces past ms, from_ + m = n → (range' from_ m).mapM f = .ok pieces → inv from_ ms →
        Runs E past ms pieces.flatten (inv n) by
    rw [range_eq_range'] at h
    exact hall n 0 pieces past ms (Nat.zero_add n) h hstart
  intro m
  induction m with
  | zero =>
    intro from_ _ past ms hn hpieces hinv
    cases hpieces
    rw [← hn]
    exact .nil hinv
  | succ m ih =>
    intro from_ _ past ms hn hpieces hinv
    rw [range'_succ, mapM_cons_eq_ok] at hpieces
    obtain ⟨code, codes, hcode, hcodes, rfl⟩ := hpieces
    rw [flatten_cons]
    refine (hstep from_ (by omega) code hcode past ms hinv).append fun past' ms' hinv' ↦ ?_
    exact ih (from_ + 1) codes past' ms' (by omega) hcodes hinv'

lemma Code.process_reaches_perform (whole items rest : Code)
    (h : perform E past ms (items.map (·.value)) = (past', m)) :
    (whole.process E fun _ ↦ true).Reaches ⟨.running (items ++ rest, ms), past⟩ ⟨whole.follow rest m, past'⟩ := by
  induction items generalizing past ms with
  | nil =>
    cases h
    exact ⟨0, rfl⟩
  | cons i items ih =>
    have hstep : (whole.process E fun _ ↦ true).advance ⟨.running ((i :: items) ++ rest, ms), past⟩ =
        ⟨whole.follow (items ++ rest) (i.value.act E (fun _ ↦ true) past ms).2,
          (i.value.act E (fun _ ↦ true) past ms).1.toList ++ past⟩ := rfl
    rw [map_cons, perform] at h
    split at h
    · rename_i event ms1 hact
      obtain ⟨n, hn⟩ := ih h
      refine ⟨n + 1, ?_⟩
      rw [iterate_succ_apply, hstep, hact]
      exact hn
    · rename_i event move hnot hact
      cases h
      refine ⟨1, ?_⟩
      rw [iterate_one, hstep, hact]
      cases m with
      | next ms1 => exact (hnot ms1 rfl).elim
      | goto l ms1 => rfl
      | finish o => rfl

end W16Compiler
