import Mathlib.Logic.Function.Iterate

/-!
# Observed runs

A process takes one step after another until it ends. A step may be observed; what has been observed
so far is all that the surroundings know, and the process may ask for it, so that an answer from
outside is a function of the observations. Two processes behave alike if they are observed to do the
same and end in the same way. A relation that every step of the first process keeps, with a step of
the second one or with none and a smaller rank, proves that they do.
-/

namespace W16Compiler

/-- A run goes on in a state, or it has ended. -/
inductive Status (σ ο : Type) where
  | running (s : σ)
  | ended (o : ο)

structure StepResult (σ ε ο : Type) where
  event : Option ε
  next : Status σ ο

/-- The steps of a process; the first argument holds what has been observed, the latest first. -/
abbrev Process (σ ε ο : Type) := List ε → σ → StepResult σ ε ο

/-- Where a run stands, with its events, the latest first. -/
structure Configuration (σ ε ο : Type) where
  status : Status σ ο
  past : List ε

namespace Process

variable {σ τ υ ε ο : Type}

def advance (P : Process σ ε ο) (c : Configuration σ ε ο) : Configuration σ ε ο :=
  match c.status with
  | .running s =>
    let r := P c.past s
    ⟨r.next, r.event.toList ++ c.past⟩
  | .ended _ => c

/-- A run of so many steps. -/
def run (P : Process σ ε ο) (s : σ) (n : Nat) : Configuration σ ε ο :=
  P.advance^[n] ⟨.running s, []⟩

def Emits (P : Process σ ε ο) (s : σ) (past : List ε) : Prop := ∃ n, (P.run s n).past = past

/-- The run ends with these events and this outcome. -/
def Ends (P : Process σ ε ο) (s : σ) (past : List ε) (o : ο) : Prop :=
  ∃ n, P.run s n = ⟨.ended o, past⟩

lemma run_succ (P : Process σ ε ο) (s : σ) (n : Nat) : P.run s (n + 1) = P.advance (P.run s n) :=
  Function.iterate_succ_apply' _ _ _

variable {s : σ} {o o' : ο} {past past' : List ε} {t : τ} {c : Configuration σ ε ο} {d : Configuration τ ε ο}
  {P : Process σ ε ο}

lemma run_add_of_ended (h : P.run s n = ⟨.ended o, past⟩) (m : Nat) : P.run s (n + m) = ⟨.ended o, past⟩ := by
  induction m with
  | zero => exact h
  | succ m ih => rw [← Nat.add_assoc, run_succ, ih, advance]

lemma Ends.unique (h : P.Ends s past o) (h' : P.Ends s past' o') : past = past' ∧ o = o' := by
  obtain ⟨n, hn⟩ := h
  obtain ⟨m, hm⟩ := h'
  have hboth : (⟨.ended o, past⟩ : Configuration σ ε ο) = ⟨.ended o', past'⟩ := by
    rw [← run_add_of_ended hn m, ← run_add_of_ended hm n, Nat.add_comm]
  cases hboth
  exact ⟨rfl, rfl⟩

/-- The same observations in the same order, and the same end, if there is one. -/
structure Alike (P : Process σ ε ο) (Q : Process τ ε ο) (s : σ) (t : τ) : Prop where
  emits : ∀ past, P.Emits s past ↔ Q.Emits t past
  ends : ∀ past o, P.Ends s past o ↔ Q.Ends t past o

lemma Alike.refl (P : Process σ ε ο) (s : σ) : P.Alike P s s := ⟨fun _ ↦ Iff.rfl, fun _ _ ↦ Iff.rfl⟩

lemma Alike.trans {Q : Process τ ε ο} {R : Process υ ε ο} (h : P.Alike Q s t) (h' : Q.Alike R t u) : P.Alike R s u :=
  ⟨fun past ↦ (h.emits past).trans (h'.emits past), fun past o ↦ (h.ends past o).trans (h'.ends past o)⟩

lemma Alike.symm {Q : Process τ ε ο} (h : P.Alike Q s t) : Q.Alike P t s :=
  ⟨fun past ↦ (h.emits past).symm, fun past o ↦ (h.ends past o).symm⟩

lemma Alike.ends_eq {Q : Process τ ε ο} (h : P.Alike Q s t) (hP : P.Ends s past o) (hQ : Q.Ends t past' o') :
    past = past' ∧ o = o' :=
  ((h.ends past o).mp hP).unique hQ

/-! ## Simulation -/

/-- Two points of runs correspond: both go on in related states, or both have ended alike. -/
inductive Matches (R : σ → τ → Prop) : Status σ ο → Status τ ο → Prop where
  | running {s : σ} {t : τ} (h : R s t) : Matches R (.running s) (.running t)
  | ended (o : ο) : Matches R (.ended o) (.ended o)

lemma Matches.mono {R R' : σ → τ → Prop} (hR : ∀ s t, R s t → R' s t) (h : Matches R x y) : Matches R' x y := by
  cases h with
  | running h => exact .running (hR _ _ h)
  | ended o => exact .ended o

/-- Every step of `P` from a related state is one of `Q` as well, or else cannot be seen and lowers
the rank. -/
structure Simulation (P : Process σ ε ο) (Q : Process τ ε ο) (rank : σ → Nat)
    (R : List ε → σ → τ → Prop) : Prop where
  step : ∀ past s t, R past s t →
    (∃ s', P past s = ⟨none, .running s'⟩ ∧ R past s' t ∧ rank s' < rank s) ∨
    ((P past s).event = (Q past t).event ∧
      Matches (R ((P past s).event.toList ++ past)) (P past s).next (Q past t).next)

variable {P : Process σ ε ο} {Q : Process τ ε ο} {rank : σ → Nat} {R : List ε → σ → τ → Prop}

def Related (R : List ε → σ → τ → Prop) (c : Configuration σ ε ο) (d : Configuration τ ε ο) : Prop :=
  c.past = d.past ∧ Matches (R c.past) c.status d.status

variable (h : Simulation P Q rank R)

include h

lemma Simulation.follow (hr : Related R c d) : Related R (P.advance c) d ∨ Related R (P.advance c) (Q.advance d) := by
  obtain ⟨_, _⟩ := c
  obtain ⟨_, _⟩ := d
  obtain ⟨rfl, hm⟩ := hr
  cases hm with
  | ended o => exact .inl ⟨rfl, .ended o⟩
  | running hst =>
    rcases h.step _ _ _ hst with ⟨_, hs, hr', -⟩ | ⟨he, hn⟩
    · exact .inl ⟨by simp [advance, hs], by simpa [advance, hs] using Matches.running hr'⟩
    · exact .inr ⟨by simp [advance, he], by simpa [advance] using hn⟩

/-- The first process gets to a point that corresponds to the next step of the second one. -/
lemma Simulation.catchUp (hr : Related R c d) : ∃ n, Related R (P.advance^[n] c) (Q.advance d) := by
  obtain ⟨_, _⟩ := c
  obtain ⟨_, _⟩ := d
  obtain ⟨rfl, hm⟩ := hr
  cases hm with
  | ended o => exact ⟨0, rfl, .ended o⟩
  | @running s _ hst =>
    -- The rank bounds how often the second process waits.
    induction hk : rank s using Nat.strongRecOn generalizing s with
    | ind k ih =>
      rcases h.step _ _ _ hst with ⟨s', hs, hr', hlt⟩ | ⟨he, hn⟩
      · obtain ⟨n, hn⟩ := ih (rank s') (hk ▸ hlt) hr' rfl
        refine ⟨n + 1, ?_⟩
        rw [Function.iterate_succ_apply]
        simpa [advance, hs] using hn
      · exact ⟨1, by simp [advance, he], by simpa [advance] using hn⟩

lemma Simulation.forward (h0 : R [] s t) (n : Nat) : ∃ m, Related R (P.run s n) (Q.run t m) := by
  induction n with
  | zero => exact ⟨0, rfl, .running h0⟩
  | succ n ih =>
    obtain ⟨m, hm⟩ := ih
    rw [run_succ]
    rcases h.follow hm with h' | h'
    · exact ⟨m, h'⟩
    · exact ⟨m + 1, by rwa [run_succ]⟩

lemma Simulation.backward (h0 : R [] s t) (m : Nat) : ∃ n, Related R (P.run s n) (Q.run t m) := by
  induction m with
  | zero => exact ⟨0, rfl, .running h0⟩
  | succ m ih =>
    obtain ⟨n, hn⟩ := ih
    obtain ⟨k, hk⟩ := h.catchUp hn
    refine ⟨k + n, ?_⟩
    rw [run_succ]
    simpa only [run, Function.iterate_add_apply] using hk

omit h in
lemma Related.ended_iff (h : Related R c d) (past : List ε) (o : ο) :
    c = ⟨.ended o, past⟩ ↔ d = ⟨.ended o, past⟩ := by
  obtain ⟨_, _⟩ := c
  obtain ⟨_, _⟩ := d
  obtain ⟨rfl, hm⟩ := h
  cases hm <;> simp

lemma Simulation.alike (h0 : R [] s t) : P.Alike Q s t where
  emits past := by
    constructor
    · rintro ⟨n, rfl⟩
      obtain ⟨m, hm⟩ := h.forward h0 n
      exact ⟨m, hm.1.symm⟩
    · rintro ⟨m, rfl⟩
      obtain ⟨n, hn⟩ := h.backward h0 m
      exact ⟨n, hn.1⟩
  ends past o := by
    constructor
    · rintro ⟨n, hn⟩
      obtain ⟨m, hm⟩ := h.forward h0 n
      exact ⟨m, (hm.ended_iff past o).mp hn⟩
    · rintro ⟨m, hm⟩
      obtain ⟨n, hn⟩ := h.backward h0 m
      exact ⟨n, (hn.ended_iff past o).mpr hm⟩

end Process

end W16Compiler
