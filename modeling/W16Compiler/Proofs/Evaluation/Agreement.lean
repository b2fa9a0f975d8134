import W16Compiler.Proofs.Evaluation.Reference
import W16Compiler.Proofs.Machine.Straight
import W16Compiler.Proofs.Prim.Rewriting
import W16Compiler.Proofs.Lowering.Logic

/-!
# Code that follows an evaluation

What a piece of code does from its start until control gets behind it or leaves it. Control that goes to a
label goes on where the piece defines the label further down, or else leaves. Two pieces do what the first
one does and then the second. A flow list that contains the piece does the same there.

While an expression is lowered, nodes are appended and slots are made. The nodes are run in a memory that agrees
with that of the evaluation but for temporaries, and temporaries that were made before are left alone. An
operand that code hands on stands for a value as long as its sources and the temporaries made so far stay
the same.
-/

namespace W16Compiler

open Lowering List Flow

variable {V : Type} {W : World V} {past : List (CallEvent V)} {st st' : PrimState V} {l : Label} {rest code : Flow}
  {loc : Option Location}

namespace Flow

variable {past' : List (CallEvent V)}

/-- Runs the nodes of a piece, from the definition of a label on if one is sought. The move is the last one:
behind the piece, to a label that was not found, or out of the evaluation. -/
def exec (W : World V) : Flow → Option Label → List (CallEvent V) → PrimState V → List (CallEvent V) × Move V
  | [], none, past, st => (past, .next st)
  | [], some l, past, st => (past, .goto l st)
  | p :: rest, sought, past, st =>
    if sought.all (p.value.definedLabel = some ·) then
      match p.value.act W past st with
      | (event, .next st') => exec W rest none (event.toList ++ past) st'
      | (event, .goto l st') => exec W rest (some l) (event.toList ++ past) st'
      | (event, move) => (event.toList ++ past, move)
    else exec W rest sought past st

attribute [local simp] exec

lemma exec_cons (p : Item Prim) (rest : Flow) (past : List (CallEvent V)) (st : PrimState V) :
    exec W (p :: rest) none past st = match p.value.act W past st with
      | (event, .next st') => exec W rest none (event.toList ++ past) st'
      | (event, .goto l st') => exec W rest (some l) (event.toList ++ past) st'
      | (event, move) => (event.toList ++ past, move) := by
  simp

variable {sought : Option Label} {p : Item Prim}

lemma exec_sought (h : p.value.definedLabel = some l) :
    exec W (p :: rest) (some l) past st = exec W (p :: rest) none past st := by
  rw [exec_cons, exec, Option.all_some, if_pos (decide_eq_true h)]

lemma exec_passed (h : p.value.definedLabel ≠ some l) :
    exec W (p :: rest) (some l) past st = exec W rest (some l) past st := by
  rw [exec, Option.all_some, if_neg (by simpa using h)]

/-- Goes on with the next piece, from its start or in search of a label. -/
def carryOn (W : World V) (rest : Flow) : List (CallEvent V) × Move V → List (CallEvent V) × Move V
  | (past, .next st) => exec W rest none past st
  | (past, .goto l st) => exec W rest (some l) past st
  | out => out

lemma exec_append (code rest : Flow) (sought : Option Label) (past : List (CallEvent V)) (st : PrimState V) :
    exec W (code ++ rest) sought past st = carryOn W rest (exec W code sought past st) := by
  induction code generalizing sought past st with
  | nil => cases sought <;> rfl
  | cons p code ih =>
    rw [cons_append, exec, exec]
    split
    · cases hact : p.value.act W past st with
      | mk event move => cases move <;> simp [ih, carryOn]
    · exact ih _ _ _

lemma exec_append_next (h : exec W code sought past st = (past', .next st')) :
    exec W (code ++ rest) sought past st = exec W rest none past' st' := by
  rw [exec_append, h, carryOn]

lemma exec_append_goto (h : exec W code sought past st = (past', .goto l st')) :
    exec W (code ++ rest) sought past st = exec W rest (some l) past' st' := by
  rw [exec_append, h, carryOn]

lemma exec_skip (h : l ∉ code.labels) : exec W code (some l) past st = (past, .goto l st) := by
  induction code with
  | nil => rfl
  | cons p code ih =>
    have hp : p.value.definedLabel ≠ some l := by
      intro hp
      exact h (mem_filterMap.mpr ⟨p, mem_cons_self, hp⟩)
    have hrest : l ∉ labels code := by
      intro hl
      obtain ⟨q, hq, hdef⟩ := mem_filterMap.mp hl
      exact h (mem_filterMap.mpr ⟨q, mem_cons_of_mem _ hq, hdef⟩)
    rw [exec_passed hp]
    exact ih hrest

lemma not_mem_labels_append (h : l ∉ code.labels) (h' : l ∉ rest.labels) : l ∉ labels (code ++ rest) := by
  rw [labels, filterMap_append, mem_append]
  exact not_or.mpr ⟨h, h'⟩

lemma exec_found (loc : Option Location) : exec W [⟨.label l, loc⟩] (some l) past st = (past, .next st) := by
  rw [exec_sought rfl]
  rfl

lemma exec_single {p : Prim} (h : p.act W past st = (none, .next st')) :
    exec W [⟨p, loc⟩] none past st = (past, .next st') := by
  simp only [exec_cons, h]
  rfl

lemma exec_jump {p : Prim} (h : p.act W past st = (none, .goto l st')) :
    exec W [⟨p, loc⟩] none past st = (past, .goto l st') := by
  simp only [exec_cons, h]
  rfl

lemma carryOn_skip (h : l ∉ code.labels) (loc : Option Location) :
    carryOn W (code ++ [⟨.label l, loc⟩]) (past, .goto l st) = (past, .next st) := by
  rw [carryOn, exec_append_goto (exec_skip h)]
  exact exec_found loc

/-! ## Pieces in their place -/

/-- Where a flow list goes on when one of its pieces is done. -/
def arrival (W : World V) (whole rest : Flow) (out : List (CallEvent V) × Move V) :
    Configuration (Flow × PrimState V) (CallEvent V) (PrimOutcome V) :=
  ⟨whole.follow W.toModel rest out.2, out.1⟩

lemma process_cons (whole : Flow) (p : Item Prim) (rest : Flow) (past : List (CallEvent V)) (st : PrimState V) :
    (process W whole).advance ⟨.running (p :: rest, st), past⟩ =
      arrival W whole rest ((p.value.act W past st).1.toList ++ past, (p.value.act W past st).2) := rfl

lemma reaches_refl {σ ε ο : Type} (P : Process σ ε ο) (c : Configuration σ ε ο) : P.Reaches c c := ⟨0, rfl⟩

lemma reaches_one {σ ε ο : Type} {P : Process σ ε ο} {c d : Configuration σ ε ο} (h : P.advance c = d) :
    P.Reaches c d := ⟨1, h⟩

lemma reaches_exec (hwhole : whole = front ++ (code ++ rest)) (hn : (labels whole).Nodup)
    (past : List (CallEvent V)) (st : PrimState V) : (process W whole).Reaches ⟨.running (code ++ rest, st), past⟩
      (arrival W whole rest (exec W code none past st)) := by
  -- Control may come from above to a label of the piece, hence both ways to enter it.
  suffices h : ∀ code front : Flow, whole = front ++ (code ++ rest) → ∀ past st,
      (process W whole).Reaches ⟨.running (code ++ rest, st), past⟩ (arrival W whole rest (exec W code none past st)) ∧
      ∀ l, (process W whole).Reaches (arrival W whole rest (past, .goto l st))
        (arrival W whole rest (exec W code (some l) past st)) from (h code front hwhole past st).1
  intro code
  induction code with
  | nil =>
    intro front _ past st
    exact ⟨reaches_refl _ _, fun l ↦ reaches_refl _ _⟩
  | cons p code ih =>
    intro front hwhole past st
    have hrest : whole = (front ++ [p]) ++ (code ++ rest) := by
      rw [hwhole]
      simp
    have hact : (process W whole).Reaches ⟨.running (p :: (code ++ rest), st), past⟩
        (arrival W whole rest (exec W (p :: code) none past st)) := by
      have hstep := reaches_one (process_cons (W := W) whole p (code ++ rest) past st)
      rw [exec_cons]
      cases hmove : p.value.act W past st with
      | mk event move =>
        rw [hmove] at hstep
        cases move with
        | next st' => exact hstep.trans (ih _ hrest _ st').1
        | goto l st' => exact hstep.trans ((ih _ hrest _ st').2 l)
        | handle l v st' => exact hstep
        | finish o => exact hstep
    refine ⟨hact, fun l ↦ ?_⟩
    by_cases hdef : p.value.definedLabel = some l
    · have hseek : whole.seek l = some (p :: (code ++ rest)) := seekLabel_of_suffix hn hdef ⟨front, hwhole.symm⟩
      have harrive : arrival W whole rest (past, .goto l st) = ⟨.running (p :: (code ++ rest), st), past⟩ := by
        simp [arrival, follow, hseek]
      rw [harrive, exec_sought hdef]
      exact hact
    · rw [exec_passed hdef]
      exact (ih _ hrest past st).2 l

end Flow

variable {α β : Type} {result : EStateM.Result V (Store V) α} {a : α} {t : SlotId} {p : Prim} {g : α → β} {dst : Place}
  {i n m : Nat} {I : Interpretation V}

/-! ## States of lowering -/

namespace Lowering

def State.withTemp (s : State) (rep : Rep) : State := { s with slots := s.slots.push (.sized rep.words true) }

def State.withLabel (s : State) : State := { s with nextLabel := s.nextLabel + 1 }

/-- A step appends nodes, whose labels are new from a number on, and makes slots. -/
structure Appends (lo : Nat) (s s' : State) (code : Flow) : Prop where
  prims : s'.prims.toList = s.prims.toList ++ code
  labels : ∀ l ∈ code.labels, lo ≤ l.index ∧ l.index < s'.nextLabel
  nextLabel : s.nextLabel ≤ s'.nextLabel
  slots : ∃ more, s'.slots.toList = s.slots.toList ++ more
  locals : ∀ decl slot, s.locals.lookup decl = some slot → s'.locals.lookup decl = some slot

namespace Appends

variable {lo lo' : Nat} {s s1 s2 : State} {code' : Flow}

lemma refl (lo : Nat) (s : State) : Appends lo s s [] where
  prims := (append_nil _).symm
  labels _ hl := by cases hl
  nextLabel := le_rfl
  slots := ⟨[], (append_nil _).symm⟩
  locals _ _ h := h

variable (h : Appends lo s s1 code)

include h

lemma trans (h' : Appends lo s1 s2 code') : Appends lo s s2 (code ++ code') where
  prims := by rw [h'.prims, h.prims, append_assoc]
  labels l hl := by
    rw [Flow.labels, List.filterMap_append, List.mem_append] at hl
    rcases hl with hl | hl
    · exact ⟨(h.labels l hl).1, lt_of_lt_of_le (h.labels l hl).2 h'.nextLabel⟩
    · exact h'.labels l hl
  nextLabel := le_trans h.nextLabel h'.nextLabel
  slots := by
    obtain ⟨more, hm⟩ := h.slots
    obtain ⟨more', hm'⟩ := h'.slots
    exact ⟨more ++ more', by rw [hm', hm, append_assoc]⟩
  locals decl slot hl := h'.locals decl slot (h.locals decl slot hl)

lemma mono (hlo : lo' ≤ lo) : Appends lo' s s1 code :=
  { h with labels := fun l hl ↦ ⟨le_trans hlo (h.labels l hl).1, (h.labels l hl).2⟩ }

lemma size : s.slots.size ≤ s1.slots.size := by
  obtain ⟨_, hm⟩ := h.slots
  have := congrArg length hm
  simp only [Array.length_toList, length_append] at this
  omega

lemma not_mem_labels {l : Label} (hl : l.index < lo) : l ∉ code.labels :=
  fun hmem ↦ absurd (h.labels l hmem).1 (Nat.not_le_of_lt hl)

omit h

lemma withTemp (lo : Nat) (s : State) (rep : Rep) : Appends lo s (s.withTemp rep) [] :=
  { refl lo s with slots := ⟨[.sized rep.words true], Array.toList_push⟩ }

lemma withLabel (lo : Nat) (s : State) : Appends lo s s.withLabel [] where
  prims := (append_nil _).symm
  labels _ hl := by cases hl
  nextLabel := Nat.le_succ _
  slots := ⟨[], (append_nil _).symm⟩
  locals _ _ h := h

end Appends

/-- What is known of a step: it succeeds, and the nodes that it appends with what it gives and the state behind
it. -/
def Makes (C : Context) (lo : Nat) (s : State) (x : LowerM α) (Q : α → State → Flow → Prop) : Prop :=
  ∃ a s', x C s = .ok (a, s') ∧ ∃ code, Appends lo s s' code ∧ Q a s' code

namespace Makes

variable {C : Context} {lo lo' : Nat} {s s1 : State} {x : LowerM α} {f : α → LowerM β}
  {Q Q' : α → State → Flow → Prop} {R : β → State → Flow → Prop}

lemma pure (h : Q a s []) : Makes C lo s (pure a) Q := ⟨a, s, rfl, [], .refl lo s, h⟩

lemma bindFrom (hx : Makes C lo' s x Q) (hlo : lo ≤ lo') (hf : ∀ a s1 code, Appends lo' s s1 code →
      Q a s1 code → Makes C lo s1 (f a) fun b s2 code' ↦ R b s2 (code ++ code')) : Makes C lo s (x >>= f) R := by
  obtain ⟨a, s1, hx1, code, happ, hQ⟩ := hx
  obtain ⟨b, s2, hf1, code', happ', hR⟩ := hf a s1 code happ hQ
  have hrun : (x C >>= fun a ↦ f a C) s = .ok (b, s2) := bindState_eq_ok.mpr ⟨a, s1, hx1, hf1⟩
  exact ⟨b, s2, hrun, code ++ code', (happ.mono hlo).trans happ', hR⟩

lemma bind (hx : Makes C lo s x Q) (hf : ∀ a s1 code, Appends lo s s1 code → Q a s1 code →
      Makes C lo s1 (f a) fun b s2 code' ↦ R b s2 (code ++ code')) : Makes C lo s (x >>= f) R :=
  hx.bindFrom le_rfl hf

lemma after (hx : x C s = .ok (a, s1)) (happ : Appends lo s s1 []) (hf : Makes C lo s1 (f a) R) :
    Makes C lo s (x >>= f) R := by
  obtain ⟨b, s2, hf1, code, happ', hR⟩ := hf
  have hrun : (x C >>= fun a ↦ f a C) s = .ok (b, s2) := bindState_eq_ok.mpr ⟨a, s1, hx, hf1⟩
  exact ⟨b, s2, hrun, code, happ.trans happ', hR⟩

lemma mono (hx : Makes C lo s x Q) (hlo : lo' ≤ lo)
    (h : ∀ a s' code, Appends lo s s' code → Q a s' code → Q' a s' code) : Makes C lo' s x Q' := by
  obtain ⟨a, s', hrun, code, happ, hQ⟩ := hx
  exact ⟨a, s', hrun, code, happ.mono hlo, h a s' code happ hQ⟩

lemma map (hx : Makes C lo s x fun a s' code ↦ R (g a) s' code) : Makes C lo s (g <$> x) R := by
  rw [map_eq_pure_bind]
  refine hx.bind fun a s1 _ _ hR ↦ .pure ?_
  rwa [append_nil]

lemma ite (hx : b = true → Makes C lo s x Q) (hy : b = false → Makes C lo s y Q) :
    Makes C lo s (if b then x else y) Q := by
  cases b with
  | true => exact hx rfl
  | false => exact hy rfl

lemma repOf {type : TypeId} {f : Rep → LowerM β} (hf : Makes C lo s (f (.ofType C.types type)) R) :
    Makes C lo s (repOf type >>= f) R :=
  .after rfl (.refl lo s) hf

lemma newTemp {rep : Rep} {f : Place → LowerM β} (hf : Makes C lo (s.withTemp rep) (f (.slot ⟨s.slots.size⟩ 0)) R) :
    Makes C lo s (newTemp rep >>= f) R :=
  .after rfl (.withTemp lo s rep) hf

lemma newLabel {f : Label → LowerM β} (hf : Makes C lo s.withLabel (f ⟨s.nextLabel⟩) R) :
    Makes C lo s (newLabel >>= f) R :=
  .after rfl (.withLabel lo s) hf

lemma emit {Q : Unit → State → Flow → Prop} (hlo : lo ≤ s.nextLabel) (hp : p.definedLabel = none)
    (h : ∀ s' code, Appends lo s s' code → (s.reachable = true → code = [⟨p, some s.loc⟩]) →
      s'.reachable = p.fallsThrough → s'.slots = s.slots → Q () s' code) : Makes C lo s (emit p) Q := by
  refine ⟨(), s.emitted p, emit_apply p C s, ?_⟩
  have hreach : (s.emitted p).reachable = p.fallsThrough := by
    simp only [State.emitted]
    split <;> simp [hp]
  have hslots : (s.emitted p).slots = s.slots := by
    simp only [State.emitted]
    split <;> rfl
  by_cases hr : s.reachable = true
  · have happ : Appends lo s (s.emitted p) [⟨p, some s.loc⟩] := by
      refine ⟨?_, ?_, ?_, ?_, ?_⟩ <;> simp [State.emitted, hr, hp, labels]
    exact ⟨_, happ, h _ _ happ (fun _ ↦ rfl) hreach hslots⟩
  · have hlabel : (Prim.label ⟨s.nextLabel⟩).definedLabel = some ⟨s.nextLabel⟩ := rfl
    have happ : Appends lo s (s.emitted p) [⟨.label ⟨s.nextLabel⟩, some s.loc⟩, ⟨p, some s.loc⟩] := by
      refine ⟨?_, ?_, ?_, ?_, ?_⟩ <;> simp [State.emitted, hr, hp, hlabel, labels, hlo]
    exact ⟨_, happ, h _ _ happ (fun hr' ↦ absurd hr' hr) hreach hslots⟩

variable {k : LowerM β}

lemma mark {Q : Unit → State → Flow → Prop} (hlo : lo ≤ l.index) (hl : l.index < s.nextLabel)
    (h : ∀ s', Appends lo s s' [⟨.label l, some s.loc⟩] → s'.reachable = true → s'.slots = s.slots →
      Q () s' [⟨.label l, some s.loc⟩]) : Makes C lo s (mark l) Q := by
  refine ⟨(), s.emitted (.label l), emit_apply (.label l) C s, ?_⟩
  have happ : Appends lo s (s.emitted (.label l)) [⟨.label l, some s.loc⟩] := by
    refine ⟨?_, ?_, ?_, ?_, ?_⟩ <;> simp [State.emitted, Prim.definedLabel, labels, hlo, hl]
  exact ⟨_, happ, h _ happ (by simp [State.emitted, Prim.definedLabel]) (by simp [State.emitted, Prim.definedLabel])⟩

lemma jump {Q : Unit → State → Flow → Prop} (hlo : lo ≤ s.nextLabel)
    (h : ∀ s' code, Appends lo s s' code → (s.reachable = true → code = [⟨.jump l, some s.loc⟩]) →
      s'.slots = s.slots → Q () s' code) : Makes C lo s (jump l) Q := by
  refine .after (x := reachable) rfl (.refl lo s) (.ite (fun hr ↦ ?_) fun hr ↦ ?_)
  · exact .emit hlo rfl fun s' code happ hcode _ hslots ↦ h s' code happ hcode hslots
  · exact .pure (h s [] (.refl lo s) (fun hr' ↦ absurd (hr'.symm.trans hr) Bool.noConfusion) rfl)

/-! Steps with what is written behind them. -/

lemma emitThen (hlo : lo ≤ s.nextLabel) (hp : p.definedLabel = none)
    (hk : ∀ s' code, Appends s.nextLabel s s' code → (s.reachable = true → code = [⟨p, some s.loc⟩]) →
      s'.reachable = p.fallsThrough → s'.slots = s.slots → Makes C lo s' k fun b s2 code' ↦ R b s2 (code ++ code')) :
    Makes C lo s (do Lowering.emit p; k) R :=
  .bindFrom (.emit le_rfl hp hk) hlo fun _ _ _ _ h ↦ h

lemma markThen (hlo : lo ≤ l.index) (hl : l.index < s.nextLabel)
    (hk : ∀ s', Appends l.index s s' [⟨.label l, some s.loc⟩] → s'.reachable = true → s'.slots = s.slots →
      Makes C lo s' k fun b s2 code' ↦ R b s2 ([⟨.label l, some s.loc⟩] ++ code')) :
    Makes C lo s (do Lowering.mark l; k) R :=
  .bindFrom (.mark le_rfl hl hk) hlo fun _ _ _ _ h ↦ h

lemma jumpThen (hlo : lo ≤ s.nextLabel)
    (hk : ∀ s' code, Appends s.nextLabel s s' code → (s.reachable = true → code = [⟨.jump l, some s.loc⟩]) →
      s'.slots = s.slots → Makes C lo s' k fun b s2 code' ↦ R b s2 (code ++ code')) :
    Makes C lo s (do Lowering.jump l; k) R :=
  .bindFrom (.jump le_rfl hk) hlo fun _ _ _ _ h ↦ h

end Makes

end Lowering

/-! ## Memory -/

def Interpretation.Temporary (I : Interpretation V) (c : Cell) : Prop := c.In fun s ↦ I.hidden s = true

/-- The hidden slots are the temporaries that have been made, and variables are in their slots. -/
structure Interpretation.Fits (I : Interpretation V) (s : State) : Prop where
  temps : ∀ k slot, s.slots[k]? = some slot → I.hidden ⟨k⟩ = slot.temp
  locals : ∀ decl slot, s.locals.lookup decl = some slot → I.slotOf decl = slot ∧ I.hidden slot = false

lemma Interpretation.Fits.before {I : Interpretation V} {lo : Nat} {s s' : State} {code : Flow} (h : I.Fits s')
    (happ : Appends lo s s' code) : I.Fits s where
  temps k slot hk := by
    obtain ⟨_, hm⟩ := happ.slots
    refine h.temps k slot ?_
    rw [← Array.getElem?_toList] at hk ⊢
    rw [hm, List.getElem?_append_left (List.getElem?_eq_some_iff.mp hk).1]
    exact hk
  locals decl slot hl := h.locals decl slot (happ.locals decl slot hl)

lemma Interpretation.Fits.hidden_temp {I : Interpretation V} {s : State} {rep : Rep} (h : I.Fits (s.withTemp rep)) :
    I.hidden ⟨s.slots.size⟩ = true :=
  h.temps s.slots.size _ (by simp [State.withTemp]; rfl)

/-- The memory of an evaluation and that of code differ in temporaries only. -/
structure Agrees (I : Interpretation V) (σ st : PrimState V) : Prop where
  mem : ∀ c, ¬ I.Temporary c → st.mem c = σ.mem c
  sp : st.sp = σ.sp
  mark : st.mark = σ.mark
  records : st.records = σ.records
  links : st.links = σ.links

def KeepsTemps (I : Interpretation V) (n : Nat) (st st' : PrimState V) : Prop :=
  ∀ s word, I.hidden s = true → s.index < n → st'.mem (.slot s word) = st.mem (.slot s word)

section

variable {σ st1 st2 : PrimState V} {k : Nat}

lemma Agrees.refl (I : Interpretation V) (st : PrimState V) : Agrees I st st := ⟨fun _ _ ↦ rfl, rfl, rfl, rfl, rfl⟩

lemma KeepsTemps.refl (I : Interpretation V) (n : Nat) (st : PrimState V) : KeepsTemps I n st st := fun _ _ _ _ ↦ rfl

lemma KeepsTemps.trans (h : KeepsTemps I n st st1) (h' : KeepsTemps I n st1 st2) : KeepsTemps I n st st2 :=
  fun s word hs hn ↦ (h' s word hs hn).trans (h s word hs hn)

lemma KeepsTemps.mono (h : KeepsTemps I n st st') (hm : m ≤ n) : KeepsTemps I m st st' :=
  fun s word hs hn ↦ h s word hs (lt_of_lt_of_le hn hm)

lemma Agrees.visible (h : Agrees I σ st) : st.visible I.toWorld = σ.visible I.toWorld := by
  funext c
  cases c with
  | outer a => exact congrArg some (h.mem (.outer a) fun hin ↦ hin)
  | slot s word =>
    simp only [PrimState.visible]
    split
    · rfl
    · rename_i hs
      exact congrArg some (h.mem (.slot s word) hs)

lemma Agrees.write_temp (h : Agrees I σ st) (ht : I.hidden t = true) (k : Nat) (value : Nat → V) :
    Agrees I σ (st.write I.toModel (.slot t 0) k value) where
  mem c hc := by
    have hne : ∀ i < k, c ≠ (Place.slot t 0).cell I.toModel st i := by
      rintro i - rfl
      exact hc ht
    exact (writeWords_of_ne hne).trans (h.mem c hc)
  sp := h.sp
  mark := h.mark
  records := h.records
  links := h.links

lemma keeps_write_temp (ht : n ≤ t.index) (k : Nat) (value : Nat → V) :
    KeepsTemps I n st (st.write I.toModel (.slot t 0) k value) := by
  intro s _ _ hs
  refine writeWords_of_ne ?_
  rintro i - heq
  cases heq
  omega

lemma mem_write_temp (t : SlotId) (hi : i < k) (value : Nat → V) :
    (st.write I.toModel (.slot t 0) k value).mem (.slot t (0 + i)) = value i := by
  have hinj : ∀ i < k, ∀ j < k,
      (Place.slot t 0).cell I.toModel st i = (Place.slot t 0).cell I.toModel st j → i = j := by
    intro i _ j _ h
    simp only [Place.cell, Cell.slot.injEq, true_and] at h
    omega
  exact writeWords_apply hinj hi

lemma Agrees.write (h : Agrees I σ st) {rep : Rep} {value value' : Nat → V}
    (hcell : ∀ i < rep.words, dst.cell I.toModel st i = L.cell I.toModel i)
    (hvalue : ∀ i < rep.words, value i = value' i) :
    Agrees I (I.written L rep value' σ) (st.write I.toModel dst rep.words value) where
  mem c hc := writeWords_congr (h.mem c hc) hcell hvalue
  sp := h.sp
  mark := h.mark
  records := h.records
  links := h.links

lemma keeps_write {value : Nat → V} (hcell : ∀ i < k, ¬ I.Temporary (dst.cell I.toModel st i)) :
    KeepsTemps I n st (st.write I.toModel dst k value) := by
  intro s _ hs _
  refine writeWords_of_ne fun i hi heq ↦ hcell i hi ?_
  rw [← heq]
  exact hs

end

/-! ## Runs -/

/-- The last move of a piece of code, run from `st`, is what an evaluation calls for: where control goes with its
value, or the exception that it ends with. -/
def Meets (I : Interpretation V) (n : Nat) (st : PrimState V) (out : List (CallEvent V) × Move V)
    (result : EStateM.Result V (Store V) α) (dest : α → PrimState V → Move V) (Q : α → PrimState V → Prop) : Prop :=
  match result with
  | .ok a S => ∃ st', out = (S.past, dest a st') ∧ Agrees I S.state st' ∧ KeepsTemps I n st st' ∧ Q a st'
  | .error v S => ∃ st', out = (S.past, st'.raise I.toWorld v) ∧ Agrees I S.state st'

abbrev onward (_ : α) (st : PrimState V) : Move V := .next st

lemma PrimState.raise_cases (W : World V) (st : PrimState V) (v : V) :
    (∃ o, st.raise W v = .finish o) ∨ ∃ l st', st.raise W v = .handle l v st' := by
  unfold PrimState.raise
  split
  · exact .inl ⟨_, rfl⟩
  · split
    · exact .inl ⟨_, rfl⟩
    · exact .inr ⟨_, _, rfl⟩

lemma carryOn_raise (rest : Flow) (past : List (CallEvent V)) (st : PrimState V) (v : V) :
    carryOn W rest (past, st.raise W v) = (past, st.raise W v) := by
  rcases st.raise_cases W v with ⟨o, h⟩ | ⟨l, _, h⟩ <;> rw [h] <;> rfl

lemma exec_raise {event : Option (CallEvent V)} {v : V} (h : p.act W past st = (event, st'.raise W v)) :
    exec W [⟨p, loc⟩] none past st = (event.toList ++ past, st'.raise W v) := by
  rw [exec_cons, h]
  rcases st'.raise_cases W v with ⟨o, h⟩ | ⟨l, _, h⟩ <;> rw [h]

section

variable {S : Store V} {x : Eval V α} {f : α → Eval V β} {dest : α → PrimState V → Move V} {dest' : β → PrimState V → Move V}
  {Q Q' : α → PrimState V → Prop} {R : β → PrimState V → Prop} {S' : Store V} {out : List (CallEvent V) × Move V}

lemma eval_bind_ok (h : x S = .ok a S') : (x >>= f) S = f a S' := by
  simp [bind, EStateM.bind, h]

lemma eval_bind_error {v : V} (h : x S = .error v S') : (x >>= f) S = .error v S' := by
  simp [bind, EStateM.bind, h]

lemma eval_map_eq_ok (h : (x >>= fun a ↦ pure (g a)) S = .ok b S') : ∃ a, x S = .ok a S' ∧ g a = b := by
  cases hx : x S with
  | error v S1 => cases (eval_bind_error hx).symm.trans h
  | ok a S1 =>
    cases (eval_bind_ok hx).symm.trans h
    exact ⟨a, rfl, rfl⟩

lemma Meets.pure {st' : PrimState V} (hout : out = (S.past, dest a st')) (hagrees : Agrees I S.state st')
    (hkeeps : KeepsTemps I n st st') (hQ : Q a st') : Meets I n st out ((pure a : Eval V α) S) dest Q :=
  ⟨st', hout, hagrees, hkeeps, hQ⟩

lemma Meets.bind (hx : Meets I n st (exec I.toWorld code none S.past st) (x S) dest Q)
    (hf : ∀ a S' st', x S = .ok a S' → Agrees I S'.state st' → KeepsTemps I n st st' → Q a st' →
      Meets I n st' (carryOn I.toWorld rest (S'.past, dest a st')) (f a S') dest' R) :
    Meets I n st (exec I.toWorld (code ++ rest) none S.past st) ((x >>= f) S) dest' R := by
  rw [exec_append]
  cases hxS : x S with
  | error v S' =>
    rw [hxS] at hx
    obtain ⟨st', hout, hagrees⟩ := hx
    rw [hout, carryOn_raise, eval_bind_error hxS]
    exact ⟨st', rfl, hagrees⟩
  | ok a S' =>
    rw [hxS] at hx
    obtain ⟨st', hout, hagrees, hkeeps, hQ⟩ := hx
    rw [hout, eval_bind_ok hxS]
    have hrest := hf a S' st' hxS hagrees hkeeps hQ
    cases hfS : f a S' with
    | error v S'' =>
      rw [hfS] at hrest
      exact hrest
    | ok b S'' =>
      rw [hfS] at hrest
      obtain ⟨st'', hout', hagrees', hkeeps', hR⟩ := hrest
      exact ⟨st'', hout', hagrees', hkeeps.trans hkeeps', hR⟩

lemma Meets.mono (h : Meets I n st out result dest Q) (hm : m ≤ n)
    (hQ : ∀ a st', Q a st' → Q' a st') : Meets I m st out result dest Q' := by
  cases result with
  | error v S => exact h
  | ok a S =>
    obtain ⟨st', hout, hagrees, hkeeps, hq⟩ := h
    exact ⟨st', hout, hagrees, hkeeps.mono hm, hQ a st' hq⟩

lemma Meets.keeping (h : Meets I n st out result dest Q) (hm : m ≤ n) :
    Meets I m st out result dest fun a st' ↦ Q a st' ∧ KeepsTemps I n st st' := by
  cases result with
  | error v S => exact h
  | ok a S =>
    obtain ⟨st', hout, hagrees, hkeeps, hq⟩ := h
    exact ⟨st', hout, hagrees, hkeeps.mono hm, hq, hkeeps⟩

end

/-- The code between two states of lowering follows an evaluation from every store in which that is steady, and
leaves the first temporaries alone. -/
def Mirrors (I : Interpretation V) (n : Nat) (s s' : State) (code : Flow) (steady : Store V → Prop) (x : Eval V α)
    (dest : α → PrimState V → Move V) (Q : Store V → α → PrimState V → Prop) : Prop :=
  I.Fits s' → s.reachable = true → ∀ S st, Agrees I S.state st → steady S →
    Meets I n st (Flow.exec I.toWorld code none S.past st) (x S) dest (Q S)

/-! ## Operands -/

/-- The operand stands for a value while its sources and the first temporaries stay the same. -/
def Stands (I : Interpretation V) (n : Nat) (sources : Cell → Prop) (v : Operand) (rep : Rep) (value : Nat → V)
    (st : PrimState V) : Prop :=
  ∀ st', (∀ c, sources c → ¬ I.Temporary c → st'.mem c = st.mem c) → KeepsTemps I n st st' →
    ∀ i < rep.words, v.word I.toModel st' rep i = value i

section

variable {sources sources' : Cell → Prop} {v : Operand} {rep rep' : Rep} {value value' : Nat → V} (h : Stands I n sources v rep value st)

include h

lemma Stands.word (hi : i < rep.words) : v.word I.toModel st rep i = value i :=
  h st (fun _ _ _ ↦ rfl) (KeepsTemps.refl I n st) i hi

lemma Stands.words : v.words I.toModel st rep = rep.list value := map_congr_left fun _ hi ↦ h.word (mem_range.mp hi)

lemma Stands.later
    (hsources : ∀ c, sources c → ¬ I.Temporary c → st'.mem c = st.mem c) (hkeeps : KeepsTemps I n st st') :
    Stands I n sources v rep value st' := by
  intro st'' hsources' hkeeps'
  exact h st'' (fun c hc ht ↦ (hsources' c hc ht).trans (hsources c hc ht)) (hkeeps.trans hkeeps')

lemma Stands.mono (hn : n ≤ m) (hs : ∀ c, sources c → sources' c) : Stands I m sources' v rep value st :=
  fun st' hsources hkeeps ↦ h st' (fun c hc ↦ hsources c (hs c hc)) (hkeeps.mono hn)

lemma Stands.across {S S' : Store V} (hagrees : Agrees I S.state st)
    (hagrees' : Agrees I S'.state st') (hsame : S.SameIn sources S') (hkeeps : KeepsTemps I n st st') :
    Stands I n sources v rep value st' := by
  refine h.later (fun c hc ht ↦ ?_) hkeeps
  rw [hagrees'.mem c ht, hagrees.mem c ht]
  exact hsame c hc

omit h

lemma stands_literal (hv : ∀ p, v ≠ .load p) : Stands I n sources v rep (I.literal rep v) st := by
  intro st' _ _ i _
  cases v with
  | load p => exact absurd rfl (hv p)
  | imm value => rfl
  | float x => rfl
  | address base offset => rfl

lemma stands_temp (ht : I.hidden t = true) (hn : t.index < n) {k : Nat} (hk : rep.words ≤ k)
    (hvalue : ∀ i < rep.words, value' i = value i) :
    Stands I n sources (.load (.slot t 0)) rep value (st.write I.toModel (.slot t 0) k value') := by
  intro st' _ hkeeps i hi
  have hword : (Operand.load (.slot t 0)).word I.toModel st' rep i = st'.mem (.slot t (0 + i)) := rfl
  rw [hword, hkeeps t (0 + i) ht hn, mem_write_temp t (lt_of_lt_of_le hi hk)]
  exact hvalue i hi

end

/-! ## Nodes that compute -/

lemma exec_assign (rep : Rep) (dst : Place) (src : Operand) :
    exec I.toWorld [⟨.assign rep dst src, loc⟩] none past st =
      (past, .next (st.write I.toModel dst rep.words (assignedWord I.toModel st rep src))) :=
  exec_single rfl

lemma exec_binary (op : BinaryOp) (rep : Rep) (dst : Place) (lhs rhs : Operand) :
    exec I.toWorld [⟨.binary op rep dst lhs rhs, loc⟩] none past st = (past, .next (st.write I.toModel dst rep.words
        (I.binary op rep (lhs.words I.toModel st rep) (rhs.words I.toModel st (rightRep op rep))))) :=
  exec_single rfl

lemma assignedWord_scalar {rep : Rep} (h : rep.isBlock = false) (src : Operand) (i : Nat) :
    assignedWord I.toModel st rep src i = src.word I.toModel st rep i := by
  rw [assignedWord, if_neg (by rw [h]; exact Bool.noConfusion)]

end W16Compiler
