import W16Compiler.Proofs.Lowering.Calls

/-!
# Initialization and tear-down

The code that initializes an object visits the bases, then the fields, and calls the constructor last. The code
that tears it down calls the destructor and visits the same parts in reverse. A union differs: its first field is
initialized, and none is torn down. These functions make their calls in order, like all that are lowered.
-/

namespace W16Compiler

open Lowering Reserving List Language Flow

def Flow.acts (flow : Flow) : List Prim :=
  (flow.map (·.value)).filter fun
    | .label _ | .cleanupReturn .. => false
    | _ => true

namespace StructDef

/-- The fields that are initialized: of a union the first. -/
def visitedFields (d : StructDef) : List Field := if d.isUnion then d.fields.take 1 else d.fields

def calling (label : String) (pointer : Operand) : Language Prim :=
  {[.callStart 1]} * ({[.assign pointerRep (.arg 0) pointer]} * {[.call (.direct label) 1 none]})

def callsFor (offset : Nat) : Option String → Language Prim
  | none => 1
  | some label =>
    if offset = 0 then calling label (.load (.param 0))
    else {nodes | ∃ slot, nodes ∈ {[.binary .add pointerRep (.slot slot 0) (.load (.param 0)) (.imm offset)]} *
      calling label (.load (.slot slot 0))}

def callsMethod (d : StructDef) (name : String) : Language Prim :=
  callsFor 0 ((d.methods.find? (·.name == name)).map (·.label))

def visits (t : TypeTable) (needed : StructDef → Bool) (label : StructDef → String) (offset : Nat)
    (id : Option StructId) : Language Prim :=
  callsFor offset (((id.map t.structDef).filter needed).map label)

/-- What initializes an object: the bases come first, then the fields, where one with an initializer gets its
value, and the constructor is called behind them. -/
def initNodes (t : TypeTable) (d : StructDef) : Language Prim :=
  (d.bases.map fun b ↦ visits t needsInit initLabel b.offset b.id).prod *
    ((d.tables.map fun t ↦ {[.assign pointerRep (member t.pointerOffset) (.address (.global t.label) 0)]}).prod *
    ((d.visitedFields.map fun f ↦ f.init.elim (visits t needsInit initLabel f.offset (t.asStruct f.type))
      fun _ ↦ ⊤).prod * d.callsMethod constructorName))

/-- What tears down the given fields and the bases, the last one first, behind the destructor. -/
def termNodes (t : TypeTable) (d : StructDef) (torn : List Field) : Language Prim :=
  d.callsMethod destructorName *
    ((torn.reverse.map fun f ↦ visits t needsTerm termLabel f.offset (t.asStruct f.type)).prod *
    (d.bases.reverse.map fun b ↦ visits t needsTerm termLabel b.offset b.id).prod)

/-- Tear-down mirrors initialization, as far as the given fields are concerned, and does nothing else. -/
structure Mirrored (n : Names) (d : StructDef) (torn : List Field) : Prop where
  init : ∀ label f next, d.lowerInit n label = .ok (f, next) →
    Flow.acts f.prims ∈ {[.entry]} * d.initNodes n.types * ⊤
  term : ∀ label, ∃ f next, d.lowerTerm n label = .ok (f, next) ∧
    Flow.acts f.prims ∈ {[.entry]} * d.termNodes n.types torn * {[.ret none]}

end StructDef

namespace Lowering

open StructDef

variable {α β : Type} {may : Prop} {C : Context} {inv : State → Prop} {x : LowerM α} {L M : Language Prim}
  {s : State} {p : Prim} {t : TypeTable} {d : StructDef}

lemma acts_append (a b : Flow) : acts (a ++ b) = a.acts ++ b.acts := by simp [acts]

lemma acts_resolved (s : State) : acts s.resolved = acts s.prims.toList := by
  unfold State.resolved acts
  induction s.prims.toList with
  | nil => rfl
  | cons p rest ih =>
    obtain ⟨value, _⟩ := p
    rw [map_cons, map_cons, map_cons, filter_cons, filter_cons, ih]
    cases value <;> rfl

/-- A step keeps up what is known of the state and adds nodes. It fails only where it may. -/
def Adds (may : Prop) (C : Context) (inv : State → Prop) (x : LowerM α) (L : Language Prim) : Prop :=
  ∀ s, inv s → Delivers may (x C s) fun r ↦ inv r.2 ∧ ∃ nodes ∈ L,
    Flow.acts r.2.prims.toList = Flow.acts s.prims.toList ++ nodes

lemma Adds.pure : Adds may C inv (pure a) 1 := fun _ hs ↦ ⟨hs, [], nil_mem_one, (append_nil _).symm⟩

lemma Adds.bind (hx : Adds may C inv x L) (hf : ∀ a, Adds may C inv (f a) M) : Adds may C inv (x >>= f) (L * M) := by
  intro s hs
  refine Delivers.bind (hx s hs) ?_
  rintro r ⟨hr, nodes, hL, hnodes⟩
  refine (hf r.1 r.2 hr).mono ?_
  rintro _ ⟨hr', more, hM, hmore⟩
  exact ⟨hr', nodes ++ more, append_mem_mul hL hM, by rw [hmore, hnodes, append_assoc]⟩

lemma Adds.after (hx : Adds may C inv x 1) (hf : ∀ a, Adds may C inv (f a) L) : Adds may C inv (x >>= f) L :=
  one_mul L ▸ hx.bind hf

lemma Adds.loop {as : List β} {f : β → PUnit → LowerM (ForInStep PUnit)} {L : β → Language Prim}
    (h : ∀ a, ∃ step, f a ⟨⟩ = (do step; return .yield ⟨⟩) ∧ Adds may C inv step (L a)) :
    Adds may C inv (forIn as PUnit.unit f) (as.map L).prod := by
  induction as with
  | nil => exact .pure
  | cons a as ih =>
    obtain ⟨step, hstep, hadds⟩ := h a
    rw [forIn_cons, hstep, bind_assoc, map_cons, prod_cons]
    exact hadds.bind fun _ ↦ ih

lemma acts_emitted (hp : ∀ loc, acts [⟨p, loc⟩] = [p]) :
    acts (s.emitted p).prims.toList = acts s.prims.toList ++ [p] := by
  unfold State.emitted
  dsimp only
  split
  · rw [Array.toList_push, acts_append, hp]
  · rw [Array.toList_push, Array.toList_push, acts_append, acts_append, hp]
    exact congrArg (· ++ [p]) (append_nil _)

/-- What nodes that control gets behind leave as it is. -/
structure Steady (inv : State → Prop) : Prop where
  similar : ∀ {s s'}, inv s → s.Similar s' → inv s'
  emitted : ∀ {s p}, inv s → p.fallsThrough → inv (s.emitted p)

section

variable (hinv : Steady inv)

include hinv

lemma adds_emit (hp : ∀ loc, acts [⟨p, loc⟩] = [p]) (hfalls : p.fallsThrough) : Adds may C inv (emit p) {[p]} := by
  intro s hs
  rw [emit_apply]
  exact ⟨hinv.emitted hs hfalls, [p], rfl, acts_emitted hp⟩

lemma adds_locate (loc : Location) : Adds may C inv (locate loc) 1 :=
  fun s hs ↦ ⟨hinv.similar hs (silent_locate (C := C) loc s _ _ rfl).1, [], nil_mem_one, (append_nil _).symm⟩

lemma adds_callForMember (label : String) (offset : Nat) :
    Adds may C inv (callForMember label offset) (callsFor offset (some label)) := by
  have hcall (pointer : Operand) : Adds may C inv (callWithPointer label pointer) (calling label pointer) :=
    (adds_emit hinv (fun _ ↦ rfl) rfl).bind fun _ ↦ (adds_emit hinv (fun _ ↦ rfl) rfl).bind fun _ ↦
      adds_emit hinv (fun _ ↦ rfl) rfl
  cases offset with
  | zero => exact hcall _
  | succ k =>
    have hmember : callForMember label (k + 1) = (do
        let t ← newTemp pointerRep
        emit (.binary .add pointerRep t (.load (.param 0)) (.imm (k + 1 : Nat)))
        callWithPointer label (.load t)) := by
      have hoffset : ((k + 1 : Nat) : Int) ≠ 0 := by omega
      simp only [callForMember, addressOf, member, Place.address, if_neg hoffset, bind_assoc, pure_bind]
    rw [hmember]
    intro s hs
    refine Delivers.mono (((adds_emit hinv (fun _ ↦ rfl) rfl).bind fun _ ↦ hcall _) _
      (hinv.similar hs (silent_newSlot (C := C) pointerRep.words true s _ _ rfl).1)) ?_
    rintro _ ⟨hr, nodes, hL, hnodes⟩
    exact ⟨hr, nodes, ⟨_, hL⟩, hnodes⟩

end

lemma adds_visit {needed : StructDef → Bool} {label : StructDef → String} {id : StructId} {offset : Nat}
    {x : LowerM Unit} (hx : Adds may C inv x (callsFor offset (some (label (t.structDef id))))) :
    Adds may C inv (if needed (t.structDef id) then x else pure ()) (visits t needed label offset id) := by
  unfold visits
  rw [Option.map_some]
  cases h : needed (t.structDef id) with
  | true =>
    rw [Option.filter_some_pos h]
    exact hx
  | false =>
    rw [Option.filter_some_neg h]
    exact .pure

section

variable (hcall : ∀ label offset, Adds may C inv (callForMember label offset) (callsFor offset (some label)))
  (hlocate : ∀ loc, Adds may C inv (locate loc) 1)

include hcall

lemma adds_bases (needed : StructDef → Bool) (label : StructDef → String) (bases : List Base) :
    Adds may C inv (forIn bases PUnit.unit fun b _ ↦ if needed (t.structDef b.id) then do
        callForMember (label (t.structDef b.id)) b.offset
        pure (.yield ⟨⟩)
      else pure (.yield ⟨⟩)) (bases.map fun b ↦ visits t needed label b.offset b.id).prod := by
  refine Adds.loop fun b ↦ ⟨_, ?_, adds_visit (hcall _ b.offset)⟩
  cases needed (t.structDef b.id) with
  | true => rfl
  | false => rfl

include hlocate

lemma adds_callMethod (name : String) : Adds may C inv (d.callMethod name) (d.callsMethod name) := by
  unfold callMethod callsMethod
  cases d.methods.find? (·.name == name) with
  | none => exact .pure
  | some m => exact (hlocate d.loc).after fun _ ↦ hcall m.label 0

lemma adds_termCode : Adds may C inv (d.termCode t) (d.termNodes t (if d.isUnion then [] else d.fields)) := by
  rw [termNodes, apply_ite List.reverse, reverse_nil]
  refine (adds_callMethod hcall hlocate _).bind fun _ ↦ Adds.bind (Adds.loop fun f ↦ ⟨termField t f, rfl, ?_⟩) fun _ ↦
    bind_pure (m := LowerM) _ ▸ adds_bases hcall needsTerm termLabel d.bases.reverse
  unfold termField
  cases t.asStruct f.type with
  | none => exact .pure
  | some id => exact adds_visit ((hlocate f.loc).after fun _ ↦ hcall _ f.offset)

end

lemma adds_closed (hx : ∀ before, Closed (C, before) C x fun _ ↦ True) : Adds True C (Writes [] none) x ⊤ := by
  intro s hs
  cases hrun : x C s with
  | error => trivial
  | ok r =>
    obtain ⟨_, _, _, hr, _⟩ := hx s.prims.toList () [] [] s r.1 r.2 trivial ⟨hs.calls, hs.reachable, prefix_rfl⟩ hrun
    obtain ⟨more, hmore⟩ := hr.keeps
    exact ⟨⟨hr.calls, hr.reachable, nil_prefix⟩, acts more, trivial, by rw [← hmore, acts_append]⟩

lemma Adds.closed (h : Adds True C (fun _ ↦ True) x L) (hx : Closed (C, []) C x fun _ ↦ True) :
    Adds True C (Writes [] none) x L := by
  intro s hs
  cases hrun : x C s with
  | error => trivial
  | ok r =>
    obtain ⟨_, _, _, hr, _⟩ := hx () [] [] s r.1 r.2 trivial hs hrun
    exact ⟨hr, ((h s trivial).of_eq hrun).2⟩

lemma Adds.closes (h : Adds True C (Writes [] none) x L) : Closed (C, []) C x fun _ ↦ True :=
  fun _ _ _ s _ _ _ hs hrun ↦ ⟨(), le_rfl, trivial, ((h s hs).of_eq hrun).1, trivial⟩

section

variable (C)

lemma steady_true : Steady fun _ ↦ True := ⟨fun _ _ ↦ trivial, fun _ _ ↦ trivial⟩

lemma writes_locate (loc : Location) : Adds True C (Writes [] none) (locate loc) 1 :=
  (adds_locate steady_true loc).closed (.silent (silent_locate loc))

lemma writes_callForMember (label : String) (offset : Nat) :
    Adds True C (Writes [] none) (callForMember label offset) (callsFor offset (some label)) :=
  (adds_callForMember steady_true label offset).closed (closed_callForMember label offset)

end

lemma adds_initCode (hC : C.breakables = []) : Adds True C (Writes [] none) (d.initCode t) (d.initNodes t) := by
  refine (adds_bases (writes_callForMember C) needsInit StructDef.initLabel d.bases).bind fun _ ↦
    Adds.bind (Adds.loop fun table ↦ ⟨_, rfl, (adds_emit steady_true (fun _ ↦ rfl) rfl).closed ?_⟩) fun _ ↦
    Adds.bind (Adds.loop fun f ↦ ⟨initField t f, rfl, ?_⟩) fun _ ↦
    adds_callMethod (writes_callForMember C) (writes_locate C) _
  · exact Closed.emit (isOrdinary_assign (isFree_member _) (Operand.isFree_address _ _)).isPlain
  · refine (writes_locate C f.loc).after fun _ ↦ ?_
    cases f.init with
    | some e => exact adds_closed fun before ↦ closed_assignTo (K := (C, before)) hC e (isFree_member _)
    | none =>
      cases t.asStruct f.type with
      | none => exact .pure
      | some id => exact adds_visit (writes_callForMember C _ f.offset)

/-- Control gets on, and nothing has to follow the body. -/
structure Idle (s : State) : Prop where
  reachable : s.reachable
  exits : s.exits = []
  returnLabel : s.returnLabel = none

lemma steady_idle : Steady Idle where
  similar hs h := ⟨h.reachable ▸ hs.reachable, h.exits ▸ hs.exits, h.returnLabel ▸ hs.returnLabel⟩
  emitted hs hp := by
    simp only [State.emitted, hs.reachable, Bool.true_or, if_true, hp, Bool.or_true]
    exact ⟨rfl, hs.exits, hs.returnLabel⟩

lemma close_apply (hs : Idle s) : close C s = .ok ((), s.emitted (.ret none)) := by
  obtain ⟨hreachable, hexits, hreturn⟩ := hs
  cases s
  subst hreachable hexits hreturn
  rfl

lemma acts_written {label : String} {exported : Bool} {loc : Location} {body : LowerM Unit} {next : Nat}
    (hstart : inv (State.emitted { nextLabel := next, loc } .entry)) (hbody : Adds may C inv body L)
    (hclose : ∀ s, inv s → Delivers may (close C s) fun r ↦
      ∃ nodes ∈ M, acts r.2.prims.toList = acts s.prims.toList ++ nodes) :
    Delivers may (written C label exported loc body next) fun r ↦ acts r.1.prims ∈ {[.entry]} * L * M := by
  refine Delivers.bind (P := fun r ↦ acts r.2.prims.toList ∈ {[.entry]} * L * M) ?_ fun r hr ↦ ?_
  · refine Delivers.bind (hbody _ hstart) ?_
    rintro r ⟨hr, nodes, hL, hnodes⟩
    refine (hclose _ hr).mono ?_
    rintro r' ⟨more, hM, hmore⟩
    rw [hmore, hnodes]
    exact append_mem_mul (append_mem_mul rfl hL) hM
  · change acts r.2.resolved ∈ _
    rwa [acts_resolved]

end Lowering

/-- Of a struct the parts that are initialized are torn down in reverse. The fields of a union are left. -/
theorem StructDef.mirrored (n : Names) (d : StructDef) : d.Mirrored n (if d.isUnion then [] else d.fields) where
  init label f next h := by
    have hacts : Delivers True (d.lowerInit n label) _ := acts_written writes_entry (adds_initCode rfl) fun s hs ↦
      ((adds_closed fun _ ↦ closed_close) s hs).mono fun _ hr ↦ hr.2
    exact hacts.of_eq h
  term label := by
    have hacts : Delivers False (d.lowerTerm n label) _ := acts_written ⟨rfl, rfl, rfl⟩ (adds_termCode
      (adds_callForMember steady_idle) (adds_locate steady_idle)) (M := {[.ret none]}) fun s hs ↦ ?_
    · cases hrun : d.lowerTerm n label with
      | error => exact (hrun ▸ hacts : Delivers False (.error _) _).elim
      | ok r => exact ⟨r.1, r.2, rfl, hacts.of_eq hrun⟩
    · rw [close_apply hs]
      exact ⟨_, rfl, acts_emitted fun _ ↦ rfl⟩

/-- The first field of a union is initialized, and it is not torn down. -/
theorem StructDef.not_mirrored_union :
    let r : StructDef := { name := "R", isUnion := false, loc := .builtin, needsTerm := true }
    let u : StructDef :=
      { name := "U", isUnion := true, loc := .builtin, complete := true, fields := [⟨"r", ⟨0⟩, 0, none, .builtin⟩] }
    ¬ u.Mirrored ⟨⟨#[.struct ⟨0⟩], #[r, u]⟩, default⟩ u.visitedFields := by
  intro r u h
  obtain ⟨f, next, hlower, hacts⟩ := h.term 0
  cases hlower
  obtain ⟨_, ⟨_, rfl, _, ⟨_, _, _, ⟨_, ⟨_, hvisit, _, _, rfl⟩, _, _, rfl⟩, rfl⟩, rfl⟩, _, rfl, heq⟩ := hacts
  obtain ⟨_, rfl, _, ⟨_, rfl, _, rfl, rfl⟩, rfl⟩ : _ ∈ calling r.termLabel (.load (.param 0)) := hvisit
  have hlen : _ = 2 := congrArg length heq
  simp only [length_append, length_cons] at hlen
  omega

/-- A function that a unit defines, or one that initializes or tears down the objects of a struct. -/
inductive PrimFunction.IsLowered (n : Names) (p : PrimFunction) : Prop where
  | function (f : FunctionDef) (label next : Nat) (h : f.lower n label = .ok (p, next))
  | init (d : StructDef) (label next : Nat) (h : d.lowerInit n label = .ok (p, next))
  | term (d : StructDef) (label next : Nat) (h : d.lowerTerm n label = .ok (p, next))

lemma PrimFunction.IsLowered.calls {p : PrimFunction} (h : p.IsLowered n) :
    ∃ loc rest, p.prims = ⟨.entry, loc⟩ :: rest ∧ Flow.Calls none rest := by
  cases h with
  | function f label next h => exact calls_written (closed_run rfl f.body) h
  | init d label next h => exact calls_written (adds_initCode rfl).closes h
  | term d label next h => exact calls_written (adds_termCode (writes_callForMember _) (writes_locate _)).closes h

end W16Compiler
