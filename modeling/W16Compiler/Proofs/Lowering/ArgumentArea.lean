import W16Compiler.Proofs.Evaluation.Trees
import W16Compiler.Proofs.Grammar.Arguments
import W16Compiler.Proofs.Lowering.Scoped
import W16Compiler.Proofs.Types.Dispatch

/-!
# The argument area

A call stores its values one behind the other: the pointer to where a result in memory goes, the object, and
the arguments. A definition of the type that is called has its parameters at the same places, since arguments
are converted to the types of the parameters. Both agree on where the result is, and a thunk in between
moves the object.
-/

namespace W16Compiler.Lowering

open List TypeTable

variable {C : Context} {s s' : State}

lemma lowerBind_eq_ok {α β : Type} {x : LowerM α} {f : α → LowerM β} {r : β × State} :
    (x >>= f) C s = .ok r ↔ ∃ a s1, x C s = .ok (a, s1) ∧ f a C s1 = .ok r :=
  bindState_eq_ok (x := x C) (f := fun a ↦ f a C)

/-- The nodes of a call: as many words are reserved as the call gives back, and the values are stored one
behind the other in between. -/
def callNodes (target : CallTarget) (values : List (Operand × Rep)) (result : Option (Place × Rep)) : List Prim :=
  let words := values.map (·.2.words)
  .callStart (total words) :: List.zipWith (fun v word ↦ .assign v.2 (.arg word) v.1) values (starts 0 words) ++
    [.call target (total words) result]

def State.nodes (s : State) : List Prim := s.prims.toList.map (·.value)

lemma reachable_emitted (s : State) (p : Prim) (hp : p.fallsThrough) : (s.emitted p).reachable := by
  unfold State.emitted
  dsimp only
  split <;> simp [hp]

lemma exists_nodes_emitted (s : State) (p : Prim) : ∃ front, (s.emitted p).nodes = front ++ [p] := by
  unfold State.emitted State.nodes
  dsimp only
  split <;> exact ⟨_, by rw [Array.toList_push, map_append]; rfl⟩

lemma nodes_emitted (p : Prim) (hs : s.reachable) : (s.emitted p).nodes = s.nodes ++ [p] := by
  simp [State.emitted, State.nodes, hs]

variable {values : List (Operand × Rep)} {args : List Lowered} {type : TypeId} {u : Unit}

lemma nodes_storeArgs {word : Nat} (hs : s.reachable) (hrun : storeArgs word values C s = .ok (u, s')) :
    s'.reachable ∧ s'.nodes = s.nodes ++
      zipWith (fun v word ↦ .assign v.2 (.arg word) v.1) values (starts word (values.map (·.2.words))) := by
  induction values generalizing word s with
  | nil =>
    cases hrun
    exact ⟨hs, (append_nil _).symm⟩
  | cons v rest ih =>
    obtain ⟨_, _, hemit, hrest⟩ := lowerBind_eq_ok.mp hrun
    rw [emit_apply] at hemit
    cases hemit
    obtain ⟨hreach, hnodes⟩ := ih (reachable_emitted s _ rfl) hrest
    refine ⟨hreach, ?_⟩
    rw [hnodes, nodes_emitted _ hs, append_assoc]
    rfl

lemma exists_callNodes {words : Nat} {result : Option (Place × Rep)} {s1 s2 : State}
    (hwords : words = total (values.map (·.2.words)))
    (hstore : storeArgs 0 values C (s.emitted (.callStart words)) = .ok (u, s1)) (hprims : s2.prims = s1.prims)
    (hreach : s2.reachable = s1.reachable) :
    ∃ front, (s2.emitted (.call target words result)).nodes = front ++ callNodes target values result := by
  obtain ⟨front, hfront⟩ := exists_nodes_emitted s (.callStart words)
  obtain ⟨hs1, hnodes⟩ := nodes_storeArgs (reachable_emitted s _ rfl) hstore
  have hsame : s2.nodes = s1.nodes := by rw [State.nodes, hprims, State.nodes]
  refine ⟨front, ?_⟩
  rw [nodes_emitted _ (hreach ▸ hs1), hsame, hnodes, hfront, callNodes, ← hwords]
  simp

def argValues (args : List Lowered) : LowerM (List (Operand × Rep)) :=
  args.mapM fun a ↦ do
    let rep ← a.rep
    return (← a.value, rep)

lemma reps_argValues (hrun : argValues args C s = .ok (values, s')) :
    values.map (·.2) = args.map fun a ↦ .ofType C.types a.type := by
  induction args generalizing values s with
  | nil =>
    cases hrun
    rfl
  | cons a args ih =>
    rw [argValues, mapM_cons] at hrun
    obtain ⟨v, _, hv, hrun⟩ := lowerBind_eq_ok.mp hrun
    obtain ⟨_, _, hvs, hrun⟩ := lowerBind_eq_ok.mp hrun
    obtain ⟨_, _, ⟨⟩, hop⟩ := lowerBind_eq_ok.mp hv
    obtain ⟨_, _, -, hpair⟩ := lowerBind_eq_ok.mp hop
    cases hpair
    cases hrun
    rw [map_cons, map_cons, ih hvs]

def hiddenValue (slot : Option SlotId) : List (Operand × Rep) :=
  (slot.map fun k ↦ (.address (.slot k) 0, pointerRep)).toList

def resultRep (t : TypeTable) (type : TypeId) : Option Rep :=
  if t.isVoid type || t.returnsInMemory type then none else some (.ofType t type)

def resultValue (rep : Rep) (slot : Option SlotId) (result : Option (Place × Rep)) : Operand :=
  match slot, result with
  | some k, _ => if rep.isBlock then .address (.slot k) 0 else .load (.slot k 0)
  | none, some (p, _) => .load p
  | none, none => .imm 0

lemma contents_slot {v : Operand} (hrun : contents rep (.slot k 0) C s = .ok (v, s')) :
    s' = s ∧ v = resultValue rep (some k) none := by
  rw [contents] at hrun
  rw [resultValue]
  split at hrun <;> cases hrun <;> exact ⟨rfl, by simp [*]⟩

/-- What a call does: the arguments are computed, then the function and the object if that is found on the way.
All that is passed ends up behind the pointer to where a result in memory goes. -/
structure Passes (C : Context) (s s' : State) (type : TypeId) (callee : LoweredCallee) (args : List Lowered)
    (v : Operand) (slot : Option SlotId) (values : List (Operand × Rep)) (result : Option (Place × Rep)) : Prop where
  nodes : ∃ front target this passed s₁ s₂, argValues args C s = .ok (passed, s₁) ∧
    callee C s₁ = .ok ((target, this), s₂) ∧
    values = hiddenValue slot ++ ((this.map fun v ↦ (v, pointerRep)).toList ++ passed) ∧
    s'.nodes = front ++ callNodes target values result
  inMemory : slot.isSome = C.types.returnsInMemory type
  inRegisters : result.map (·.2) = resultRep C.types type
  value : v = resultValue (.ofType C.types type) slot result

lemma returnsInMemory_void {t : TypeTable} (h : t.isVoid type) : t.returnsInMemory type = false := by
  unfold isVoid at h
  unfold returnsInMemory
  split at h <;> simp_all

lemma passes_called {callee : LoweredCallee} {v : Option Operand} (hrun : called type callee args C s = .ok (v, s')) :
    ∃ slot values result, Passes C s s' type callee args (v.getD (.imm 0)) slot values result := by
  obtain ⟨passed, s1, hpassed, hrun⟩ := lowerBind_eq_ok.mp hrun
  obtain ⟨⟨target, this⟩, s2, hcallee, hrun⟩ := lowerBind_eq_ok.mp hrun
  obtain ⟨_, _, ⟨⟩, hrun⟩ := lowerBind_eq_ok.mp hrun
  obtain ⟨_, _, ⟨⟩, hrun⟩ := lowerBind_eq_ok.mp hrun
  have hpasses : ∀ slot result, (∃ front, s'.nodes = front ++ callNodes target
        (hiddenValue slot ++ ((this.map fun v ↦ (v, pointerRep)).toList ++ passed)) result) →
      slot.isSome = C.types.returnsInMemory type → result.map (·.2) = resultRep C.types type →
      v.getD (.imm 0) = resultValue (.ofType C.types type) slot result →
      ∃ slot values result, Passes C s s' type callee args (v.getD (.imm 0)) slot values result :=
    fun slot result ⟨front, hfront⟩ hslot hresult hvalue ↦
      ⟨slot, _, result, ⟨front, target, this, passed, s1, s2, hpassed, hcallee, rfl, hfront⟩, hslot, hresult, hvalue⟩
  by_cases hvoid : C.types.isVoid type
  · rw [if_pos hvoid] at hrun
    obtain ⟨_, _, hstart, hrun⟩ := lowerBind_eq_ok.mp hrun
    obtain ⟨_, s4, hstore, hrun⟩ := lowerBind_eq_ok.mp hrun
    obtain ⟨_, s5, hcall, hrun⟩ := lowerBind_eq_ok.mp hrun
    rw [emit_apply] at hstart hcall
    cases hstart
    cases hcall
    cases hrun
    refine hpasses none none (exists_callNodes rfl hstore rfl rfl) (returnsInMemory_void hvoid).symm ?_ rfl
    simp [resultRep, hvoid]
  rw [if_neg hvoid] at hrun
  by_cases hmemory : C.types.returnsInMemory type
  · rw [if_pos hmemory] at hrun
    obtain ⟨slot, _, -, hrun⟩ := lowerBind_eq_ok.mp hrun
    obtain ⟨_, s4, hstart, hrun⟩ := lowerBind_eq_ok.mp hrun
    obtain ⟨_, s5, hstore, hrun⟩ := lowerBind_eq_ok.mp hrun
    obtain ⟨_, _, hcall, hrun⟩ := lowerBind_eq_ok.mp hrun
    obtain ⟨_, _, hcontents, hlast⟩ := lowerBind_eq_ok.mp hrun
    rw [emit_apply] at hstart hcall
    cases hstart
    cases hcall
    cases hlast
    obtain ⟨rfl, hop⟩ := contents_slot hcontents
    refine hpasses (some slot) none (exists_callNodes (add_comm _ _) hstore rfl rfl) hmemory.symm ?_ hop
    simp [resultRep, hmemory]
  · rw [if_neg hmemory] at hrun
    obtain ⟨_, _, hstart, hrun⟩ := lowerBind_eq_ok.mp hrun
    obtain ⟨_, s4, hstore, hrun⟩ := lowerBind_eq_ok.mp hrun
    obtain ⟨p, s5, htemp, hrun⟩ := lowerBind_eq_ok.mp hrun
    obtain ⟨_, _, hcall, hlast⟩ := lowerBind_eq_ok.mp hrun
    have hkept : s5.prims = s4.prims ∧ s5.reachable = s4.reachable := by
      cases htemp
      exact ⟨rfl, rfl⟩
    rw [emit_apply] at hstart hcall
    cases hstart
    cases hcall
    cases hlast
    refine hpasses none (some (p, _)) (exists_callNodes rfl hstore hkept.1 hkept.2) ?_ ?_ rfl
    · simp [hmemory]
    · simp [resultRep, hmemory, hvoid]

end W16Compiler.Lowering

namespace W16Compiler

open Lowering Grammar

lemma starts_append (word : Nat) (a b : List Nat) : ∃ rest, starts word (a ++ b) = starts word a ++ rest := by
  induction a generalizing word with
  | nil => exact ⟨_, rfl⟩
  | cons n a ih =>
    obtain ⟨rest, hrest⟩ := ih (word + n)
    exact ⟨rest, congrArg (word :: ·) hrest⟩

lemma length_starts (word : Nat) (a : List Nat) : (starts word a).length = a.length := by
  induction a generalizing word with
  | nil => rfl
  | cons n a ih => exact congrArg (· + 1) (ih _)

lemma namedOffsets_of_prefix {names : List String} {words words' : List Nat} (h : words <+: words')
    (hlength : names.length = words.length) (word : Nat) :
    namedOffsets word names words' = namedOffsets word names words := by
  obtain ⟨more, rfl⟩ := h
  obtain ⟨_, hrest⟩ := starts_append word words more
  rw [namedOffsets, namedOffsets, hrest, List.map_append]
  conv_lhs => rw [← List.append_nil names]
  rw [List.zip_append (by rw [List.length_map, length_starts, hlength]), List.zip_nil_left, List.append_nil]

/-- Whether the object is found on the way to the function. -/
def Callee.isVirtual : Callee → Bool
  | virtualSlot .. => true
  | _ => false

lemma TypeTable.Extends.isPointer {t t' : TypeTable} {ty : TypeId} (h : t.Extends t') (hty : t.isPointer ty) :
    t'.isPointer ty := by
  rwa [TypeTable.isPointer, h.kind fun hvoid ↦ by simp [TypeTable.isPointer, hvoid] at hty]

namespace Expr

/-- A call as it is typed, of a function of a type that is called for an object or not: directly, through a
pointer or by a table of virtual functions, or with the object before the arguments. -/
inductive IsCall (y : Symbols) (t t' : TypeTable) (fnType : TypeId) : Bool → Expr → Prop where
  | plain {args args' : List Expr} {loc : Location} (callee : Callee)
    (hargs : checkArgs fnType args loc y t = (.ok args', t')) :
    IsCall y t t' fnType callee.isVirtual (.call ⟨resultType t' fnType, loc⟩ callee args')
  | method {args args' : List Expr} {loc : Location} (label : String) {this : Expr} (hthis : t.isPointer this.type)
    (hargs : checkArgs fnType args loc y t = (.ok args', t')) :
    IsCall y t t' fnType true (.call ⟨resultType t' fnType, loc⟩ (.direct label) (this :: args'))

variable {y : Symbols} {t t' : TypeTable} {fnType result : TypeId} {params : List TypeId} {varargs object : Bool}
  {e : Expr} {callee : Callee} {C : Context} {s s' : Lowering.State} {v : Operand}

lemma isPointer_adjustPointer (h : t.isPointer e.type) (offset : Int) (loc : Location) :
    t.isPointer (adjustPointer e offset loc).type := by
  rw [adjustPointer]
  split <;> exact h

lemma isCall_methodCall (hthis : t.isPointer this.type) (id : StructId) (name : String)
    (isObject : Bool) (args : List Expr) (loc : Location) :
    Gives (methodCall this id name isObject args loc) y t fun e t' ↦ ∃ fnType, IsCall y t t' fnType true e := by
  have hadjusted : ∀ offset, t.isPointer (adjustPointer this offset loc).type := fun offset ↦
    isPointer_adjustPointer hthis offset loc
  refine .types ?_
  split
  · refine .ite (fun _ ↦ .bind fun _ t' hargs ↦ .types (.pure ⟨_, .method _ (hadjusted _) hargs⟩)) fun _ ↦ .types ?_
    split
    · exact Ensures.throw _
    · exact .bind fun _ t' hargs ↦ .types (.ite (fun _ ↦ .require fun _ ↦ .pure ⟨_, .method _ (hadjusted _) hargs⟩)
        fun _ ↦ .pure ⟨_, .plain (.virtualSlot _ _) hargs⟩)
  · exact .fault _ _

lemma isCall_call (callee : Expr) (args : List Expr) (loc : Location) :
    Gives (Grammar.call callee args loc) y t fun e t' ↦ ∃ t1 fnType, t.Extends t1 ∧ IsCall y t1 t' fnType false e := by
  have htyped : ∀ {t1 : TypeTable} (target : Callee) (fnType : TypeId), target.isVirtual = false → t.Extends t1 →
      Gives (do
        let fnType := (← get).unqualified fnType
        let args ← checkArgs fnType args loc
        return .call ⟨resultType (← get) fnType, loc⟩ target args) y t1 fun e t' ↦
          ∃ t1 fnType, t.Extends t1 ∧ IsCall y t1 t' fnType false e := by
    intro t1 target fnType htarget hgrow
    refine .types (.bind fun _ t' hargs ↦ .types (.pure ⟨t1, t1.unqualified fnType, hgrow, ?_⟩))
    exact htarget ▸ IsCall.plain target hargs
  refine .types ?_
  dsimp only
  split
  · exact .bind (.pure (htyped (.direct _) _ rfl (.refl t)))
  · refine .bind ((isArray_decay _).mono fun f t1 ⟨hgrow, _⟩ ↦ .types ?_)
    split
    · exact .ite (fun _ ↦ .bind (.pure (htyped (.indirect f) _ rfl hgrow))) fun _ ↦ .bind fun _ _ _ ↦ .bind (.fault _ _)
    · exact .bind fun _ _ _ ↦ .bind (.fault _ _)

lemma words_pointer {T : TypeTable} {ty : TypeId} (h : T.isPointer ty) : (Rep.ofType T ty).words = 1 := by
  unfold TypeTable.isPointer at h
  rw [Rep.ofType]
  cases hkind : T.kind ty <;> simp_all [Rep.words]

lemma reps_loweredAll (T : TypeTable) (args : List Expr) :
    (Expr.loweredAll args).map (fun a ↦ Rep.ofType T a.type) = args.map fun e ↦ Rep.ofType T e.type := by
  induction args with
  | nil => rfl
  | cons e args ih => rw [Expr.loweredAll, List.map_cons, List.map_cons, ih, e.lowered_type]

lemma object_of_callee {target : CallTarget} {this : Option Operand}
    (h : callee.lowered C s = .ok ((target, this), s')) : this.isSome = callee.isVirtual := by
  cases callee with
  | direct label =>
    cases h
    rfl
  | indirect e =>
    obtain ⟨v, _, -, h⟩ := lowerBind_eq_ok.mp h
    cases h
    rfl
  | virtualSlot receiver slot =>
    obtain ⟨v, _, -, h⟩ := lowerBind_eq_ok.mp h
    obtain ⟨p, _, -, h⟩ := lowerBind_eq_ok.mp h
    cases h
    rfl

lemma words_of_passes {type : TypeId} {args : List Expr} {values : List (Operand × Rep)}
    {result : Option (Place × Rep)} (h : Passes C s s' type callee.lowered (loweredAll args) v slot values result) :
    values.map (·.2.words) = (if C.types.returnsInMemory type then [1] else []) ++
      ((if callee.isVirtual then [1] else []) ++ args.map fun e ↦ (Rep.ofType C.types e.type).words) := by
  obtain ⟨_, _, this, passed, _, _, hpassed, hcallee, rfl, -⟩ := h.nodes
  have hargs : passed.map (·.2.words) = args.map fun e ↦ (Rep.ofType C.types e.type).words := by
    have hwords := congrArg (List.map Rep.words) ((reps_argValues hpassed).trans (reps_loweredAll C.types args))
    rwa [List.map_map, List.map_map] at hwords
  rw [List.map_append, List.map_append, hargs, ← object_of_callee hcallee, ← h.inMemory]
  cases slot <;> cases this <;> rfl

section

variable (h : IsCall y t t' fnType object e) (hkind : t.kind fnType = .function result params varargs)
  (hknown : ∀ p ∈ params, t.Known p)

include h hkind hknown

lemma IsCall.extends : t.Extends t' := by
  cases h with
  | plain _ hcheck | method _ _ hcheck => exact (gives_checkArgs hkind hknown _ _ _ _ hcheck).1

lemma IsCall.passes (hlater : t'.Extends C.types)
    (hsizes : ∀ p ∈ params, (C.types.sizeOf p).isSome) (hrun : e.lowered.value C s = .ok (v, s')) :
    ∃ i callee args slot values res, e = .call i callee args ∧ i.type = result ∧
      Passes C s s' i.type callee.lowered (loweredAll args) v slot values res ∧
      (if C.types.returnsInMemory result then [1] else []) ++ ((if object then [1] else []) ++
        params.map C.types.words) <+: values.map (·.2.words) := by
  have hargs : ∀ {args args' : List Expr} {loc : Location}, checkArgs fnType args loc y t = (.ok args', t') →
      t.Extends t' ∧ resultType t' fnType = result ∧
        params.map C.types.words <+: args'.map fun e ↦ (Rep.ofType C.types e.type).words := by
    intro args args' loc hrun
    obtain ⟨hgrow, hwords⟩ := gives_checkArgs hkind hknown args loc args' t' hrun
    refine ⟨hgrow, ?_, hwords _ hlater hsizes⟩
    rw [resultType, hgrow.kind (by simp [hkind]), hkind]
  cases h with
  | plain callee hcheck =>
    obtain ⟨-, hresult, hwords⟩ := hargs hcheck
    obtain ⟨_, _, hcalled, ⟨⟩⟩ := lowerBind_eq_ok.mp hrun
    obtain ⟨slot, values, res, hpasses⟩ := passes_called hcalled
    refine ⟨_, _, _, slot, values, res, rfl, hresult, hpasses, ?_⟩
    rw [words_of_passes hpasses, hresult]
    exact (List.prefix_append_right_inj _).mpr ((List.prefix_append_right_inj _).mpr hwords)
  | method label hthis hcheck =>
    obtain ⟨hgrow, hresult, hwords⟩ := hargs hcheck
    obtain ⟨_, _, hcalled, ⟨⟩⟩ := lowerBind_eq_ok.mp hrun
    obtain ⟨slot, values, res, hpasses⟩ := passes_called hcalled
    refine ⟨_, _, _, slot, values, res, rfl, hresult, hpasses, ?_⟩
    rw [words_of_passes hpasses, hresult, List.map_cons, words_pointer ((hgrow.trans hlater).isPointer hthis)]
    exact (List.prefix_append_right_inj _).mpr ((List.prefix_append_right_inj [1]).mpr hwords)

end

end Expr

lemma Grammar.Heading.length_names (h : Heading) (inMemory : Bool) (T : TypeTable) :
    (h.names inMemory).length = (h.words inMemory T).length := by
  simp only [Heading.names, Heading.words, paramNames, paramWords, List.length_append, List.length_map]
  split <;> split <;> rfl

/-- What a caller and a function have to agree on. -/
structure SharedArea (T : TypeTable) (fnType : TypeId) (h : Heading) (f : FunctionDef) (declared : Symbols)
    (slot : Option SlotId) (values : List (Operand × Rep)) (result : Option (Place × Rep)) : Prop where
  /-- Each parameter stands where the value for it is stored; its offset has thirty-two bits. -/
  params : List.Forall₂ (StandsAt declared) f.params
    (namedOffsets 0 (h.names f.hiddenResult) (values.map (·.2.words)))
  inMemory : slot.isSome = f.hiddenResult
  inRegisters : ∀ (n : Names) (label : Nat), n.types = T → result.map (·.2) = (f.context n label).result
  /-- A thunk moves the object, above the return address, and nothing else. -/
  object : h.owner.isSome → ∃ word,
    ("this", word) ∈ namedOffsets 0 (h.names f.hiddenResult) (values.map (·.2.words)) ∧
    ∀ (thunk : AdjustThunk), thunk.objectAt = AdjustThunk.objectOffset T fnType →
      ∀ (E : Surroundings) (ms : MachineState), ∃ (ms' : MachineState) (past : List MachineEvent),
        (thunk.function.code.process E fun _ ↦ true).Reaches ⟨.running (thunk.function.code, ms), []⟩
          ⟨.ended (.left thunk.target ms'.regs ms'.mem), past⟩ ∧
        ms'.sp = ms.sp ∧ ms'.mem = Function.update ms.mem (ms.sp + .ofNat 16 (1 + word))
          (ms.mem (ms.sp + .ofNat 16 (1 + word)) + .ofInt 16 thunk.adjust)

lemma TypeTable.Extends.returnsInMemory {t t' : TypeTable} {ty : TypeId} (h : t.Extends t')
    (hvoid : t.isVoid ty → t'.isVoid ty) : t'.returnsInMemory ty = t.returnsInMemory ty := by
  by_cases hkind : t.kind ty = .void
  · have hkind' : t'.kind ty = .void := by
      have hty := hvoid (by simp [isVoid, hkind])
      unfold isVoid at hty
      split at hty
      · assumption
      · cases hty
    simp [TypeTable.returnsInMemory, hkind, hkind']
  · rw [TypeTable.returnsInMemory, h.kind hkind, TypeTable.returnsInMemory]

/-- A caller and a function of the type that it calls agree on the argument area and on the result, however
the call comes to the function. The call and the definition are read in any order; the types that either of
them knows are still known when the call is lowered. -/
theorem Expr.IsCall.sharedArea {y : Symbols} {t t' : TypeTable} {fnType : TypeId} {varargs object : Bool} {e : Expr}
    {C : Context} {s s' : Lowering.State} {v : Operand} {R : Readers} {h : Heading} {r r' : Grammar.State}
    {f : FunctionDef} (hcall : IsCall y t t' fnType object e) (hrun : e.lowered.value C s = .ok (v, s'))
    (hdef : definition R h r = (.ok f, r'))
    (htype : t.kind fnType = .function h.result (h.params.map (·.type)) varargs) (hobject : h.owner.isSome = object)
    (hknown : ∀ p ∈ h.params, t.Known p.type) (hlater : t'.Extends C.types)
    (hkeeps : (parameters h r).2.types.Keeps C.types) (hvoid : r.types.isVoid h.result → C.types.isVoid h.result) :
    ∃ i callee args slot values result, e = .call i callee args ∧
      Passes C s s' i.type callee.lowered (Expr.loweredAll args) v slot values result ∧
      SharedArea C.types fnType h f (parameters h r).2.symbols slot values result := by
  obtain ⟨hiddenIds, this, params, r₁, hparams, hresult, hids, hhidden⟩ := exists_parameters hdef
  obtain ⟨hgrow, hempty, hall⟩ := ensures_parameters h _ _ hparams
  have hstate : (parameters h r).2 = r₁ := by rw [hparams]
  rw [hstate] at hkeeps ⊢
  have hsame := (hgrow.trans hkeeps.types).returnsInMemory hvoid
  have hmemory : f.hiddenResult = C.types.returnsInMemory h.result := by
    rw [hhidden, hempty, hsame, Bool.not_not]
  have hknown' : ∀ p ∈ h.params.map (·.type), t.Known p := by simpa using hknown
  obtain ⟨hsizes, hstand⟩ := hall C.types hkeeps
  rw [← hsame, ← hmemory, ← hids] at hstand
  obtain ⟨i, callee, args, slot, values, result, rfl, hi, hpasses, hwords⟩ :=
    hcall.passes htype hknown' hlater (by simpa using hsizes) hrun
  -- What a variable number of arguments adds is behind the last parameter.
  have hplaced : namedOffsets 0 (h.names f.hiddenResult) (values.map (·.2.words)) =
      namedOffsets 0 (h.names f.hiddenResult) (h.words f.hiddenResult C.types) := by
    refine namedOffsets_of_prefix ?_ (h.length_names f.hiddenResult C.types) 0
    rw [List.map_map] at hwords
    rwa [Heading.words, List.append_assoc, hobject, hmemory, paramWords]
  refine ⟨i, callee, args, slot, values, result, rfl, hpasses, ?_, ?_, ?_, ?_⟩
  · rw [hplaced]
    exact hstand
  · rw [hpasses.inMemory, hi, hmemory]
  · intro n label hn
    rw [hpasses.inRegisters, hi, FunctionDef.context, resultRep, hn, hresult, hmemory]
  · intro howner
    refine ⟨f.hiddenResult.toNat, ?_, fun thunk hthunk E ms ↦ ?_⟩
    · rw [hplaced, Heading.names, Heading.words, if_pos howner, if_pos howner]
      cases f.hiddenResult <;> simp [namedOffsets, starts, twoTo]
    · have hobjectAt : BitVec.ofInt 16 thunk.objectAt = BitVec.ofNat 16 (1 + f.hiddenResult.toNat) := by
        have hkind : C.types.kind fnType = _ :=
          (((hcall.extends htype hknown').trans hlater).kind (by simp [htype])).trans htype
        rw [hthunk, AdjustThunk.objectOffset, hkind, hmemory]
        dsimp only
        cases C.types.returnsInMemory h.result <;> rfl
      rw [← hobjectAt]
      exact thunk.reaches E ms

namespace ArgumentArea.Example

def types : TypeTable where
  types := TypeTable.initial.types ++
    #[.function .double [.int, .long] false, .struct ⟨0⟩, .pointer ⟨12⟩, .pointer .double]
  structs := #[{ name := "S", isUnion := false, loc := .builtin, complete := true, size := 1 }]

def virtualCall (args : List Expr) : Expr :=
  .call ⟨.double, .builtin⟩ (.virtualSlot (.var ⟨⟨13⟩, .builtin⟩ ⟨0⟩) 0) args

def context : Context where
  types := types
  symbols := { decls := #[⟨"p", .variable ⟨13⟩ .none (.param 0), .global, .builtin⟩] }

def start : Lowering.State where
  nextLabel := 0
  loc := .builtin

def heading : Heading where
  decl := ⟨0⟩
  label := "S__f"
  exported := true
  result := .double
  params := [⟨some "a", .int, .builtin⟩, ⟨some "b", .long, .builtin⟩]
  owner := some ⟨0⟩
  loc := .builtin

def readers : Readers := { Readers.exhausted with compound := return .block ⟨.global, .builtin⟩ [] }

def reading : Grammar.State := { tokens := .ofTokens [], types := types }

lemma keeps_parameters : (parameters heading reading).2.types.Keeps types where
  types := by
    have htypes : (parameters heading reading).2.types.types = types.types := by decide +kernel
    intro i x hx
    rwa [htypes] at hx
  structs id hid := by
    have hsize : (parameters heading reading).2.types.structs.size = 1 ∧
        ((parameters heading reading).2.types.structDef ⟨0⟩).size = 1 := by decide +kernel
    obtain ⟨i⟩ := id
    cases i with
    | zero => exact ⟨rfl, hsize.2.symm⟩
    | succ i => simp [TypeTable.structDef, hsize.1] at hid

end ArgumentArea.Example

open ArgumentArea.Example in
/-- The pointer to the result and the object are passed before what is written. -/
theorem Expr.IsCall.sharedArea_virtual : ∃ args v s' f r',
    checkArgs ⟨11⟩ [.ofInt 1 .builtin, .ofInt 2 .builtin] .builtin {} types = (.ok args, types) ∧
    (virtualCall args).lowered.value context start = .ok (v, s') ∧ definition readers heading reading = (.ok f, r') ∧
    ∃ i callee args' slot values result, virtualCall args = .call i callee args' ∧
      Passes context start s' i.type callee.lowered (Expr.loweredAll args') v slot values result ∧
      SharedArea types ⟨11⟩ heading f (parameters heading reading).2.symbols slot values result := by
  have hargs : checkArgs ⟨11⟩ [.ofInt 1 .builtin, .ofInt 2 .builtin] .builtin {} types =
      (.ok [.int ⟨.int, .builtin⟩ 1, .int ⟨.long, .builtin⟩ 2], types) := rfl
  have hrun : (virtualCall [.int ⟨.int, .builtin⟩ 1, .int ⟨.long, .builtin⟩ 2]).lowered.value context start =
      .ok (_, _) := rfl
  obtain ⟨f, r', hdef, -⟩ := Grammar.Example.exists_of_comesTo
    (show Grammar.Example.comesTo (definition readers heading) reading (fun _ _ ↦ true) by decide +kernel)
  refine ⟨_, _, _, f, r', hargs, hrun, hdef, ?_⟩
  refine IsCall.sharedArea (.plain _ hargs) hrun hdef rfl rfl ?_ (.refl _) keeps_parameters (fun h ↦ h)
  exact List.forall_mem_cons.mpr ⟨⟨nofun, nofun⟩, List.forall_mem_singleton.mpr ⟨nofun, nofun⟩⟩

end W16Compiler
