import W16Compiler.Proofs.Lowering.Tree
import W16Compiler.Lowering.Function
import Mathlib

/-!
# Calls are made in order

In what is written for a function every call that is started gets its arguments and is made before
anything else happens. This holds of every body, wherever it jumps.
-/

namespace W16Compiler.Lowering

open List Flow

/-! ## The regime -/

/-- The nodes that have been written lead to a point where so many words are reserved for a call. Some of them
have been there before. -/
structure Writes (before : List (Item Prim)) (area : Option Nat) (s : State) : Prop where
  calls : ∃ loc front, s.prims.toList = ⟨.entry, loc⟩ :: front ∧
    ∀ rest, Flow.Calls area rest → Flow.Calls none (front ++ rest)
  reachable : area.isSome → s.reachable
  keeps : before <+: s.prims.toList

def anyJumps (C : Context) : Discipline where
  label name := (C.labels.lookup name).map fun (_, scope) ↦ ([], scope)
  marker _ := some []
  here _ _ := True
  direct _ _ := True
  direct_refl _ := trivial
  here_refl _ := trivial
  jump _ _ _ _ := True
  returns _ _ := True
  tries _ _ _ _ := True

/-- Follows the words that are reserved for calls, in a context and behind nodes that stay. -/
def reserving (K : Context × List (Item Prim)) : Regime where
  context := K.1
  Notes := Unit
  Point := Option Nat
  order := inferInstance
  inside _ := none
  reserved _ n := some n
  Holds _ := Writes K.2
  At _ _ _ := True
  Fresh _ _ := True

variable {α : Type} {K : Context × List (Item Prim)} {C : Context} {c : Path} {s s' : State}
  {area area' : Option Nat} {x : LowerM α} {p : Prim} {code : LoweredStmt} {before : List (Item Prim)}

lemma Writes.similar (h : Writes before area s) (hprims : s'.prims = s.prims)
    (hreachable : s'.reachable = s.reachable) : Writes before area s' where
  calls := hprims ▸ h.calls
  reachable harea := hreachable ▸ h.reachable harea
  keeps := hprims ▸ h.keeps

lemma Writes.emitted (h : Writes before area s) (hnode : ∀ loc rest, Calls area' rest → Calls area (⟨p, loc⟩ :: rest))
    (hfalls : area'.isSome → p.fallsThrough) : Writes before area' (s.emitted p) := by
  obtain ⟨⟨loc, front, hprims, hcalls⟩, hreachable, hkeeps⟩ := h
  unfold State.emitted
  dsimp only
  split
  · refine ⟨⟨loc, front ++ [⟨p, some s.loc⟩], by simp [hprims], fun rest hrest ↦ ?_⟩, fun harea ↦ ?_,
      hkeeps.trans (by simp)⟩
    · rw [append_assoc]
      exact hcalls _ (hnode _ rest hrest)
    · simp [hfalls harea]
  · rename_i hnot
    -- Where words are reserved control gets on, so the label stands where none are.
    cases area with
    | some n => exact (hnot (by simp [hreachable rfl])).elim
    | none =>
      have hlabel : (Prim.label ⟨s.nextLabel⟩).IsPlain := ⟨⟨by simp [Prim.operands], by simp [Prim.dst]⟩, trivial⟩
      refine ⟨⟨loc, front ++ [⟨.label ⟨s.nextLabel⟩, some s.loc⟩, ⟨p, some s.loc⟩], by simp [hprims],
        fun rest hrest ↦ ?_⟩, fun harea ↦ ?_, hkeeps.trans (by simp)⟩
      · rw [append_assoc]
        exact hcalls _ (.plain hlabel (hnode _ rest hrest))
      · simp [hfalls harea]

namespace Reserving

variable {g : Unit} {todo : List TryId}

lemma emits (hnode : ∀ loc rest, Calls area' rest → Calls area (⟨p, loc⟩ :: rest))
    (hfalls : area'.isSome → p.fallsThrough) :
    (reserving K).Yields C g area todo (emit p) area' todo fun _ _ ↦ True := by
  intro s u s' _ hs hrun
  rw [emit_apply] at hrun
  cases hrun
  exact ⟨(), le_rfl, trivial, Writes.emitted hs hnode hfalls, trivial⟩

lemma plain (hp : p.IsPlain) : (reserving K).Yields C g (none : Option Nat) todo (emit p) none todo fun _ _ ↦ True :=
  emits (fun _ _ hrest ↦ .plain hp hrest) (fun h ↦ by cases h)

variable {post : α → Prop}

lemma keeps (hx : ∀ s a s', x C s = .ok (a, s') → s'.prims = s.prims ∧ s'.reachable = s.reachable ∧ post a) :
    (reserving K).Yields C g area todo x area todo fun _ a ↦ post a := by
  intro s a s' _ hs hrun
  obtain ⟨hprims, hreachable, hpost⟩ := hx s a s' hrun
  exact ⟨(), le_rfl, trivial, Writes.similar hs hprims hreachable, hpost⟩

lemma newLabel : (reserving K).Yields C g area todo newLabel area todo fun _ _ ↦ True := by
  refine keeps fun s a s' h ↦ ?_
  cases h
  exact ⟨rfl, rfl, trivial⟩

abbrev Closed (K : Context × List (Item Prim)) (C : Context) (x : LowerM α) (post : α → Prop) : Prop :=
  ∀ g todo left, (reserving K).Yields C g (none : Option Nat) todo x none left fun _ a ↦ post a

lemma Closed.of_runs (h : (reserving K).Runs C c ids g x fun _ a ↦ post a) : Closed K C x post :=
  fun _ _ _ s a s' _ hs hrun ↦ h () [] le_rfl s a s' trivial hs hrun

lemma Closed.bind {β : Type} {f : α → LowerM β} {post1 : α → Prop} {post : β → Prop} (hx : Closed K C x post1)
    (hf : ∀ a, post1 a → Closed K C (f a) post) : Closed K C (x >>= f) post :=
  fun g todo left ↦ (hx g todo left).bind fun g1 a _ ha ↦ hf a ha g1 left left

lemma Closed.pure (h : post a) : Closed K C (pure a) post :=
  fun _ _ _ s b s' _ hs hrun ↦ by
    cases hrun
    exact ⟨(), le_rfl, trivial, hs, h⟩

lemma Closed.ite {b : Bool} {y : LowerM α} (hx : Closed K C x post) (hy : Closed K C y post) :
    Closed K C (if b then x else y) post := by
  cases b with
  | true => exact hx
  | false => exact hy

lemma Closed.of_keeps (hx : ∀ s a s', x C s = .ok (a, s') → s'.prims = s.prims ∧ s'.reachable = s.reachable ∧ post a)
    : Closed K C x post :=
  fun _ _ _ s a s' _ hs hrun ↦ keeps hx s a s' trivial hs hrun

lemma Closed.silent (hx : Silent C x post) : Closed K C x post := .of_keeps fun s a s' hrun ↦ by
  obtain ⟨hsimilar, hpost⟩ := hx s a s' hrun
  exact ⟨hsimilar.prims, hsimilar.reachable, hpost⟩

lemma Closed.emit (hp : p.IsPlain) : Closed K C (emit p) fun _ ↦ True :=
  fun _ _ _ s a s' _ hs hrun ↦ plain hp s a s' trivial hs hrun

lemma closed_get : Closed K C get fun _ ↦ True := .of_keeps fun s a s' h ↦ by
  cases h
  exact ⟨rfl, rfl, trivial⟩

lemma closed_read : Closed K C read fun c ↦ c = C := .of_keeps fun s a s' h ↦ by
  cases h
  exact ⟨rfl, rfl, rfl⟩

lemma closed_modify (hprims : ∀ s, (f s).prims = s.prims)
    (hreachable : ∀ s, (f s).reachable = s.reachable) : Closed K C (modify f) fun _ ↦ True :=
  .of_keeps fun s a s' h ↦ by
    cases h
    exact ⟨hprims s, hreachable s, trivial⟩

lemma closed_newLabel : Closed K C Lowering.newLabel fun _ ↦ True := .of_keeps fun s a s' h ↦ by
  cases h
  exact ⟨rfl, rfl, trivial⟩

lemma closed_reachable : Closed K C reachable fun _ ↦ True := closed_get.bind fun _ _ ↦ .pure trivial

lemma isPlain_of_operands (hops : p.operands = []) (hdst : p.dst = none) (hkind : match p with
      | .entry | .callStart _ | .call .. | .assign .. => False
      | _ => True) : p.IsPlain := by
  cases p with
  | entry | callStart | call | assign => exact hkind.elim
  | _ => exact ⟨⟨by simp [hops], by simp [hdst]⟩, trivial⟩

lemma closed_mark (l : Label) : Closed K C (mark l) fun _ ↦ True := .emit (isPlain_of_operands rfl rfl trivial)

lemma closed_jump (l : Label) : Closed K C (jump l) fun _ ↦ True :=
  closed_reachable.bind fun _ _ ↦ .ite (.emit (isPlain_of_operands rfl rfl trivial)) (.pure trivial)

lemma closed_exitLabel (leaving : TryId) (target : Label) (scope : ScopeId) :
    Closed K C (exitLabel leaving target scope) fun _ ↦ True := by
  refine closed_get.bind fun s _ ↦ ?_
  split
  · exact .pure trivial
  · refine closed_newLabel.bind fun _ _ ↦ ?_
    exact Closed.bind (closed_modify (fun _ ↦ rfl) fun _ ↦ rfl) fun _ _ ↦ .pure trivial

lemma closed_crossing (source target : ScopeId) : Closed K C (crossing source target) fun _ ↦ True :=
  closed_read.bind fun _ _ ↦ .pure trivial

lemma closed_jumpTo (source : ScopeId) (target : Label) (scope : ScopeId) :
    Closed K C (jumpTo source target scope) fun _ ↦ True := by
  refine (closed_crossing source scope).bind fun _ _ ↦ ?_
  split
  · exact closed_jump target
  · exact (closed_exitLabel _ _ _).bind fun label _ ↦ closed_jump label

lemma closed_runCleanup (id : TryId) : Closed K C (runCleanup id) fun _ ↦ True := by
  refine closed_get.bind fun s _ ↦ ?_
  split
  · exact .pure trivial
  · refine closed_newLabel.bind fun resume _ ↦ ?_
    refine (Closed.emit (isPlain_of_operands rfl rfl trivial)).bind fun _ _ ↦ (closed_mark resume).bind fun _ _ ↦ ?_
    exact closed_modify (fun _ ↦ rfl) fun _ ↦ rfl

lemma closed_ret (h : ∀ v rep, value = some (v, rep) → v.IsFree) :
    Closed K C (Lowering.emit (.ret value)) fun _ ↦ True := by
  refine .emit ⟨⟨fun op hop ↦ ?_, fun d hd ↦ by cases hd⟩, trivial⟩
  cases value with
  | none => exact (not_mem_nil hop).elim
  | some value =>
    obtain ⟨v, rep⟩ := value
    rw [mem_singleton.mp hop]
    exact h v rep rfl

lemma closed_sharedReturn : Closed K C sharedReturn fun _ ↦ True := by
  refine closed_get.bind fun s _ ↦ ?_
  split
  · exact .pure trivial
  · refine closed_newLabel.bind fun _ _ ↦ ?_
    exact Closed.bind (closed_modify (fun _ ↦ rfl) fun _ ↦ rfl) fun _ _ ↦ .pure trivial

lemma closed_forM (h : ∀ a, o = some a → Closed K C (f a) fun _ ↦ True) : Closed K C (o.forM f) fun _ ↦ True := by
  cases o with
  | none => exact .pure trivial
  | some a => exact h a rfl

lemma closed_returnFrom (scope : ScopeId) (hvalue : ∀ v, value = some v → v.IsFree) :
    Closed K C (returnFrom scope value) fun _ ↦ True := by
  refine closed_read.bind fun c _ ↦ (closed_crossing _ _).bind fun _ _ ↦ ?_
  have hfree : ∀ v rep, (value.bind fun v ↦ c.result.map fun rep ↦ (v, rep)) = some (v, rep) → v.IsFree := by
    intro v rep h
    obtain ⟨w, hw, hrep⟩ := Option.bind_eq_some_iff.mp h
    obtain ⟨_, -, heq⟩ := Option.map_eq_some_iff.mp hrep
    cases heq
    exact hvalue v hw
  refine .ite (closed_ret hfree) ((closed_forM fun a ha ↦ ?_).bind fun _ _ ↦ ?_)
  · obtain ⟨v, rep⟩ := a
    refine (Closed.silent (silent_resultSlot rep)).bind fun slot _ ↦ .emit ?_
    exact (isOrdinary_assign (Place.isFree_slot slot 0) (hfree v rep ha)).isPlain
  · exact closed_sharedReturn.bind fun _ _ ↦ closed_jumpTo _ _ _

/-! ## Try statements -/

lemma closed_planTry (handled hasCleanup : Bool) : Closed K C (planTry handled hasCleanup) fun _ ↦ True := by
  refine .of_keeps fun s _ s' h ↦ ?_
  cases handled <;> cases hasCleanup <;> cases h <;> exact ⟨rfl, rfl, trivial⟩

lemma closed_leaveClause (id : TryId) (plan : TryPlan) (isProtected : Bool) :
    Closed K C (leaveClause id plan isProtected) fun _ ↦ True := by
  refine closed_reachable.bind fun b _ ↦ .ite ?_ (.pure trivial)
  cases isProtected with
  | false => exact closed_jump plan.after
  | true =>
    refine (Closed.emit (isPlain_of_operands rfl rfl trivial)).bind fun _ _ ↦ ?_
    exact (closed_runCleanup id).bind fun _ _ ↦ closed_jump plan.after

lemma isPlain_catchEntry (hdst : dst.IsFree) : (Prim.catchEntry l (some dst)).IsPlain := by
  refine ⟨⟨by simp [Prim.operands], fun d hd ↦ ?_⟩, trivial⟩
  cases hd
  exact hdst

lemma closed_writeHandler (id : TryId) (plan : TryPlan) (var : DeclId)
    (hcode : Closed K C code.run fun _ ↦ True) : Closed K C (writeHandler id plan var code) fun _ ↦ True := by
  refine (Closed.silent (silent_locate _)).bind fun _ _ ↦ (Closed.silent (silent_variablePlace var)).bind fun p hp ↦ ?_
  refine (Closed.emit (isPlain_catchEntry hp)).bind fun _ _ ↦ (closed_forM fun a _ ↦ ?_).bind fun _ _ ↦ ?_
  · exact .emit (isPlain_of_operands rfl rfl trivial)
  · exact hcode.bind fun _ _ ↦ closed_leaveClause _ _ _

lemma closed_writeCleanup (id : TryId) (finish : Label × SlotId × Label)
    (hcode : Closed K C code.run fun _ ↦ True) : Closed K C (writeCleanup id finish code) fun _ ↦ True := by
  obtain ⟨_, _, _⟩ := finish
  refine (Closed.silent (silent_locate _)).bind fun _ _ ↦ (Closed.silent (silent_newSlot _ _)).bind fun slot _ ↦ ?_
  have hp : (Place.slot slot 0).IsFree := Place.isFree_slot slot 0
  have hthrow : (Prim.throwValue (.load (.slot slot 0))).IsOrdinary :=
    ⟨rfl, by simp [Prim.operands, hp.load], by simp [Prim.dst]⟩
  refine (Closed.emit (isPlain_catchEntry hp)).bind fun _ _ ↦ (closed_runCleanup id).bind fun _ _ ↦ ?_
  refine (Closed.emit hthrow.isPlain).bind fun _ _ ↦ ?_
  refine (Closed.emit (isPlain_of_operands rfl rfl trivial)).bind fun _ _ ↦ hcode.bind fun _ _ ↦ ?_
  exact .emit (isPlain_of_operands rfl rfl trivial)

end Reserving

open Reserving

lemma lawful_reserving (K : Context × List (Item Prim)) : (reserving K).Lawful (anyJumps K.1) where
  at_mono _ _ := trivial
  similar h hs := Writes.similar h hs.prims hs.reachable
  newLabel _ := Reserving.newLabel
  emit hnode _ := Reserving.plain hnode.isPlain
  mark _ _ := Reserving.plain (isPlain_of_operands rfl rfl trivial)
  callStart n := emits (fun _ _ hrest ↦ .start hrest) fun _ ↦ rfl
  argument hw hsrc := emits (fun _ _ hrest ↦ .argument hw hsrc hrest) fun _ ↦ rfl
  call hp := emits (fun _ _ hrest ↦ .call hp hrest) fun h ↦ by cases h
  jumpTo _ _ _ := closed_jumpTo _ _ _ _ _ _
  returnFrom _ _ hvalue := closed_returnFrom _ hvalue _ _ _
  tryStatement := by
    intro C g c i id body handler cleanup b h k _ _ hbody hhandler hcleanup
    suffices hclosed : Closed K C (tryStatement i id body handler cleanup) fun _ ↦ True from
      fun g left _ ↦ hclosed g _ left
    refine (closed_planTry _ _).bind fun plan _ ↦ Closed.bind (closed_modify (fun _ ↦ rfl) fun _ ↦ rfl) fun _ _ ↦ ?_
    refine (Closed.emit (isPlain_of_operands rfl rfl trivial)).bind fun _ _ ↦
      (Closed.of_runs hbody.run).bind fun _ _ ↦ ?_
    refine (closed_leaveClause id plan true).bind fun _ _ ↦ (closed_forM fun a ha ↦ ?_).bind fun _ _ ↦
      (closed_forM fun code hcode ↦ closed_forM fun finish _ ↦ ?_).bind fun _ _ ↦ closed_mark plan.after
    · obtain ⟨var, code⟩ := a
      exact closed_writeHandler id plan var (.of_runs (hhandler var code ha).run)
    · exact closed_writeCleanup id finish (.of_runs (hcleanup code hcode).run)

/-! ## Functions -/

lemma Reserving.closed_writeExit (e : Exit) : Closed K C (writeExit e) fun _ ↦ True := by
  refine closed_get.bind fun s _ ↦ ?_
  split
  · exact fun _ _ _ _ _ _ _ _ hrun ↦ by cases hrun
  · refine (closed_mark _).bind fun _ _ ↦ (Closed.emit (isPlain_of_operands rfl rfl trivial)).bind fun _ _ ↦ ?_
    exact (closed_runCleanup _).bind fun _ _ ↦ closed_jumpTo _ _ _

lemma Reserving.closed_writeExits (fuel : Nat) : Closed K C (writeExitsWithin fuel) fun _ ↦ True := by
  induction fuel with
  | zero => exact fun _ _ _ _ _ _ _ _ hrun ↦ by cases hrun
  | succ fuel ih =>
    refine closed_get.bind fun s _ ↦ ?_
    split
    · exact .pure trivial
    · refine Closed.bind (closed_modify (fun _ ↦ rfl) fun _ ↦ rfl) fun _ _ ↦ ?_
      exact (closed_writeExit _).bind fun _ _ ↦ ih

lemma Reserving.closed_close : Closed K C close fun _ ↦ True := by
  have hexits : Closed K C writeExits fun _ ↦ True :=
    closed_read.bind fun _ _ ↦ closed_get.bind fun _ _ ↦ closed_writeExits _
  have hreturn : Closed K C writeReturn fun _ ↦ True := by
    refine closed_get.bind fun s _ ↦ closed_read.bind fun c _ ↦ closed_forM fun label _ ↦ ?_
    refine (closed_mark label).bind fun _ _ ↦ closed_ret fun v rep h ↦ ?_
    obtain ⟨slot, -, hrep⟩ := Option.bind_eq_some_iff.mp h
    obtain ⟨_, -, heq⟩ := Option.map_eq_some_iff.mp hrep
    cases heq
    exact Place.isFree_slot slot 0
  refine closed_reachable.bind fun b _ ↦ ?_
  cases b with
  | false => exact hexits.bind fun _ _ ↦ hreturn
  | true => exact (closed_ret fun v rep h ↦ by cases h).bind fun _ _ ↦ hexits.bind fun _ _ ↦ hreturn

lemma calls_map {flow : Flow} {f : Item Prim → Item Prim}
    (hf : ∀ p, f p = p ∨ ∃ link resumes resumes', p.value = .cleanupReturn link resumes ∧
      (f p).value = .cleanupReturn link resumes') (h : flow.Calls area) : Calls area (flow.map f) := by
  induction h with
  | nil => exact .nil
  | @plain p _ hp _ ih =>
    rw [map_cons]
    rcases hf p with heq | ⟨link, resumes, resumes', -, heq⟩
    · rw [heq]
      exact .plain hp ih
    · refine .plain ?_ ih
      rw [heq]
      exact isPlain_of_operands rfl rfl trivial
  | @start n loc _ _ ih =>
    rw [map_cons, (hf ⟨.callStart n, loc⟩).resolve_right fun ⟨_, _, _, h, _⟩ ↦ by cases h]
    exact .start ih
  | @argument _ w rep src loc _ hw hsrc _ ih =>
    rw [map_cons, (hf ⟨.assign rep (.arg w) src, loc⟩).resolve_right fun ⟨_, _, _, h, _⟩ ↦ by cases h]
    exact .argument hw hsrc ih
  | @call n target result loc _ hp _ ih =>
    rw [map_cons, (hf ⟨.call target n result, loc⟩).resolve_right fun ⟨_, _, _, h, _⟩ ↦ by cases h]
    exact .call hp ih

lemma writes_entry {loc : Location} : Writes [] none (State.emitted { nextLabel, loc } .entry) :=
  ⟨⟨some loc, [], rfl, fun _ hrest ↦ hrest⟩, (fun harea ↦ by cases harea), nil_prefix⟩

lemma calls_written {label : String} {exported : Bool} {loc : Location} {body : LowerM Unit} {nextLabel next : Nat}
    {f : PrimFunction} (hbody : Closed (C, []) C body fun _ ↦ True)
    (h : written C label exported loc body nextLabel = .ok (f, next)) :
    ∃ loc rest, f.prims = ⟨.entry, loc⟩ :: rest ∧ Calls none rest := by
  obtain ⟨⟨u, s⟩, hrun, hf⟩ := bind_eq_ok.mp h
  cases hf
  have hcode : Closed (C, []) C (do body; close) fun _ ↦ True := hbody.bind fun _ _ ↦ closed_close
  obtain ⟨_, _, _, hs, _⟩ := hcode () [] [] _ u s trivial writes_entry hrun
  obtain ⟨⟨loc', front, hprims, hcalls⟩, -⟩ := hs
  have hfront : Calls none front := by simpa using hcalls [] .nil
  refine ⟨loc', _, by rw [State.resolved, hprims, map_cons], calls_map (fun p ↦ ?_) hfront⟩
  split
  · exact .inr ⟨_, _, _, ‹_›, rfl⟩
  · exact .inl rfl

lemma follows_reserving (hK : K.1.breakables = []) : Follows (reserving K) (anyJumps K.1) K.1 [] () where
  fits := rfl
  breakables := hK ▸ .nil
  labels name l scope hl := ⟨[], by simp [anyJumps, hl], trivial⟩
  cases _ _ _ := ⟨[], rfl, trivial⟩

lemma allows_anyJumps (x : Site) : (anyJumps C).Allows x := by
  unfold Discipline.Allows
  split <;> simp [anyJumps]

end W16Compiler.Lowering

namespace W16Compiler

open Lowering Reserving

section

variable {K : Context × List (Item Prim)}

lemma StructDef.isFree_member (offset : Nat) : (StructDef.member offset).IsFree :=
  (Place.isFree_param 0).load.indirect offset

lemma closed_assignTo (hK : K.1.breakables = []) (e : Expr) (hdst : dst.IsFree) :
    Closed K K.1 (e.lowered.assignTo dst) fun _ ↦ True := by
  have L := lawful_reserving K
  have hsound := e.sound L (c := []) (follows_reserving hK) fun x _ ↦ allows_anyJumps x
  exact .of_runs (L.assignTo hsound hdst)

lemma closed_run (hK : K.1.breakables = []) (s : Stmt) : Closed K K.1 s.lowered.run fun _ ↦ True := by
  have L := lawful_reserving K
  have hsound := s.sound L (c := []) (follows_reserving hK) fun x _ ↦ allows_anyJumps x
  exact .of_runs hsound.run

lemma closed_callForMember (label : String) (offset : Nat) :
    Closed K K.1 (StructDef.callForMember label offset) fun _ ↦ True := by
  have L := lawful_reserving K
  have hruns : (reserving K).Runs K.1 [] [] () (StructDef.callForMember label offset) fun _ _ ↦ True :=
    (L.addresses (StructDef.isFree_member offset)).first fun _ v _ hv ↦ L.callsWithPointer hv
  exact .of_runs hruns

end

end W16Compiler
