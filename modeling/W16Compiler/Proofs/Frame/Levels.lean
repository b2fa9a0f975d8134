import W16Compiler.Proofs.Frame.Paths
import W16Compiler.Proofs.Select.Positions

/-!
# Levels of the stack

In the code of a function whose calls are made in order the stack pointer has one of a few levels at
every place: that of the caller before the frame is made and after it is given up, that of the frame,
and below it the words that are reserved for the arguments of a call. A path keeps to these levels.
-/

namespace W16Compiler.Frame

open Select List BitVec Instr

inductive Level where
  | outer
  | frame
  | reserved (n : Nat)
  | handler

def Level.Holds (frame : Nat) (top : Word) (v : Visit) : Level → Prop
  | .outer => v.state.sp = top
  | .frame => v.state.sp = top - .ofNat 16 frame
  | .reserved n => v.state.sp = top - .ofNat 16 frame - .ofNat 16 n ∧ v.area = some (v.state.sp, n)
  | .handler => True

inductive Level.Leaves : Level → Prim → Instr → Level → Prop where
  | enter : Leaves .outer .entry (.addImm .sp .sp (.frame (-1))) .frame
  | exit (value : Option (Operand × Rep)) : Leaves .frame (.ret value) (.addImm .sp .sp (.frame 1)) .outer
  | start (n : Nat) : Leaves .frame (.callStart n) (.addImm .sp .sp (.num (wrap32 (-n)))) (.reserved n)
  | release (target : CallTarget) (n : Nat) (result : Option (Place × Rep)) :
    Leaves (.reserved n) (.call target n result) (.addImm .sp .sp (.num (wrap32 n))) .frame
  | restore (value : Operand) : Leaves .frame (.throwValue value) (.load .sp .r1 (.num 2)) .handler
  | keep {level : Level} {p : Prim} {i : Instr} (hi : i.result ≠ some .sp) (hp : ∀ n, p ≠ .callStart n) :
    Leaves level p i level

def Level.Argument (level : Level) (p : Prim) (k : Int) : Prop :=
  ∃ n rep w src j, level = .reserved n ∧ p = .assign rep (.arg w) src ∧ j < rep.words ∧ w + rep.words ≤ n ∧
    k = wrap32 (wrap32 w + (j : Nat))

/-- An instruction may stand at a level. -/
structure Level.Fits (level : Level) (p : Prim) (i : Instr) : Prop where
  ret : ∀ wide, i = .ret wide → level = .outer
  labels : i.labelRefs ≠ [] → level = .frame
  argument : ∀ k, i.result ≠ some .sp → i.argWord = some k → level.Argument p k

def Levels : Level → List (Prim × Instr) → Prop
  | _, [] => True
  | level, (p, i) :: rest => level.Fits p i ∧ (i.fallsThrough → ∃ level', level.Leaves p i level' ∧ Levels level' rest)

def Entered (tags : List (Prim × Instr)) : Prop :=
  ∀ p i rest, (p, i) :: rest <:+ tags → i.definedLabel ≠ none → Levels .frame ((p, i) :: rest)

/-! ## Levels along a path -/

section

variable {E : Surroundings} {offsets : List (Option Nat)} {frame : Nat} {ds : Array (Option Int)}
  {whole rest found : List Laid} {top : Word} {v : Visit} {i : Laid} {l : Label} {level level' : Level}
  {past : List MachineEvent} {ms : MachineState}

def Laid.tag (i : Laid) : Prim × Instr := (i.node, i.instr)

/-- Where a path leads, the level is known, and handlers are entered at that of the frame. -/
structure Levelled (frame : Nat) (top : Word) (rest : List Laid) (v : Visit) : Prop where
  here : ∃ level : Level, level.Holds frame top v ∧ Levels level (rest.map Laid.tag)
  saved : ∀ l sp, (l, sp) ∈ v.saved → sp = top - .ofNat 16 frame

lemma tracksStack_of_result {i : Instr} (h : i.result ≠ some .sp) (frame : Nat) :
    tracksStack i ∧ i.stackEffect frame = 0 := by
  cases i with
  | addImm rd base d =>
    have hrd : rd ≠ .sp := fun heq ↦ h (by rw [heq]; rfl)
    refine ⟨by simp [tracksStack, hrd], ?_⟩
    cases rd <;> first | rfl | exact (hrd rfl).elim
  | alu op rd | unary op rd | loadImm rd | loadSymbol rd | loadLabel rd | load rd =>
    have hrd : rd ≠ .sp := fun heq ↦ h (by rw [heq]; rfl)
    exact ⟨by simp [tracksStack, hrd], rfl⟩
  | _ => exact ⟨rfl, rfl⟩

variable {offset : SlotId → Option Nat}

lemma Level.Leaves.holds (h : level.Leaves i.node i.instr level') (hlevel : level.Holds frame top v)
    (hact : (i.instr.act (framed E offset frame top) (fun _ ↦ true) v.past v.state).2 = .next ms1)
    (hsp : ms.sp = ms1.sp) : level'.Holds frame top ⟨past, ms, i.saves v, i.reserves v ms⟩ := by
  have hmoved : tracksStack i.instr → ms.sp = v.state.sp - .ofInt 16 (i.instr.stackEffect frame) :=
    fun htracks ↦ hsp.trans (sp_of_next htracks hact)
  have hframe : BitVec.ofInt 16 (frame : Int) = BitVec.ofNat 16 frame := BitVec.ofInt_natCast ..
  obtain ⟨node, instr, code⟩ := i
  cases h with
  | enter =>
    have hout : v.state.sp = top := hlevel
    have heffect := hmoved rfl
    rw [Instr.stackEffect, ofInt_wrap32, Int.neg_neg, Int.one_mul, hframe, hout] at heffect
    exact heffect
  | exit value =>
    have hin : v.state.sp = top - .ofNat 16 frame := hlevel
    have heffect := hmoved rfl
    rw [stackEffect, ofInt_wrap32, Int.neg_mul, Int.one_mul, ofInt_neg, hframe, hin] at heffect
    rw [Level.Holds, heffect]
    grind
  | start n =>
    have hin : v.state.sp = top - .ofNat 16 frame := hlevel
    have heffect := hmoved rfl
    rw [stackEffect, ofInt_wrap32, ofInt_neg, ofInt_wrap32, ofInt_neg, neg_neg, ofInt_natCast, hin] at heffect
    exact ⟨heffect, rfl⟩
  | release target n result =>
    obtain ⟨hin, -⟩ : v.state.sp = top - .ofNat 16 frame - .ofNat 16 n ∧ _ := hlevel
    have heffect := hmoved rfl
    rw [stackEffect, ofInt_wrap32, ofInt_neg, ofInt_wrap32, ofInt_natCast, hin] at heffect
    rw [Level.Holds, heffect]
    grind
  | restore => trivial
  | keep hi hp =>
    obtain ⟨htracks, hzero⟩ := tracksStack_of_result hi frame
    have heffect : ms.sp = v.state.sp := by
      rw [hmoved htracks, hzero]
      exact BitVec.sub_zero _
    have harea : Laid.reserves ⟨node, instr, code⟩ v ms = v.area := by
      cases node <;> first | rfl | exact (hp _ rfl).elim
    cases level with
    | outer | frame => exact heffect.trans hlevel
    | reserved n =>
      obtain ⟨hin, hreserved⟩ := hlevel
      exact ⟨heffect.trans hin, by rw [harea, hreserved, heffect]⟩
    | handler => trivial

section

variable (h : Levelled frame top (i :: rest) v)
  (hsame : SameEffect (perform E v.past v.state i.code) (perform (framed E offset frame top) v.past v.state [i.instr]))

include h hsame

lemma Levelled.next (hrun : perform E v.past v.state i.code = (past, .next ms)) :
    Levelled frame top rest ⟨past, ms, i.saves v, i.reserves v ms⟩ := by
  obtain ⟨ms1, hact, hsp⟩ := hsame.next hrun
  obtain ⟨⟨level, hlevel, hfits, hnext⟩, hsaved⟩ := h
  obtain ⟨level', hleaves, hrest⟩ := hnext (fallsThrough_of_act hact)
  refine ⟨⟨level', hleaves.holds hlevel hact hsp, hrest⟩, fun l sp hmem ↦ ?_⟩
  simp only [Laid.saves] at hmem
  split at hmem
  · rename_i rd l' short hinstr
    rcases mem_cons.mp hmem with heq | hmem
    · cases heq
      have hlabels : i.instr.labelRefs ≠ [] := by simp [hinstr, labelRefs]
      have hframe := hfits.labels hlabels
      subst hframe
      exact hlevel
    · exact hsaved l sp hmem
  · exact hsaved l sp hmem

lemma Levelled.goto
    (hentered : Entered (whole.map Laid.tag)) (hrun : perform E v.past v.state i.code = (past, .goto l ms))
    (hl : l ∈ i.instr.successors ∨ (l, ms.sp) ∈ v.saved)
    (hfound : seekLabel (·.instr.definedLabel) l whole = some found) :
    Levelled frame top found ⟨past, ms, v.saved, v.area⟩ := by
  have hact := hsame.goto hrun
  obtain ⟨⟨_, hlevel, hfits, -⟩, hsaved⟩ := h
  have hsp : ms.sp = top - .ofNat 16 frame := by
    rcases hl with hl | hmem
    · have hframe := hfits.labels (ne_nil_of_mem (mem_labelRefs hl))
      subst hframe
      exact (sp_of_goto hl hact).1.trans hlevel
    · exact hsaved l ms.sp hmem
  refine ⟨⟨.frame, hsp, ?_⟩, hsaved⟩
  obtain ⟨j, tail, rfl, hj⟩ := seekLabel_head hfound
  have hsuffix : (j :: tail).map Laid.tag <:+ whole.map Laid.tag := (seekLabel_suffix hfound).map _
  exact hentered j.node j.instr (tail.map Laid.tag) hsuffix (by simp [hj])

end

lemma Visits.levelled {start : MachineState} (h : Visits E whole start rest v)
    (hlaid : LaidAt offsets frame ds whole) (hlevels : Levels .outer (whole.map Laid.tag))
    (hentered : Entered (whole.map Laid.tag)) : Levelled frame start.sp rest v := by
  induction h with
  | entry => exact ⟨⟨.outer, rfl, hlevels⟩, fun l sp hmem ↦ (not_mem_nil hmem).elim⟩
  | next hbefore hrun ih => exact ih.next ((hbefore.tracked hlaid).sameEffect hlaid) hrun
  | goto hbefore hrun hl hfound ih => exact ih.goto ((hbefore.tracked hlaid).sameEffect hlaid) hentered hrun hl hfound

end

/-! ## Levels of selected code -/

/-- The instructions of nodes, each with its node. -/
inductive Tagged : Flow → List (Prim × Instr) → Prop where
  | nil : Tagged [] []
  | cons {p : Item Prim} {rest : Flow} {instrs : Instrs} {tags : List (Prim × Instr)} {slots slots' : Array Slot}
    (h : selectPrim p.value slots = .ok (instrs, slots')) (hrest : Tagged rest tags) :
    Tagged (p :: rest) (instrs.map (p.value, ·) ++ tags)

lemma exists_tagged {code : Code}
    (h : Selected slots flow code slots') : ∃ tags, Tagged flow tags ∧ tags.map (·.2) = code.map (·.value) := by
  induction h with
  | nil => exact ⟨[], .nil, rfl⟩
  | cons hp _ ih =>
    obtain ⟨_, htags, hmap⟩ := ih
    refine ⟨_, .cons hp htags, ?_⟩
    simp [hmap, Function.comp_def]

section

variable {level : Level} {p : Prim} {i : Instr} {code : Instrs} {tags : List (Prim × Instr)}

/-- An instruction that may stand at a level and does not leave it. -/
def Level.Keeps (level : Level) (p : Prim) (i : Instr) : Prop := level.Fits p i ∧ i.result ≠ some .sp

lemma levels_append (hp : ∀ n, p ≠ .callStart n) (hcode : ∀ i ∈ code, level.Keeps p i)
    (h : Levels level tags) : Levels level (code.map (p, ·) ++ tags) := by
  induction code with
  | nil => exact h
  | cons i code ih =>
    obtain ⟨hfits, hresult⟩ := hcode i mem_cons_self
    exact ⟨hfits, fun _ ↦ ⟨level, .keep hresult hp, ih fun j hj ↦ hcode j (mem_cons_of_mem i hj)⟩⟩

lemma Level.Keeps.of_inner (hi : InnerInstr (level.Argument p) i) : level.Keeps p i := by
  obtain ⟨_, hargs⟩ := hi
  refine ⟨⟨?_, ?_, fun k _ ↦ hargs k⟩, ?_⟩ <;> cases i <;> simp_all [isInner, labelRefs, successors, result]

/-- An instruction that may stand at the level of the frame: it neither returns nor moves the stack
pointer nor reaches an argument. -/
def isSteady (i : Instr) : Bool :=
  i.result != some .sp && i.argWord.isNone && match i with
    | .ret _ => false
    | _ => true

lemma Level.Fits.of_steady (h : isSteady i) (hlabels : i.labelRefs = [] ∨ level = .frame) : level.Fits p i := by
  simp only [isSteady, Bool.and_eq_true] at h
  obtain ⟨⟨-, hnone⟩, hret⟩ := h
  refine ⟨?_, fun hne ↦ hlabels.resolve_left hne, fun k _ hk ↦ ?_⟩
  · rintro _ rfl
    cases hret
  · rw [hk] at hnone
    cases hnone

lemma Level.Keeps.of_steady (h : isSteady i) : Level.frame.Keeps p i := by
  refine ⟨.of_steady h (.inr rfl), ?_⟩
  simp only [isSteady, Bool.and_eq_true, bne_iff_ne] at h
  exact h.1.1

lemma levels_inner (hp : ∀ n, p ≠ .callStart n) (hcode : Inner (level.Argument p) code)
    (h : Levels level tags) : Levels level (code.map (p, ·) ++ tags) :=
  levels_append hp (fun i hi ↦ .of_inner (hcode i hi)) h

lemma levels_steady (hp : ∀ n, p ≠ .callStart n) (hcode : code.all isSteady) (h : Levels .frame tags) :
    Levels .frame (code.map (p, ·) ++ tags) :=
  levels_append hp (fun i hi ↦ .of_steady (all_eq_true.mp hcode i hi)) h

lemma Level.Fits.of_result (hresult : i.result = some .sp) (hlabels : i.labelRefs = []) : level.Fits p i where
  ret := by
    rintro _ rfl
    cases hresult
  labels h := (h hlabels).elim
  argument k h := (h hresult).elim

lemma levels_plain (h : selectPrim p slots = .ok (code, slots')) (hp : p.IsPlain)
    (ht : Levels .frame tags) : Levels .frame (code.map (p, ·) ++ tags) := by
  obtain ⟨htouches, hkind⟩ := hp
  have hargs : p.Touches (Level.frame.Argument p) := htouches.mono fun _ hk ↦ hk.elim
  have hstart : ∀ n, p ≠ .callStart n := by
    rintro n rfl
    exact hkind
  cases selectPrim_shape h hargs with
  | entry | callStart | call => exact hkind.elim
  | label | cleanupEntry | jump | tryBegin | tryEnd | cleanupCall | cleanupReturn => exact levels_steady hstart rfl ht
  | compare hpre | test hpre =>
    rw [List.map_append, List.append_assoc]
    exact levels_inner hstart hpre (levels_steady hstart rfl ht)
  | pure _ hcode => exact levels_inner hstart hcode ht
  | ret hload =>
    rw [List.map_append, List.append_assoc]
    refine levels_inner hstart hload ⟨.of_result rfl rfl, fun _ ↦ ⟨.outer, .exit _, ?_, ?_⟩⟩
    · exact ⟨fun _ _ ↦ rfl, fun hne ↦ (hne rfl).elim, fun k _ hk ↦ by cases hk⟩
    · intro hfalls
      cases hfalls
  | throwValue hpre =>
    rw [List.map_append, List.append_assoc]
    refine levels_inner hstart hpre ⟨.of_result rfl rfl, fun _ ↦ ⟨.handler, .restore _, ?_⟩⟩
    refine ⟨.of_steady rfl (.inl rfl), fun _ ↦ ⟨.handler, .keep (by decide) hstart, ?_, fun hfalls ↦ ?_⟩⟩
    · exact .of_steady rfl (.inl rfl)
    · cases hfalls
  | catchEntry hstore =>
    exact ⟨.of_steady rfl (.inl rfl), fun _ ↦ ⟨.frame, .keep (by simp [result]) hstart, levels_inner hstart hstore ht⟩⟩

end

def Level.ofArea : Option Nat → Level
  | none | some 0 => .frame
  | some (n + 1) => .reserved (n + 1)

lemma entered_append {p : Prim} {code : Instrs} {tags : List (Prim × Instr)} (hcode : Unlabelled code)
    (h : Entered tags) : Entered (code.map (p, ·) ++ tags) := by
  induction code with
  | nil => exact h
  | cons i code ih =>
    obtain ⟨hi, hrest⟩ := unlabelled_cons.mp hcode
    intro q j rest hsuffix hj
    rcases suffix_cons_iff.mp hsuffix with heq | hsuffix
    · cases heq
      exact (hj hi).elim
    · exact ih hrest q j rest hsuffix hj

lemma levels_of_calls {tags : List (Prim × Instr)}
    (h : flow.Calls area) (htags : Tagged flow tags) : Levels (.ofArea area) tags ∧ Entered tags := by
  induction h generalizing tags with
  | nil =>
    cases htags
    exact ⟨trivial, fun p i _ hsuffix ↦ by simp at hsuffix⟩
  | plain hp _ ih =>
    cases htags with
    | cons hselect htags =>
      obtain ⟨hlevels, hentered⟩ := ih htags
      have hall := levels_plain hselect hp hlevels
      refine ⟨hall, ?_⟩
      rcases (selectPrim_shape hselect (Prim.touches_all _)).labels with
        ⟨l, liveIn, tail, -, rfl, htail⟩ | ⟨-, hcode⟩
      · intro q j behind hsuffix hj
        rcases suffix_cons_iff.mp hsuffix with heq | hsuffix
        · rw [heq]
          exact hall
        · exact entered_append htail hentered q j behind hsuffix hj
      · exact entered_append hcode hentered
  | @start n _ _ _ ih =>
    cases htags with
    | cons hselect htags =>
      obtain ⟨hlevels, hentered⟩ := ih htags
      cases hselect
      cases n with
      | zero => exact ⟨hlevels, hentered⟩
      | succ n =>
        refine ⟨⟨.of_result rfl rfl, fun _ ↦ ⟨_, .start (n + 1), hlevels⟩⟩, ?_⟩
        exact entered_append (by simp [definedLabel]) hentered
  | @argument n w rep src _ _ hw hsrc _ ih =>
    cases htags with
    | cons hselect htags =>
      obtain ⟨hlevels, hentered⟩ := ih htags
      have hdst : ∀ i, i < rep.words →
          (Place.arg w).Touches ((Level.ofArea (some n)).Argument (.assign rep (.arg w) src)) i := by
        intro i hi
        cases n with
        | zero => omega
        | succ n => exact ⟨n + 1, rep, w, src, i, rfl, rfl, hi, hw, rfl⟩
      have hinner := (delivers_assign (.inl trivial) hdst (hsrc.touches _)).of_eq (lift_eq_ok.mp hselect).1
      exact ⟨levels_inner (fun _ h ↦ by cases h) hinner hlevels, entered_append hinner.unlabelled hentered⟩
  | @call n target result _ _ hp _ ih =>
    cases htags with
    | @cons _ _ _ tags _ _ hselect htags =>
      obtain ⟨hlevels, hentered⟩ := ih htags
      have hstart : ∀ k, Prim.call target n result ≠ .callStart k := fun _ h ↦ by cases h
      cases selectPrim_shape hselect hp with
      | pure hpure => cases hpure
      | @call _ _ _ pre store hpre hstore =>
        have hback : Levels .frame (store.map (Prim.call target n result, ·) ++ tags) :=
          levels_inner hstart (hstore.mono fun _ hk ↦ hk.elim) hlevels
        have hunlabelled : Unlabelled (pre ++ ((if n > 0 then [.addImm .sp .sp (.num (wrap32 n))] else []) ++ store)) := by
          split <;> simp [hpre.unlabelled, hstore.unlabelled, definedLabel]
        refine ⟨?_, entered_append hunlabelled hentered⟩
        rw [List.map_append, List.append_assoc]
        refine levels_inner hstart (hpre.mono fun _ hk ↦ hk.elim) ?_
        cases n with
        | zero => exact hback
        | succ n => exact ⟨.of_result rfl rfl, fun _ ↦ ⟨.frame, .release target (n + 1) result, hback⟩⟩

end W16Compiler.Frame
