import W16Compiler.Grammar.Body
import W16Compiler.Proofs.Grammar.Constness
import W16Compiler.Proofs.Types.Layout

/-!
# Arguments and parameters

The arguments of a call are converted to the types of the parameters, so that both have the same words. A
definition declares its parameters one behind the other: first the pointer to a result in memory, then the
object of a member function, then those that are written. Types are entered and marked on the way; what is
known of the types of a function stays.
-/

namespace W16Compiler

open List Option TypeTable

def starts (word : Nat) : List Nat → List Nat
  | [] => []
  | n :: rest => word :: starts (word + n) rest

namespace TypeTable

variable {t t' t'' : TypeTable} {ty p : TypeId} {n : Nat}

/-- The words of a type; none if it is not complete. -/
def words (t : TypeTable) (ty : TypeId) : Nat := (t.sizeOf ty).getD 0

lemma keeps_markUsed (t : TypeTable) (id : StructId) : t.Keeps (t.markUsed id) := by
  suffices h : ∀ (fuel : Nat) (t : TypeTable) (id : StructId), t.Keeps (markUsedWithin fuel t id) from h _ t id
  intro fuel
  induction fuel with
  | zero => exact fun t _ ↦ .refl t
  | succ fuel ih =>
    intro t id
    rw [markUsedWithin]
    split
    · exact .refl t
    · have hmark : t.Keeps (t.modifyStruct id fun d ↦ { d with used := true }) := by
        refine ⟨.refl t, fun q hq ↦ ?_⟩
        rcases structDef_modifyStruct t id (fun d ↦ { d with used := true }) q with hold | ⟨rfl, hnew⟩
        · rw [hold]
          exact ⟨hq, rfl⟩
        · rw [hnew]
          exact ⟨hq, rfl⟩
      refine hmark.trans ?_
      generalize t.modifyStruct id _ = t1
      generalize (_ ++ _ : List StructId) = inner
      induction inner generalizing t1 with
      | nil => exact .refl t1
      | cons q rest ihrest => exact (ih t1 q).trans (ihrest _)

/-- What is left of a known type without its qualifiers is neither void nor qualified. -/
def Known (t : TypeTable) (ty : TypeId) : Prop := t.kind ty ≠ .void ∧ ∀ base c v, t.kind ty ≠ .qualified base c v

lemma Known.extends (h : t.Known ty) (hgrow : t.Extends t') : t'.Known ty := by
  rw [Known, hgrow.kind h.1]
  exact h

variable {a : TypeId} {hint : Option ConstantHint}

lemma words_ofType (hkind : t.kind a = t.kind p) (harray : t.isArray p = false) (hsize : t.sizeOf p = some n) :
    (Rep.ofType t a).words = n := by
  rw [sizeOf] at hsize
  unfold isArray at harray
  rw [Rep.ofType, sizeOf, hkind]
  cases hp : t.kind p with
  | int width signed | float width => cases width <;> simp_all [Rep.words]
  | _ => simp_all [Rep.words]

/-! ## Conversions -/

lemma unqualified_of_identity (h : t.assignConversion a p hint = .identity) : t.unqualified a = t.unqualified p := by
  by_contra hne
  simp only [assignConversion, if_neg hne, pointerConversion] at h
  split at h <;> (repeat' split at h) <;> cases h

lemma isArray_of_conversion (ha : t.isArray a = false)
    (h : ∀ f, t.assignConversion a p hint ≠ .invalid f) : t.isArray p = false := by
  by_cases hsame : t.unqualified a = t.unqualified p
  · rwa [isArray, kind, ← hsame]
  · by_contra harray
    unfold isArray kind at harray
    simp only [assignConversion, if_neg hsame] at h
    cases hp : t.get (t.unqualified p) with
    | array element length =>
      rw [hp] at h
      cases hget : t.get (t.unqualified a) <;> exact h _ (by rw [hget])
    | _ => simp [hp] at harray

end TypeTable

namespace Grammar

variable {y : Symbols} {t : TypeTable} {p : TypeId}

lemma gives_markTypeUsed (ty : TypeId) : Gives (markTypeUsed ty) y t fun _ t' ↦ t.Keeps t' := by
  intro u t' hrun
  cases hrun
  dsimp only
  split
  · exact t.keeps_markUsed _
  · exact .refl t

lemma isArray_decay (e : Expr) : Gives (decay e) y t fun e' t' ↦ t.Extends t' ∧ t'.isArray e'.type = false := by
  have hpointer : ∀ part : TypeId, (t.pointerTo part).2.isArray (t.pointerTo part).1 = false := by
    intro part
    rw [isArray, pointerTo, kind_of_get (t.get_intern (.pointer part))]
  refine .types ?_
  cases helement : t.element e.type with
  | some part => exact .bind (.entered (by cases e <;> exact .pure ⟨t.extends_intern _, hpointer part⟩))
  | none =>
    have harray : t.isArray e.type = false := by
      unfold element at helement
      unfold isArray
      split at helement <;> simp_all
    refine .ite (fun _ ↦ .bind (.entered (.pure ⟨t.extends_intern _, ?_⟩))) fun _ ↦ .pure ⟨.refl t, harray⟩
    cases e <;> exact hpointer _

lemma unqualified_numericCast (e : Expr) (hp : t.unqualified p = p) :
    Gives (numericCast e p) y t fun e' t' ↦ t' = t ∧ t.unqualified e'.type = p := by
  refine .types (.ite (fun hsame ↦ .pure ⟨rfl, hsame.trans hp⟩) fun _ ↦ ?_)
  refine (gives_foldNode _).mono fun e' t' ⟨htype, hsame⟩ ↦ ⟨hsame, ?_⟩
  rw [htype]
  exact (congrArg t.unqualified hp).trans hp

lemma gives_convert (e : Expr) (hp : t.Known p) : Gives (convert e p) y t fun e' t' ↦
    t.Extends t' ∧ t'.kind e'.type = t'.kind p ∧ t'.isArray p = false := by
  refine .bind ((isArray_decay e).mono fun e t1 ⟨hgrow, harray⟩ ↦ .types (.constant ?_))
  have hbare : t1.unqualified (t1.unqualified p) = t1.unqualified p := unqualified_unqualified (hp.extends hgrow).2
  have hkind : ∀ a, t1.unqualified a = t1.unqualified p → t1.kind a = t1.kind p := fun a ha ↦ congrArg t1.get ha
  have hcast : t1.isArray p = false → Gives (numericCast e (t1.unqualified p)) y t1 fun e' t' ↦
      t.Extends t' ∧ t'.kind e'.type = t'.kind p ∧ t'.isArray p = false := fun hparam ↦
    (unqualified_numericCast e hbare).mono fun e' t' ⟨hsame, htype⟩ ↦ hsame ▸ ⟨hgrow, hkind _ htype, hparam⟩
  dsimp only
  generalize hconv : t1.assignConversion e.type p _ = conv
  have hparam : (∀ f, conv ≠ .invalid f) → t1.isArray p = false := fun h ↦ isArray_of_conversion harray (hconv ▸ h)
  cases conv with
  | identity => exact .pure ⟨hgrow, hkind _ (unqualified_of_identity hconv), hparam (by simp)⟩
  | numeric | reinterpret => exact hcast (hparam (by simp))
  | adjust offset => exact .pure ⟨hgrow, hkind _ hbare, hparam (by simp)⟩
  | invalid f => exact .fault _ _

lemma extends_convertExtra (e : Expr) : Gives (convertExtra e) y t fun _ t' ↦ t.Extends t' :=
  .bind ((isArray_decay e).mono fun _ _ h ↦ .types ((gives_numericCast _ _).mono fun _ _ hsame ↦ hsame ▸ h.1))

lemma gives_convertArgs (params : List TypeId) (args : List Expr) (hparams : ∀ p ∈ params, t.Known p)
    (hlength : params.length ≤ args.length) : Gives (convertArgs params args) y t fun args' t' ↦ t.Extends t' ∧
      ∀ T, t'.Extends T → (∀ p ∈ params, (T.sizeOf p).isSome) →
        params.map T.words <+: args'.map fun e ↦ (Rep.ofType T e.type).words := by
  induction args generalizing t params with
  | nil =>
    obtain rfl := eq_nil_of_length_eq_zero (Nat.le_zero.mp hlength)
    exact .pure ⟨.refl t, fun _ _ _ ↦ prefix_rfl⟩
  | cons e rest ih =>
    cases params with
    | nil =>
      refine .bind ((extends_convertExtra e).mono fun e t1 hgrow ↦
        .bind ((gives_markTypeUsed _).mono fun _ t2 hkeeps ↦ ?_))
      refine .bind ((ih [] (by simp) (Nat.zero_le _)).mono fun _ t' ⟨hgrow', _⟩ ↦ .pure ⟨?_, fun _ _ _ ↦ nil_prefix⟩)
      exact hgrow.trans (hkeeps.types.trans hgrow')
    | cons p params =>
      have hp := hparams p mem_cons_self
      refine .bind ((gives_convert e hp).mono fun e t1 ⟨hgrow, hkind, _⟩ ↦
        .bind ((gives_markTypeUsed _).mono fun _ t2 hkeeps ↦ ?_))
      have hknown : ∀ q ∈ params, t2.Known q := fun q hq ↦
        (hparams q (mem_cons_of_mem p hq)).extends (hgrow.trans hkeeps.types)
      refine .bind ((ih params hknown (Nat.le_of_succ_le_succ hlength)).mono fun _ t' ⟨hgrow', hrest⟩ ↦
        .pure ⟨hgrow.trans (hkeeps.types.trans hgrow'), fun T hT hsizes ↦ ?_⟩)
      obtain ⟨n, hn⟩ := isSome_iff_exists.mp (hsizes p mem_cons_self)
      have hT1 := hkeeps.types.trans (hgrow'.trans hT)
      have hp1 := (hp.extends hgrow).1
      have hwords : (Rep.ofType T e.type).words = n := by
        refine words_ofType (p := p) ?_ ?_ hn
        · rw [hT1.kind (hkind ▸ hp1), hT1.kind hp1, hkind]
        · rwa [isArray, hT1.kind hp1]
      rw [map_cons, map_cons, cons_prefix_cons, hwords, words, hn]
      exact ⟨rfl, hrest T hT fun q hq ↦ hsizes q (mem_cons_of_mem p hq)⟩

lemma gives_checkArgs {fnType result : TypeId} {params : List TypeId}
    (hkind : t.kind fnType = .function result params varargs) (hparams : ∀ p ∈ params, t.Known p) (args : List Expr)
    (loc : Location) : Gives (checkArgs fnType args loc) y t fun args' t' ↦ t.Extends t' ∧
      ∀ T, t'.Extends T → (∀ p ∈ params, (T.sizeOf p).isSome) →
        params.map T.words <+: args'.map fun e ↦ (Rep.ofType T e.type).words := by
  refine .types ?_
  rw [hkind]
  refine .require fun hcount ↦ gives_convertArgs params args hparams ?_
  simp only [Bool.or_eq_true, decide_eq_true_eq, not_or, Nat.not_lt] at hcount
  exact hcount.1

/-! ## Parameters -/

/-- The parameter is declared by this name, so many words into the argument area. -/
def StandsAt (y : Symbols) (d : DeclId) (x : String × Nat) : Prop :=
  ∃ ty scope loc, y.decls[d.index]? = some ⟨x.1, .variable ty .none (.param x.2), scope, loc⟩

/-- Every declaration stays what it is. -/
def Declared (y y' : Symbols) : Prop := ∀ (i : Nat) (d : Declaration), y.decls[i]? = some d → y'.decls[i]? = some d

lemma StandsAt.later {y y' : Symbols} (h : StandsAt y d x) (hy : Declared y y') : StandsAt y' d x := by
  obtain ⟨ty, scope, loc, hd⟩ := h
  exact ⟨ty, scope, loc, hy _ _ hd⟩

lemma exists_declare (y : Symbols) (d : Declaration) :
    ∃ y', y.declare d = (⟨y.decls.size⟩, y') ∧ y'.decls = y.decls.push d := by
  unfold Symbols.declare
  dsimp only
  split <;> exact ⟨_, rfl, rfl⟩

variable {s : State}

lemma ensures_declareParam
    (hdeclares : declares = declare ∨ declares = declareHidden) (name : String) (ty : TypeId) (offset : Nat)
    (loc : Location) : Ensures (declareParam declares name ty offset loc) s fun d s' ↦
      s'.types = s.types ∧ Declared s.symbols s'.symbols ∧ StandsAt s'.symbols d (name, offset) := by
  let new : Declaration := ⟨name, .variable ty .none (.param offset), s.scope, loc⟩
  have hpush : ∀ y : Symbols, y.decls = s.symbols.decls.push new →
      Declared s.symbols y ∧ StandsAt y ⟨s.symbols.decls.size⟩ (name, offset) := by
    refine fun y hy ↦ ⟨fun i d hd ↦ ?_, ty, s.scope, loc, hy ▸ Array.getElem?_push_size⟩
    have hlt := (Array.getElem?_eq_some_iff.mp hd).1
    rw [hy, Array.getElem?_push_lt hlt, ← hd]
    exact (Array.getElem?_eq_getElem hlt).symm
  intro d s' hrun
  rcases hdeclares with rfl | rfl
  · obtain ⟨y, hdeclare, hy⟩ := exists_declare s.symbols new
    change (Except.ok (s.symbols.declare new).1, { s with symbols := (s.symbols.declare new).2 }) = _ at hrun
    rw [hdeclare] at hrun
    cases hrun
    exact ⟨rfl, hpush y hy⟩
  · cases hrun
    exact ⟨rfl, hpush _ rfl⟩

def namedOffsets (word : Nat) (names : List String) (words : List Nat) : List (String × Nat) :=
  names.zip ((starts word words).map (· % twoTo 32))

def paramNames (ps : List Param) : List String := ps.map (·.name.getD "")

def paramWords (T : TypeTable) (ps : List Param) : List Nat := ps.map fun p ↦ T.words p.type

lemma ensures_declareParams (ps : List Param) (word : Nat) :
    Ensures (declareParams (word % twoTo 32) ps) s fun ids s' ↦ Declared s.symbols s'.symbols ∧
      s.types.Keeps s'.types ∧ ∀ T, s'.types.Keeps T → (∀ p ∈ ps, (T.sizeOf p.type).isSome) ∧
          Forall₂ (StandsAt s'.symbols) ids (namedOffsets word (paramNames ps) (paramWords T ps)) := by
  induction ps generalizing word s with
  | nil => exact .pure ⟨fun _ _ h ↦ h, .refl _, fun T _ ↦ ⟨by simp, .nil⟩⟩
  | cons p ps ih =>
    rw [declareParams]
    cases hname : p.name with
    | none => exact .throw _
    | some name =>
      refine .state ?_
      cases hsize : s.types.sizeOf p.type with
      | none => exact .throw _
      | some size =>
        have hcheck : Ensures (checkRedefinition name p.loc) s fun _ s' ↦ s' = s := by
          refine .bind (.state (.pure ?_))
          split
          · exact .bind fun _ _ _ ↦ .throw _
          · exact .pure rfl
        refine .bind (hcheck.mono fun _ s1 hs1 ↦ .bind (.lift ((gives_markTypeUsed p.type).mono fun _ t hkeeps ↦ ?_)))
        subst hs1
        refine .bind ((ensures_declareParam (.inl rfl) name p.type _ p.loc).mono fun d s2 ⟨htypes, hdecl, hd⟩ ↦ ?_)
        have hnext : addWords (word % twoTo 32) size = (word + size) % twoTo 32 := Nat.mod_add_mod _ _ _
        rw [hnext]
        refine .bind ((ih (word + size)).mono fun ids s' ⟨hdecl', hkeeps', hrest⟩ ↦ ?_)
        rw [htypes] at hkeeps'
        refine .pure ⟨?_, ?_, fun T hT ↦ ?_⟩
        · exact fun i d hd ↦ hdecl' i d (hdecl i d hd)
        · exact hkeeps.trans hkeeps'
        · have hwords : T.sizeOf p.type = some size := (hkeeps.trans (hkeeps'.trans hT)).sizeOf hsize
          obtain ⟨hsizes, hstand⟩ := hrest T hT
          refine ⟨forall_mem_cons.mpr ⟨by rw [hwords]; rfl, hsizes⟩, ?_⟩
          have hlist : namedOffsets word (paramNames (p :: ps)) (paramWords T (p :: ps)) =
              (name, word % twoTo 32) :: namedOffsets (word + size) (paramNames ps) (paramWords T ps) := by
            simp [namedOffsets, starts, paramNames, paramWords, words, hname, hwords]
          rw [hlist]
          exact .cons (hd.later hdecl') hstand

/-- The names of the parameters of a function, with a pointer to a result in memory or without. -/
def Heading.names (h : Heading) (inMemory : Bool) : List String :=
  (if inMemory then ["__result"] else []) ++ (if h.owner.isSome then ["this"] else []) ++ paramNames h.params

def Heading.words (h : Heading) (inMemory : Bool) (T : TypeTable) : List Nat :=
  (if inMemory then [1] else []) ++ (if h.owner.isSome then [1] else []) ++ paramWords T h.params

lemma ensures_hiddenParameter (h : Heading) : Ensures (hiddenParameter h) s fun hidden s' ↦ s.types.Extends s'.types ∧
      Forall₂ (StandsAt s'.symbols) hidden (if s.types.returnsInMemory h.result then [("__result", 0)] else []) := by
  refine .state (.ite (fun hmemory ↦ ?_) fun hmemory ↦ ?_)
  · rw [if_pos hmemory]
    refine .bind (.lift (.entered (.bind ?_)))
    refine (ensures_declareParam (.inr rfl) _ _ _ _).mono fun d s' ⟨htypes, _, hd⟩ ↦ .pure ⟨?_, .cons hd .nil⟩
    exact htypes ▸ s.types.extends_intern _
  · rw [if_neg hmemory]
    exact .pure ⟨.refl _, .nil⟩

lemma ensures_declareThis (offset : Nat) (loc : Location) (owner : Option StructId) :
    Ensures (owner.toList.mapM (declareThis offset loc)) s fun this s' ↦ s.types.Extends s'.types ∧
      Declared s.symbols s'.symbols ∧
      Forall₂ (StandsAt s'.symbols) this (if owner.isSome then [("this", offset)] else []) := by
  cases owner with
  | none => exact .pure ⟨.refl _, fun _ _ h ↦ h, .nil⟩
  | some id =>
    rw [toList_some, mapM_cons, mapM_nil]
    refine .bind (.bind (.lift (.entered (.bind (.lift (.entered ?_))))))
    refine (ensures_declareParam (.inl rfl) _ _ _ _).mono fun d s' ⟨htypes, hdecl, hd⟩ ↦
      .pure ⟨?_, hdecl, .cons hd .nil⟩
    exact htypes ▸ (s.types.extends_intern _).trans (extends_intern _ _)

/-- The parameters of a function stand one behind the other: a pointer to the result if that is in memory,
the object of a member function, and those that are written. -/
lemma ensures_parameters (h : Heading) : Ensures (parameters h) s fun (hidden, this, params) s' ↦
    s.types.Extends s'.types ∧ hidden.isEmpty = !s.types.returnsInMemory h.result ∧ ∀ T, s'.types.Keeps T →
      (∀ p ∈ h.params, (T.sizeOf p.type).isSome) ∧ Forall₂ (StandsAt s'.symbols) (hidden ++ this ++ params)
        (namedOffsets 0 (h.names (s.types.returnsInMemory h.result))
          (h.words (s.types.returnsInMemory h.result) T)) := by
  refine .bind ((ensures_hiddenParameter h).mono fun hidden s1 ⟨hgrow, hhidden⟩ ↦
    .bind ((ensures_declareThis hidden.length h.loc h.owner).mono fun this s2 ⟨hgrow', hdecl, hthis⟩ ↦ .bind ?_))
  have hword : hidden.length + this.length = (hidden.length + this.length) % twoTo 32 := by
    have hle : hidden.length ≤ 1 := by
      rw [hhidden.length_eq]
      split <;> simp
    have hle' : this.length ≤ 1 := by
      rw [hthis.length_eq]
      split <;> simp
    exact (Nat.mod_eq_of_lt (Nat.lt_of_le_of_lt (Nat.add_le_add hle hle') (by decide))).symm
  rw [hword]
  refine (ensures_declareParams h.params _).mono fun params s' ⟨hdecl', hkeeps, hparams⟩ ↦
    .pure ⟨hgrow.trans (hgrow'.trans hkeeps.types), ?_, fun T hT ↦ ?_⟩
  · cases hmemory : s.types.returnsInMemory h.result <;> rw [hmemory] at hhidden <;> cases hhidden <;> rfl
  · obtain ⟨hsizes, hstand⟩ := hparams T hT
    refine ⟨hsizes, ?_⟩
    have hhidden' := hhidden.imp fun d x hd ↦ (hd.later hdecl).later hdecl'
    have hthis' := hthis.imp fun d x hd ↦ hd.later hdecl'
    have hlist : namedOffsets 0 (h.names (s.types.returnsInMemory h.result))
          (h.words (s.types.returnsInMemory h.result) T) =
        (if s.types.returnsInMemory h.result then [("__result", 0)] else []) ++
        (if h.owner.isSome then [("this", hidden.length)] else []) ++
        namedOffsets (hidden.length + this.length) (paramNames h.params) (paramWords T h.params) := by
      have hh := hhidden.length_eq
      have ht := hthis.length_eq
      rw [ht, hh, Heading.names, Heading.words]
      cases s.types.returnsInMemory h.result <;> cases h.owner.isSome <;> rfl
    rw [hlist]
    exact rel_append (rel_append hhidden' hthis') hstand

lemma exists_parameters (hrun : definition R h s = (.ok f, s')) : ∃ hidden this params s1,
      parameters h s = (.ok (hidden, this, params), s1) ∧ f.result = h.result ∧
      f.params = hidden ++ this ++ params ∧ f.hiddenResult = !hidden.isEmpty := by
  unfold definition at hrun
  obtain ⟨_, _, ⟨⟩, hrun⟩ := Ensures.exists_of_bind hrun
  obtain ⟨⟨hidden, this, params⟩, s1, hparams, hrun⟩ := Ensures.exists_of_bind hrun
  obtain ⟨_, _, -, hrun⟩ := Ensures.exists_of_bind hrun
  obtain ⟨_, s3, -, hrun⟩ := Ensures.exists_of_bind hrun
  obtain ⟨_, _, ⟨⟩, hrun⟩ := Ensures.exists_of_bind hrun
  refine ⟨hidden, this, params, s1, hparams, ?_⟩
  cases hfunction : s3.function with
  | none =>
    rw [hfunction] at hrun
    cases hrun
  | some state =>
    rw [hfunction] at hrun
    obtain ⟨_, _, -, hrun⟩ := Ensures.exists_of_bind hrun
    obtain ⟨_, _, -, hrun⟩ := Ensures.exists_of_bind hrun
    cases hrun
    exact ⟨rfl, rfl, rfl⟩

end Grammar

end W16Compiler
