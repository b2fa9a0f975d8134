import W16Compiler.Grammar.Expression
import W16Compiler.Proofs.Grammar.Logic
import W16Compiler.Proofs.Types.Growth

/-!
# Constant objects are not modified

An object is constant if it is declared so or if a pointer to a constant leads to it. Selecting a member of
a constant struct or an element of an array of constants gives a constant again, and what is constant is
neither assigned to nor pointed to by a pointer through which it could be. A type wears one qualifier on
its outside: an array that is itself qualified says nothing of its elements, so the elements have to be
constants where an array is indexed.
-/

namespace W16Compiler

open TypeTable

namespace TypeTable

variable {t t' : TypeTable} {ty part : TypeId}

inductive Fixed (t : TypeTable) : TypeId → Prop where
  | const {ty : TypeId} (h : t.isConst ty) : Fixed t ty
  | array {ty part : TypeId} (h : t.element ty = some part) (hpart : Fixed t part) : Fixed t ty

lemma Fixed.extends (h : t.Fixed ty) (hgrow : t.Extends t') : t'.Fixed ty := by
  induction h with
  | const h => exact .const (hgrow.isConst h)
  | array h _ ih => exact .array (hgrow.element h) ih

lemma Fixed.isConst (h : t.Fixed ty) (harray : t.isArray ty = false) : t.isConst ty := by
  cases h with
  | const h => exact h
  | array h _ =>
    obtain ⟨_, hkind⟩ := element_eq_some.mp h
    simp [isArray, hkind] at harray

/-- A pointer to `q` could be used to modify what a pointer to `p` leads to. An array is known by its
elements. -/
structure Exposes (t : TypeTable) (p q : TypeId) : Prop where
  mutable : t.isConst q = false
  elements : t.isArray p → ¬ t.Fixed q
  typed : t.isArray p → t.isVoid (t.unqualified q) = false

lemma Exposes.irrefl (h : t.Exposes ty ty) : ¬ t.Fixed ty := by
  intro hfixed
  cases hfixed with
  | const hconst => simp [h.mutable] at hconst
  | array helement hpart =>
    obtain ⟨_, hkind⟩ := element_eq_some.mp helement
    exact h.elements (by simp [isArray, hkind]) (.array helement hpart)

lemma pointerConversion_of_fixed {p q : TypeId} (hp : t.Fixed p) (hq : t.Exposes p q) :
    ∃ f, t.pointerConversion p q = .invalid f := by
  unfold pointerConversion
  cases hp with
  | const hconst => exact ⟨_, if_pos (by simp [hconst, hq.mutable])⟩
  | @array _ part helement hpart =>
    obtain ⟨length, hkind⟩ := element_eq_some.mp helement
    have harray : t.isArray p := by simp [isArray, hkind]
    have hne : t.unqualified p ≠ t.unqualified q := by
      intro heq
      refine hq.elements harray (.array (element_eq_some.mpr ⟨length, ?_⟩) hpart)
      rw [← hkind, kind, kind, heq]
    have hbare : t.kind (t.unqualified p) = .array part length := by
      rw [kind_unqualified (by simp [hkind]), hkind]
    have hvoid : t.isVoid (t.unqualified p) = false := by simp [isVoid, hbare]
    have hstruct : t.asStruct (t.unqualified p) = none := by simp [asStruct, hbare]
    simp only [hne, hvoid, hq.typed harray, hstruct, if_false, Bool.or_false, Bool.false_and, Bool.false_eq_true]
    split
    · exact ⟨_, rfl⟩
    · exact ⟨_, rfl⟩

end TypeTable

namespace Grammar

variable {α : Type} {y : Symbols} {t t' : TypeTable} {e : Expr} {loc : Location}

/-! ## Typed nodes -/

lemma gives_foldNode (e : Expr) : Gives (foldNode e) y t fun e' t' ↦ e'.type = e.type ∧ t' = t := by
  refine .types (.constant ?_)
  rcases fold t y e with _ | v | x | _
  · exact .pure ⟨rfl, rfl⟩
  · exact .pure ⟨by split <;> rfl, rfl⟩
  · exact .pure ⟨by split <;> rfl, rfl⟩
  · exact .pure ⟨rfl, rfl⟩

lemma gives_numericCast (e : Expr) (target : TypeId) : Gives (numericCast e target) y t fun _ t' ↦ t' = t := by
  refine .types ?_
  dsimp only
  split
  · exact .pure rfl
  · exact (gives_foldNode _).mono fun _ _ h ↦ h.2

lemma gives_scaledIndex (index : Expr) (size : Nat) (loc : Location) :
    Gives (scaledIndex index size loc) y t fun _ t' ↦ t' = t := by
  refine .types ?_
  split
  · exact .fault _ _
  · refine .bind ((gives_numericCast index .int).mono fun _ t1 ht1 ↦ ?_)
    subst ht1
    unfold scaled
    split
    · exact .pure rfl
    · exact (gives_foldNode _).mono fun _ _ h ↦ h.2

lemma gives_pointerOffset (op : BinaryOp) (p index : Expr) (loc : Location) :
    Gives (pointerOffset op p index loc) y t fun r t' ↦ r.type = t.unqualified p.type ∧ t' = t := by
  have hsize : Gives (pointeeSize p.type loc) y t fun _ t' ↦ t' = t := by
    refine .types ?_
    split
    · exact .pure rfl
    · exact .shown (.fault _ _)
  refine .bind (hsize.mono fun size t1 ht1 ↦ .bind ?_)
  subst ht1
  refine (gives_scaledIndex index size loc).mono fun _ t2 ht2 ↦ .types ?_
  subst ht2
  exact gives_foldNode _

lemma types_bind (k : TypeTable → TypingM α) (y : Symbols) (t : TypeTable) : (get >>= k) y t = k t y t := rfl

/-- Decay makes an array a pointer to its elements and leaves objects alone. -/
lemma decay_eq (e : Expr) (y : Symbols) (t : TypeTable) : ∃ e' t', decay e y t = (.ok e', t') ∧ t.Extends t' ∧
      (∀ part, t.element e.type = some part → t'.get e'.type = .pointer part) ∧
      (t.isArray e.type = false → t.isFunction e.type = false → e' = e ∧ t' = t) := by
  rw [decay, types_bind]
  cases helement : t.element e.type with
  | some part =>
    obtain ⟨_, hkind⟩ := element_eq_some.mp helement
    have hget := t.get_intern (.pointer part)
    have harray : t.isArray e.type := by simp [isArray, hkind]
    cases e <;>
      exact ⟨_, _, rfl, t.extends_intern _, fun _ h ↦ Option.some.inj h ▸ hget, fun h ↦ absurd harray (by simp [h])⟩
  | none =>
    by_cases hfun : t.isFunction e.type
    · refine ⟨e.withType (t.pointerTo (t.unqualified e.type)).1, (t.pointerTo (t.unqualified e.type)).2, ?_,
        t.extends_intern _, by simp, by simp [hfun]⟩
      dsimp only
      rw [if_pos hfun]
      rfl
    · refine ⟨e, t, ?_, .refl t, by simp, fun _ _ ↦ ⟨rfl, rfl⟩⟩
      dsimp only
      rw [if_neg hfun]
      rfl

lemma gives_decay (e : Expr) : Gives (decay e) y t fun e' t' ↦ t.Extends t' ∧
    (∀ part, t.element e.type = some part → t'.get e'.type = .pointer part) ∧
    (t.isArray e.type = false → t.isFunction e.type = false → e' = e ∧ t' = t) := by
  obtain ⟨_, _, hrun, hspec⟩ := decay_eq e y t
  intro e'' t'' hrun'
  rw [hrun] at hrun'
  cases hrun'
  exact hspec

variable {p a : Expr} {part : TypeId} {s : State} {x : TypingM α} {op : BinaryOp}

lemma gives_dereference (hp : t.pointee p.type = some part) (loc : Location) :
    Gives (dereference p loc) y t fun e t' ↦ e = .deref ⟨part, loc⟩ p ∧ t' = t := by
  have hkind := pointee_eq_some.mp hp
  refine .bind ((gives_decay p).mono fun p' t1 hdecay ↦ .types ?_)
  obtain ⟨rfl, rfl⟩ := hdecay.2.2 (by simp [isArray, hkind]) (by simp [isFunction, hkind])
  rw [hp]
  dsimp only
  split
  · exact .fault _ _
  · exact .pure ⟨rfl, rfl⟩

lemma kind_of_get {p : TypeId} (h : t.get p = .pointer part) : t.kind p = .pointer part := by
  simp [kind, unqualified, h]

lemma dereference_eq (hp : t.pointee p.type = some part) (hpart : t.isVoid part = false) (loc : Location) :
    dereference p loc y t = (.ok (.deref ⟨part, loc⟩ p), t) := by
  have hkind := pointee_eq_some.mp hp
  obtain ⟨_, t', hdecay, -, -, hsame⟩ := decay_eq p y t
  obtain ⟨rfl, rfl⟩ := hsame (by simp [isArray, hkind]) (by simp [isFunction, hkind])
  refine (bind_eq hdecay).trans ((bind_eq (a := t') rfl).trans ?_)
  rw [hp]
  dsimp only
  rw [hpart]
  rfl

lemma gives_first (ha : t.element a.type = some part) (loc : Location) :
    Gives (dereference a loc) y t fun e t' ↦ t.Extends t' ∧ ∃ p, e = .deref ⟨part, loc⟩ p := by
  refine .bind ((gives_decay a).mono fun p t1 hdecay ↦ .types ?_)
  rw [pointee_eq_some.mpr (kind_of_get (hdecay.2.1 part ha))]
  exact .require fun _ ↦ .pure ⟨hdecay.1, p, rfl⟩

lemma gives_offset {index : Expr} (hp : t.get p.type = .pointer part) (loc : Location) :
    Gives (pointerOffset op p index loc) y t fun r t' ↦ t.Extends t' ∧ t'.pointee r.type = some part := by
  refine (gives_pointerOffset op p index loc).mono fun r t' hr ↦ ?_
  obtain ⟨htype, rfl⟩ := hr
  have hbare : t'.unqualified p.type = p.type := by simp [unqualified, hp]
  exact ⟨.refl t', pointee_eq_some.mpr (by rw [htype, hbare, kind_of_get hp])⟩

lemma gives_arithmetic (h : t.isPointer lhs.type ∨ t.isPointer rhs.type)
    (loc : Location) : Gives (arithmetic op lhs rhs loc) y t post := by
  have hrefuse : ∀ ty, t.isPointer ty → t.isInteger ty = false ∧ t.isArith ty = false := by
    intro ty hty
    unfold isPointer at hty
    cases hkind : t.kind ty <;> simp_all [isArith, isInteger, isFloat]
  have haccepts : acceptsOperands t op lhs.type rhs.type = false := by
    unfold acceptsOperands
    rcases h with h | h <;> simp [hrefuse _ h]
  refine .types ?_
  rw [haccepts]
  exact .shown (.shown (.fault _ _))

lemma gives_index (h : t.element lhs.type = some part ∨ t.element rhs.type = some part)
    (loc : Location) : Gives (binary .add lhs rhs loc) y t fun r t' ↦ t.Extends t' ∧ t'.pointee r.type = some part := by
  refine .bind ((gives_decay lhs).mono fun lhs' t1 hlhs ↦ .bind ?_)
  refine (gives_decay rhs).mono fun rhs' t2 hrhs ↦ .types ?_
  have hgrow : t.Extends t2 := hlhs.1.trans hrhs.1
  have hpointer : t2.get lhs'.type = .pointer part ∨ t2.get rhs'.type = .pointer part := by
    rcases h with h | h
    · have hget := hlhs.2.1 part h
      exact .inl ((hrhs.1.get (by simp [hget])).trans hget)
    · exact .inr (hrhs.2.1 part (hlhs.1.element h))
  have his : ∀ {p : TypeId}, t2.get p = .pointer part → t2.isPointer p := fun hp ↦ by
    simp [isPointer, kind_of_get hp]
  cases hl : t2.isPointer lhs'.type <;> cases hr : t2.isPointer rhs'.type
  · rcases hpointer with hp | hp <;> simp [his hp] at hl hr
  · have hp : t2.get rhs'.type = .pointer part := hpointer.resolve_left fun hp ↦ by simp [his hp] at hl
    exact (gives_offset hp loc).mono fun r t' hr ↦ ⟨hgrow.trans hr.1, hr.2⟩
  · have hp : t2.get lhs'.type = .pointer part := hpointer.resolve_right fun hp ↦ by simp [his hp] at hr
    exact (gives_offset hp loc).mono fun r t' hr ↦ ⟨hgrow.trans hr.1, hr.2⟩
  · exact gives_arithmetic (.inl hl) loc

/-! ## Paths -/

/-- An object that is reached from a constant one, and the state of the reader then. The steps are those of
the grammar: a name, the dereference of a pointer, the selection of a member, and an index into an array
or the array as a pointer to its first element. -/
inductive ConstPath : State → Expr → Prop where
  | name {s s' : State} {id : DeclId} {name : String} {loc : Location} {e : Expr}
    (hrun : declared id name loc s = (.ok e, s')) (hlvalue : e.isLvalue)
    (hfixed : s.types.Fixed (s.symbols.decl id).type) : ConstPath s' e
  | pointer {s s' : State} {p e : Expr} {part : TypeId} {loc : Location}
    (hp : s.types.pointee p.type = some part) (hfixed : s.types.Fixed part)
    (hrun : (dereference p loc : ReadM Expr) s = (.ok e, s')) : ConstPath s' e
  | member {s s' : State} {r : Readers} {base e : Expr} {name : String} {loc : Location}
    (hbase : ConstPath s base) (hrun : member r base name loc s = (.ok e, s')) (hlvalue : e.isLvalue) :
    ConstPath s' e
  | index {s s₁ s' : State} {a i p e : Expr} {part : TypeId} {loc loc' : Location}
    (ha : ConstPath s a) (helement : s.types.element a.type = some part) (hfixed : s.types.Fixed part)
    (hadd : (binary .add a i loc : ReadM Expr) s = (.ok p, s₁) ∨ (binary .add i a loc : ReadM Expr) s = (.ok p, s₁))
    (hrun : (dereference p loc' : ReadM Expr) s₁ = (.ok e, s')) : ConstPath s' e
  | first {s s' : State} {a e : Expr} {part : TypeId} {loc : Location}
    (ha : ConstPath s a) (helement : s.types.element a.type = some part) (hfixed : s.types.Fixed part)
    (hrun : (dereference a loc : ReadM Expr) s = (.ok e, s')) : ConstPath s' e
  /-- Reading goes on before the object is used. -/
  | later {s s' : State} {e : Expr} (h : ConstPath s e) (hgrow : s.types.Extends s'.types) : ConstPath s' e

lemma gives_methodCall (this : Expr) (id : StructId) (name : String) (isObject : Bool) (args : List Expr)
    (loc : Location) : Gives (methodCall this id name isObject args loc) y t fun e _ ↦ e.isLvalue = false := by
  refine .types ?_
  split
  · refine .ite (fun _ ↦ .bind fun _ _ _ ↦ .types (.pure rfl)) fun _ ↦ .types ?_
    split
    · exact Ensures.throw _
    · refine .bind fun _ _ _ ↦ .types (.ite (fun _ ↦ .require fun _ ↦ .pure rfl) fun _ ↦ .pure rfl)
  · exact .fault _ _

lemma ensures_member (r : Readers) (base : Expr) (name : String) (loc : Location) :
    Ensures (member r base name loc) s fun e s' ↦ e.isLvalue → s.types.isArray base.type = false ∧
      s.types.Extends s'.types ∧ (s.types.isConst base.type → s'.types.isConst e.type) := by
  refine .state ?_
  dsimp only
  cases hstruct : s.types.asStruct base.type with
  | none => exact .throw _
  | some id =>
    have harray : s.types.isArray base.type = false := by
      unfold asStruct at hstruct
      split at hstruct
      · rename_i hkind
        simp [isArray, hkind]
      · cases hstruct
    refine .require fun _ ↦ ?_
    split
    · refine .bind (.lift (.entered (.pure fun _ ↦ ⟨harray, s.types.extends_qualified _ _ _, fun hconst ↦ ?_⟩)))
      rw [hconst]
      exact s.types.isConst_qualified _ _
    · have hcall : ∀ (this : Expr) (isObject : Bool) (args : List Expr) {s' : State},
          Ensures (liftM (methodCall this id name isObject args loc) : ReadM Expr) s' fun e s'' ↦
            e.isLvalue → s.types.isArray base.type = false ∧ s.types.Extends s''.types ∧
              (s.types.isConst base.type → s''.types.isConst e.type) := by
        intro this isObject args s'
        refine .lift ((gives_methodCall this id name isObject args loc).mono fun e t' he hlvalue ↦ ?_)
        rw [he] at hlvalue
        cases hlvalue
      exact .bind fun _ _ _ ↦ .require fun _ ↦ .bind fun _ _ _ ↦ .bind fun _ _ _ ↦ hcall _ _ _
    · exact .throw _

lemma ensures_declared (id : DeclId) (name : String) (loc : Location) :
    Ensures (declared id name loc) s fun e s' ↦ e.isLvalue → e.type = (s.symbols.decl id).type ∧ s' = s := by
  refine .bind (.state (.pure ?_))
  have hobject : ∀ ty : TypeId, (s.symbols.decl id).type = ty →
      Ensures (pure (.var ⟨ty, loc⟩ id) : ReadM Expr) s fun e s' ↦ e.isLvalue → e.type = (s.symbols.decl id).type ∧
        s' = s :=
    fun ty hty ↦ .pure fun _ ↦ ⟨hty.symm, rfl⟩
  have hvalue : ∀ e : Expr, e.isLvalue = false →
      Ensures (pure e : ReadM Expr) s fun e s' ↦ e.isLvalue → e.type = (s.symbols.decl id).type ∧ s' = s :=
    fun e he ↦ .pure fun h ↦ by simp [he] at h
  split
  · exact hobject _ (by simp [Declaration.type, *])
  · exact hobject _ (by simp [Declaration.type, *])
  · exact hobject _ (by simp [Declaration.type, *])
  · exact hvalue _ rfl
  · exact .throw _
  · exact hvalue _ rfl
  · refine .state ?_
    split
    · exact hvalue _ rfl
    · exact hvalue _ rfl
    · exact hvalue _ rfl
  · exact .throw _

lemma ConstPath.fixed (h : ConstPath s e) : e.isLvalue ∧ s.types.Fixed e.type := by
  induction h with
  | name hrun hlvalue hfixed =>
    obtain ⟨htype, rfl⟩ := ensures_declared _ _ _ _ _ hrun hlvalue
    exact ⟨hlvalue, htype ▸ hfixed⟩
  | pointer hp hfixed hrun =>
    obtain ⟨rfl, htypes⟩ := Ensures.typed (gives_dereference hp _) _ _ hrun
    exact ⟨rfl, htypes ▸ hfixed⟩
  | member _ hrun hlvalue ih =>
    obtain ⟨harray, -, hconst⟩ := ensures_member _ _ _ _ _ _ hrun hlvalue
    exact ⟨hlvalue, .const (hconst (ih.2.isConst harray))⟩
  | index _ helement hfixed hadd hrun _ =>
    obtain ⟨hgrow, hp⟩ : _ ∧ _ := hadd.elim (Ensures.typed (gives_index (.inl helement) _) _ _)
      (Ensures.typed (gives_index (.inr helement) _) _ _)
    obtain ⟨rfl, htypes⟩ := Ensures.typed (gives_dereference hp _) _ _ hrun
    exact ⟨rfl, htypes ▸ hfixed.extends hgrow⟩
  | first _ helement hfixed hrun _ =>
    obtain ⟨hgrow, p, rfl⟩ := Ensures.typed (gives_first helement _) _ _ hrun
    exact ⟨rfl, hfixed.extends hgrow⟩
  | later _ hgrow ih => exact ⟨ih.1, ih.2.extends hgrow⟩

/-! ## What is refused -/

def Refused (x : TypingM α) (y : Symbols) (t : TypeTable) : Prop :=
  ∃ loc f, (x y t).1 = .error (.semantic loc f)

namespace Refused

variable {β : Type} {k : α → TypingM β}

lemma fault (loc : Location) (f : SemanticFault) : Refused (typeFault loc f : TypingM α) y t := ⟨loc, f, rfl⟩

lemma bind (h : Refused x y t) : Refused (x >>= k) y t := by
  obtain ⟨loc, f, h⟩ := h
  refine ⟨loc, f, ?_⟩
  change (ExceptT.bindCont (fun a ↦ k a y) (x y t).1 (x y t).2).1 = _
  rcases hx : x y t with ⟨_ | _, _⟩ <;> rw [hx] at h <;> cases h
  rfl

lemma after {a : α} (hx : x y t = (.ok a, t')) (h : Refused (k a) y t') : Refused (x >>= k) y t := by
  obtain ⟨loc, f, h⟩ := h
  exact ⟨loc, f, (congrArg Prod.fst (bind_eq hx)).trans h⟩

lemma require {c : Prop} [Decidable c] {k : PUnit → TypingM β} (h : ¬c → Refused (k ⟨⟩) y t) :
    Refused (if c then typeFault loc f >>= k else k ⟨⟩) y t := by
  split
  · exact (fault loc f).bind
  · exact h ‹_›

end Refused

lemma refused_checkModifiable (hfixed : t.Fixed e.type) (loc : Location) : Refused (checkModifiable e loc) y t := by
  refine .after (a := t) rfl (.require fun _ ↦ .require fun hconst ↦ ?_)
  have harray : t.isArray e.type := by
    cases h : t.isArray e.type with
    | true => rfl
    | false => exact (hconst (hfixed.isConst h)).elim
  rw [harray, Bool.true_or]
  exact ⟨loc, .cannotAssign (t.display e.type), rfl⟩

lemma refused_convert {e : Expr} {target q : TypeId} (hdecay : decay e y t = (.ok p, t'))
    (hp : t'.get p.type = .pointer part) (hfixed : t'.Fixed part) (htarget : t'.pointee target = some q)
    (hq : t'.Exposes part q) : Refused (convert e target) y t := by
  have hinvalid : ∀ hint, ∃ f, t'.assignConversion p.type target hint = .invalid f := by
    intro _
    have hgoal : t'.get (t'.unqualified target) = .pointer q := pointee_eq_some.mp htarget
    have hbare : t'.unqualified p.type = p.type := by simp [unqualified, hp]
    have hne : p.type ≠ t'.unqualified target := by
      intro heq
      rw [← heq, hp] at hgoal
      cases hgoal
      exact hq.irrefl hfixed
    simp only [assignConversion, hbare, hne, if_false, hp, hgoal]
    exact pointerConversion_of_fixed hfixed hq
  refine .after hdecay (.after (a := t') rfl (.after (a := fold t' y p) rfl ?_))
  dsimp only
  obtain ⟨f, hf⟩ := hinvalid _
  rw [hf]
  exact .fault _ _

lemma gives_addressOf (he : e.isLvalue) (loc : Location) : Gives (addressOf e loc) y t fun p t' ↦
    t.Extends t' ∧ t'.get p.type = .pointer e.type := by
  refine .types ?_
  split
  · cases he
  · exact .require fun _ ↦ .bind (.entered (.pure ⟨t.extends_intern _, t.get_intern _⟩))

/-- An object is not assigned to in any way. Its address does not become a pointer through which it could be
modified, and neither does the object itself if it is an array of constants. -/
structure Unmodifiable (s : State) (e : Expr) : Prop where
  assign : ∀ op rhs loc, Refused (assign op e rhs loc) s.symbols s.types
  incDec : ∀ before increment loc, Refused (incDec before increment e loc) s.symbols s.types
  address : ∀ loc p t₁ y t₂ target q, addressOf e loc s.symbols s.types = (.ok p, t₁) → t₁.Extends t₂ →
    t₂.pointee target = some q → t₂.Exposes e.type q → Refused (convert p target) y t₂
  elements : ∀ part y t p t' target q, s.types.element e.type = some part → s.types.Fixed part → s.types.Extends t →
    decay e y t = (.ok p, t') → t'.pointee target = some q → t'.Exposes part q → Refused (convert e target) y t

/-- What is reached from a constant object cannot be modified. -/
theorem ConstPath.unmodifiable {s : State} (h : ConstPath s e) : Unmodifiable s e := by
  obtain ⟨hlvalue, hfixed⟩ := h.fixed
  refine ⟨fun op rhs loc ↦ (refused_checkModifiable hfixed loc).bind,
    fun before increment loc ↦ (refused_checkModifiable hfixed loc).bind, ?_, ?_⟩
  · intro loc p t₁ y t₂ target q hrun hgrow htarget hq
    obtain ⟨hgrow₁, hp⟩ := gives_addressOf hlvalue loc _ _ hrun
    have hp₂ : t₂.get p.type = .pointer e.type := (hgrow.get (by simp [hp])).trans hp
    have hkind := kind_of_get hp₂
    obtain ⟨p', t', hdecay, -, -, hsame⟩ := decay_eq p y t₂
    obtain ⟨rfl, rfl⟩ := hsame (by simp [TypeTable.isArray, hkind]) (by simp [TypeTable.isFunction, hkind])
    exact refused_convert hdecay hp₂ (hfixed.extends (hgrow₁.trans hgrow)) htarget hq
  · intro part y t p t' target q helement hpart hgrow hdecay htarget hq
    obtain ⟨hgrow', hpointer, -⟩ := gives_decay e _ _ hdecay
    exact refused_convert hdecay (hpointer part (hgrow.element helement))
      (hpart.extends (hgrow.trans hgrow')) htarget hq

/-! ## Examples -/

namespace Example

/-- `struct S { T a[3]; }`, and a pointer `p` to a constant object of it. -/
def reading (element : TypeId) : State where
  tokens := .ofTokens []
  types := {
    types := TypeTable.initial.types ++ #[.struct ⟨0⟩, .qualified .int true false, .array element (some 3),
      .qualified ⟨11⟩ true false, .pointer ⟨14⟩]
    structs := #[{ name := "S", isUnion := false, loc := .builtin, complete := true, size := 3,
                   fields := [⟨"a", ⟨13⟩, 0, none, .builtin⟩] }] }
  symbols := { decls := #[⟨"p", .variable ⟨15⟩ .none (.param 0), .global, .builtin⟩] }

def object : Expr := .deref ⟨⟨14⟩, .builtin⟩ (.var ⟨⟨15⟩, .builtin⟩ ⟨0⟩)

lemma constPath_object (element : TypeId) : ConstPath (reading element) object :=
  .pointer (s := reading element) (p := .var ⟨⟨15⟩, .builtin⟩ ⟨0⟩) rfl (.const rfl) (lift_eq (dereference_eq rfl rfl _))

def first (a : Expr) : TypingM Expr := do
  dereference (← binary .add a (.ofInt 0 .builtin) .builtin) .builtin

lemma constPath_first {s s' : State} {part : TypeId} (ha : ConstPath s a)
    (helement : s.types.element a.type = some part) (hfixed : s.types.Fixed part)
    (hrun : (first a : ReadM Expr) s = (.ok e, s')) : ConstPath s' e := by
  rcases hfirst : first a s.symbols s.types with ⟨r, _⟩
  rw [lift_eq hfirst] at hrun
  cases hrun
  obtain ⟨p, t1, hadd, hderef⟩ := Ensures.exists_of_bind hfirst
  exact .index ha helement hfixed (.inl (lift_eq hadd)) (lift_eq (s := { s with types := t1 }) hderef)

def comesTo (x : ReadM α) (s : State) (p : α → State → Bool) : Bool :=
  match x s with
  | (.ok a, s') => p a s'
  | (.error _, _) => false

lemma exists_of_comesTo {x : ReadM α} {s : State} {p : α → State → Bool} (h : comesTo x s p) :
    ∃ a s', x s = (.ok a, s') ∧ p a s' := by
  unfold comesTo at h
  split at h
  · exact ⟨_, _, ‹_›, h⟩
  · cases h

lemma exists_array (element : TypeId) (h : element = .int ∨ element = ⟨12⟩) :
    ∃ a s e s', ConstPath s a ∧ s.types.isConst a.type ∧ s.types.element a.type = some element ∧
      s.types.isConst element = (element == ⟨12⟩) ∧ (first a : ReadM Expr) s = (.ok e, s') ∧
      comesTo (assign none e (.ofInt 1 .builtin) .builtin) s' (fun _ _ ↦ true) = (element == .int) := by
  have hrun : comesTo (member .exhausted object "a" .builtin) (reading element) fun a s ↦
      a.isLvalue && s.types.isConst a.type && s.types.element a.type == some element &&
        s.types.isConst element == (element == ⟨12⟩) && comesTo (first a) s fun e s' ↦
          comesTo (assign none e (.ofInt 1 .builtin) .builtin) s' (fun _ _ ↦ true) == (element == .int) := by
    rcases h with rfl | rfl <;> decide +kernel
  obtain ⟨a, s, ha, h⟩ := exists_of_comesTo hrun
  simp only [Bool.and_eq_true, beq_iff_eq] at h
  obtain ⟨⟨⟨⟨hlvalue, hconst⟩, helement⟩, hpart⟩, hfirst⟩ := h
  obtain ⟨e, s', he, h⟩ := exists_of_comesTo hfirst
  exact ⟨a, s, e, s', .member (constPath_object element) ha hlvalue, hconst, helement, hpart, he, beq_iff_eq.mp h⟩

/-- Where `a` is an array of constants, `p->a[0]` is not modified. -/
theorem unmodifiable_element_of_const :
    ∃ a s e s', ConstPath s a ∧ (first a : ReadM Expr) s = (.ok e, s') ∧ ConstPath s' e ∧ Unmodifiable s' e := by
  obtain ⟨a, s, e, s', ha, -, helement, hpart, hrun, -⟩ := exists_array ⟨12⟩ (.inr rfl)
  have he := constPath_first ha helement (.const hpart) hrun
  exact ⟨a, s, e, s', ha, hrun, he, he.unmodifiable⟩

/-- Where `a` is an array of `int`, the member `p->a` is constant and `p->a[0]` is modified. -/
theorem exists_modified_element_of_const :
    ∃ a s e s', ConstPath s a ∧ s.types.isConst a.type ∧ (first a : ReadM Expr) s = (.ok e, s') ∧
      ∃ r s'', (assign none e (.ofInt 1 .builtin) .builtin : ReadM Expr) s' = (.ok r, s'') := by
  obtain ⟨a, s, e, s', ha, hconst, -, -, hrun, hassign⟩ := exists_array .int (.inl rfl)
  obtain ⟨r, s'', hassign, -⟩ := exists_of_comesTo hassign
  exact ⟨a, s, e, s', ha, hconst, hrun, r, s'', hassign⟩

end Example

end Grammar

end W16Compiler
