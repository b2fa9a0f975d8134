import W16Compiler.Grammar.Parse
import W16Compiler.Proofs.Grammar.Constness
import W16Compiler.Proofs.Grammar.Reading

/-!
# The precedence of operators

Expressions over variables of type `int` are written by a grammar with one level for each precedence: an
operator may stand where at least its own level is asked for, anything else stands in parentheses. The reader of
expressions, which keeps operators waiting on a stack, gives back exactly the tree that the tokens write, and
stops in front of the token behind it.
-/

namespace W16Compiler.Grammar

open List Option TypeTable Operator

/-! ## The grammar -/

inductive InfixOp where
  | binary (op : BinaryOp)
  | logical (conjunction : Bool)
  | comma

namespace InfixOp

/-- How the operator is written, and its precedence. -/
def entry : InfixOp → Punct × Nat
  | binary .mul => (.star, 13)
  | binary .div => (.slash, 13)
  | binary .mod => (.percent, 13)
  | binary .add => (.plus, 12)
  | binary .sub => (.minus, 12)
  | binary .shl => (.shl, 11)
  | binary .shr => (.shr, 11)
  | binary .lt => (.less, 10)
  | binary .le => (.lessEq, 10)
  | binary .gt => (.greater, 10)
  | binary .ge => (.greaterEq, 10)
  | binary .eq => (.eqEq, 9)
  | binary .ne => (.notEq, 9)
  | binary .and => (.amp, 8)
  | binary .xor => (.caret, 7)
  | binary .or => (.pipe, 6)
  | logical true => (.andAnd, 5)
  | logical false => (.orOr, 4)
  | comma => (.comma, 1)

abbrev punct (op : InfixOp) : Punct := op.entry.1

abbrev level (op : InfixOp) : Nat := op.entry.2

def operator : InfixOp → Operator
  | binary op => .binary op
  | logical conjunction => .logical conjunction
  | comma => .comma

def node (op : InfixOp) (loc : Location) (lhs rhs : Expr) : Expr :=
  match op with
  | binary op => .binary ⟨.int, loc⟩ op lhs rhs
  | logical conjunction => .logical ⟨.int, loc⟩ conjunction lhs rhs
  | comma => .comma ⟨.int, loc⟩ lhs rhs

end InfixOp

def assignPunct? : Option BinaryOp → Option Punct
  | none => some .assign
  | some .add => some .plusAssign
  | some .sub => some .minusAssign
  | some .mul => some .starAssign
  | some .div => some .slashAssign
  | some .mod => some .percentAssign
  | some .and => some .ampAssign
  | some .or => some .pipeAssign
  | some .xor => some .caretAssign
  | some .shl => some .shlAssign
  | some .shr => some .shrAssign
  | some _ => none

def assignNode (op : Option BinaryOp) (loc : Location) (lhs rhs : Expr) : Expr :=
  match op with
  | none => .assign ⟨.int, loc⟩ lhs rhs
  | some op => .compound ⟨.int, loc⟩ op lhs rhs .int

def unaryPunct : UnaryOp → Punct
  | .neg => .minus
  | .bitNot => .tilde
  | .logNot => .bang

def prefixOp : UnaryOp → PrefixOp
  | .neg => .neg
  | .bitNot => .bitNot
  | .logNot => .not

/-- The name stands for a variable of type `int`. -/
def State.IsIntVariable (s : State) (name : String) (d : DeclId) : Prop :=
  s.resolve name = some (.decl d) ∧ ∃ storage place, (s.symbols.decl d).entity = .variable .int storage place

/-- The tokens write the tree over the variables of `s`, at a place for operators of level `n` or more and with at
most `k` parentheses around any of them. -/
inductive Written (s : State) : Nat → Nat → Expr → List Token → Prop where
  | var {k n : Nat} {name : String} {d : DeclId} (loc : Location) (hd : s.IsIntVariable name d) :
    Written s k n (.var ⟨.int, loc⟩ d) [⟨.ident name, loc⟩]
  | unary {k n : Nat} {e : Expr} {ts : List Token} (op : UnaryOp) (loc : Location) (hn : n ≤ 15)
      (he : Written s k 15 e ts) : Written s k n (.unary ⟨.int, loc⟩ op e) (⟨.punct (unaryPunct op), loc⟩ :: ts)
  | between {k n : Nat} {a b : Expr} {ts us : List Token} (op : InfixOp) (loc : Location) (hn : n ≤ op.level)
      (ha : Written s k op.level a ts) (hb : Written s k (op.level + 1) b us) :
    Written s k n (op.node loc a b) (ts ++ ⟨.punct op.punct, loc⟩ :: us)
  | conditional {k n : Nat} {c a b : Expr} {ts us vs : List Token} (loc loc' : Location) (hn : n ≤ 3)
      (hc : Written s k 4 c ts) (ha : Written s k 1 a us) (hb : Written s k 3 b vs) :
    Written s k n (.conditional ⟨.int, loc'⟩ c a b)
      (ts ++ ⟨.punct .question, loc⟩ :: (us ++ ⟨.punct .colon, loc'⟩ :: vs))
  | assign {k n : Nat} {name : String} {d : DeclId} {op : Option BinaryOp} {p : Punct} {b : Expr} {ts : List Token}
      (loc loc' : Location) (hn : n ≤ 2) (hp : assignPunct? op = some p) (hd : s.IsIntVariable name d)
      (hb : Written s k 2 b ts) :
    Written s k n (assignNode op loc' (.var ⟨.int, loc⟩ d) b) (⟨.ident name, loc⟩ :: ⟨.punct p, loc'⟩ :: ts)
  | parentheses {k n : Nat} {e : Expr} {ts : List Token} (loc loc' : Location) (he : Written s k 1 e ts) :
    Written s (k + 1) n e (⟨.punct .leftParen, loc⟩ :: (ts ++ [⟨.punct .rightParen, loc'⟩]))

/-! ## Nodes of type `int` -/

structure IsOpenInt (y : Symbols) (t : TypeTable) (e : Expr) : Prop where
  type : e.type = .int
  isOpen : fold t y e = none

variable {y : Symbols} {t : TypeTable} {s : State} {r : Readers} {e a b c : Expr} {d : DeclId} {k l m n : Nat}
  {opnds operands : List Expr} {pend ops : List Pending} {tok : Token} {ts rest : List Token} {p : Punct} {name : String}

section

variable {loc : Location}

lemma numericCast_int (he : e.type = .int) : numericCast e .int y t = (.ok e, t) := by
  rw [numericCast, types_bind, he, if_pos rfl]
  rfl

lemma constantOf_bind {α : Type} (k : Option Constant → TypingM α) :
    (constantOf e >>= k) y t = k (fold t y e) y t := rfl

lemma foldNode_open (he : fold t y e = none) : foldNode e y t = (.ok e, t) := by
  rw [foldNode, types_bind, constantOf_bind, he]
  rfl

variable (ht : t.get .int = .int .word true)
include ht

lemma types_int : t.unqualified .int = .int ∧ t.kind .int = .int .word true := by
  have hu : t.unqualified .int = .int := by simp [unqualified, ht]
  exact ⟨hu, by rw [kind, hu, ht]⟩

lemma decay_int (he : e.type = .int) : decay e y t = (.ok e, t) := by
  rw [decay, types_bind]
  simp only [element, isFunction, he, types_int ht]
  rfl

lemma condition_int (he : e.type = .int) : condition e y t = (.ok e, t) := by
  rw [condition, bind_eq (decay_int ht he), types_bind, if_pos]
  · rfl
  · simp [isScalar, isArith, isInteger, he, types_int ht]

lemma promote_int : t.promote .int = .int := by
  simp [promote, rank, types_int ht, Rank.type]

lemma commonType_int : t.commonType .int .int = .int := by
  simp [commonType, rank, types_int ht, Rank.type, Rank.stronger]

lemma isArith_int : t.isArith .int ∧ t.isInteger .int ∧ t.isPointer .int = false := by
  simp [isArith, isInteger, isPointer, types_int ht]

lemma promoted_int (integerOnly : Bool) (he : e.type = .int) :
    promoted integerOnly e loc y t = (.ok (e, .int), t) := by
  rw [promoted, bind_eq (decay_int ht he), types_bind, he, promote_int ht, if_neg]
  · exact bind_eq (numericCast_int he)
  · cases integerOnly <;> simp [isArith_int ht]

lemma unary_int (op : UnaryOp) (he : IsOpenInt y t e) :
    unary (prefixOp op) e loc y t = (.ok (.unary ⟨.int, loc⟩ op e), t) := by
  have hopen (op : UnaryOp) : fold t y (.unary ⟨.int, loc⟩ op e) = none := by simp [fold, he.isOpen]
  cases op with
  | logNot => exact (bind_eq (condition_int ht he.type)).trans (foldNode_open (hopen .logNot))
  | neg => exact (bind_eq (promoted_int ht false he.type)).trans (foldNode_open (hopen .neg))
  | bitNot => exact (bind_eq (promoted_int ht true he.type)).trans (foldNode_open (hopen .bitNot))

lemma comparison_int (op : BinaryOp) (ha : IsOpenInt y t a) (hb : b.type = .int) :
    comparison op a b loc y t = (.ok (.binary ⟨.int, loc⟩ op a b), t) := by
  rw [comparison, types_bind, ha.type, hb, if_pos (by simp [isArith_int ht]), commonType_int ht,
    bind_eq (numericCast_int ha.type), bind_eq (numericCast_int hb)]
  exact foldNode_open (by simp [fold, ha.isOpen])

lemma arithmetic_int (op : BinaryOp) (ha : IsOpenInt y t a) (hb : b.type = .int) :
    arithmetic op a b loc y t = (.ok (.binary ⟨.int, loc⟩ op a b), t) := by
  rw [arithmetic, types_bind, ha.type, hb, if_neg, promote_int ht, commonType_int ht, ite_self]
  · refine (bind_eq (numericCast_int ha.type)).trans ((bind_eq (numericCast_int hb)).trans ?_)
    exact foldNode_open (by simp [fold, ha.isOpen])
  · simp [acceptsOperands, isArith_int ht]

lemma binary_int (op : BinaryOp) (ha : IsOpenInt y t a) (hb : b.type = .int) :
    binary op a b loc y t = (.ok (.binary ⟨.int, loc⟩ op a b), t) := by
  rw [binary, bind_eq (decay_int ht ha.type), bind_eq (decay_int ht hb), types_bind]
  split
  · exact comparison_int ht op ha hb
  · simp only [ha.type, hb, isArith_int ht]
    exact arithmetic_int ht op ha hb

lemma logical_int (conjunction : Bool) (ha : IsOpenInt y t a) (hb : b.type = .int) :
    logical conjunction a b loc y t = (.ok (.logical ⟨.int, loc⟩ conjunction a b), t) := by
  rw [logical, bind_eq (condition_int ht ha.type), bind_eq (condition_int ht hb)]
  exact foldNode_open (by simp [fold, ha.isOpen])

lemma comma_int (hb : b.type = .int) : comma a b loc y t = (.ok (.comma ⟨.int, loc⟩ a b), t) := by
  rw [comma, bind_eq (decay_int ht hb), hb]
  rfl

lemma conditional_int (hc : IsOpenInt y t c) (ha : a.type = .int) (hb : b.type = .int) :
    conditional c a b loc y t = (.ok (.conditional ⟨.int, loc⟩ c a b), t) := by
  have hjoin : joinArms a b loc y t = (.ok (a, b, .int), t) := by
    rw [joinArms, types_bind, ha, hb, if_pos (by simp [isArith_int ht]), commonType_int ht]
    exact (bind_eq (numericCast_int ha)).trans (bind_eq (numericCast_int hb))
  rw [conditional, bind_eq (condition_int ht hc.type), bind_eq (decay_int ht ha), bind_eq (decay_int ht hb),
    bind_eq hjoin]
  dsimp only
  rw [constantOf_bind, hc.isOpen]
  rfl

lemma compoundAssign_int (op : BinaryOp) (ha : a.type = .int) (hb : b.type = .int) :
    compoundAssign op a b loc y t = (.ok (.compound ⟨.int, loc⟩ op a b .int), t) := by
  have haccepts : acceptsOperands t op .int .int := by simp [acceptsOperands, isArith_int ht]
  rw [compoundAssign, types_bind]
  simp only [ha, (types_int ht).1]
  rw [bind_eq (decay_int ht hb)]
  simp only [isArith_int ht, Bool.false_and, Bool.false_eq_true, if_false]
  rw [types_bind]
  simp only [hb, haccepts, Bool.not_true, Bool.false_eq_true, if_false, promote_int ht, commonType_int ht]
  split <;> exact bind_eq (numericCast_int hb)

lemma assign_int {info : ExprInfo} (op : Option BinaryOp)
    (hinfo : info.type = .int) (hd : (y.decl d).entity = .variable .int storage place) (hb : IsOpenInt y t b) :
    assign op (.var info d) b loc y t = (.ok (assignNode op loc (.var info d) b), t) := by
  have htype : (Expr.var info d).type = .int := hinfo
  have hcheck : checkModifiable (.var info d) loc y t = (.ok (), t) := by
    have hread : (read : TypingM Symbols) y t = (.ok y, t) := rfl
    unfold checkModifiable
    rw [types_bind, if_neg (by simp [Expr.isLvalue]), htype, if_neg (by simp [isConst, ht]),
      if_neg (by simp [isArray, isFunction, types_int ht])]
    dsimp only
    rw [bind_eq hread, hd]
    rfl
  unfold assign
  rw [bind_eq hcheck]
  cases op with
  | none =>
    have hconvert : convert b .int y t = (.ok b, t) := by
      rw [convert, bind_eq (decay_int ht hb.type), types_bind, constantOf_bind, hb.isOpen, hb.type]
      simp only [assignConversion, if_true]
      rfl
    dsimp only
    rw [types_bind, htype, (types_int ht).1, bind_eq hconvert]
    rfl
  | some op => exact compoundAssign_int ht op htype hb.type

end

/-! ## Waiting operators -/

section

variable {extra : List Expr} {p : Pending}

/-- Over the operands `opnds`, the operators `pend` come to `e`, and none of them binds weaker than `n`. -/
structure Waits (y : Symbols) (t : TypeTable) (n : Nat) (opnds : List Expr) (pend : List Pending)
  (e : Expr) : Prop where
  binds : ∀ q ∈ pend, q.op ≠ .question ∧ n ≤ q.precedence
  reduces : ∀ (go : Pending → Bool) (operands : List Expr) (ops : List Pending), (∀ q ∈ pend, go q) →
    reduceWhile go (opnds ++ operands) (pend ++ ops) y t = reduceWhile go (e :: operands) ops y t

lemma waits_operand (y : Symbols) (t : TypeTable) (n : Nat) (e : Expr) : Waits y t n [e] [] e :=
  ⟨by simp, fun _ _ _ _ ↦ rfl⟩

lemma Waits.push (h : Waits y t m opnds pend b) (hop : p.op ≠ .question) (hp : n ≤ p.precedence) (hm : n ≤ m)
    (hreduce : ∀ operands, reduce p (b :: (extra ++ operands)) y t = (.ok (e :: operands), t)) :
    Waits y t n (opnds ++ extra) (pend ++ [p]) e where
  binds q hq := by
    rcases mem_append.mp hq with hq | hq
    · exact ⟨(h.binds q hq).1, Nat.le_trans hm (h.binds q hq).2⟩
    · obtain rfl := mem_singleton.mp hq
      exact ⟨hop, hp⟩
  reduces go operands ops hgo := by
    rw [append_assoc, append_assoc, h.reduces go _ _ fun q hq ↦ hgo q (by simp [hq])]
    rw [singleton_append, reduceWhile, if_pos (hgo p (by simp))]
    exact bind_eq (hreduce operands)

/-- What waits below leaves operators of level `n` and more alone. -/
def Admits (ops : List Pending) (n : Nat) : Prop :=
  ∀ q ∈ ops.head?, q.op = .question ∨ q.precedence < n ∨ q.precedence = n ∧ n ∈ [2, 3, 15]

lemma reduceWhile_of_head (h : ∀ q ∈ ops.head?, go q = false) :
    reduceWhile go operands ops y t = (.ok (operands, ops), t) := by
  cases ops with
  | nil => rfl
  | cons q ops =>
    rw [reduceWhile, if_neg (by simp [h q rfl])]
    rfl

end

/-! ## Nodes of written operators -/

lemma Written.isOpenInt (h : Written s k n e ts) : IsOpenInt s.symbols s.types e := by
  induction h with
  | var => exact ⟨rfl, rfl⟩
  | unary op loc hn he ih => exact ⟨rfl, by simp [fold, ih.isOpen]⟩
  | between op loc hn ha hb iha ihb => cases op <;> exact ⟨rfl, by simp [InfixOp.node, fold, iha.isOpen]⟩
  | conditional loc loc' hn hc ha hb ihc iha ihb => exact ⟨rfl, by simp [fold, ihc.isOpen]⟩
  | @assign _ _ _ _ op => cases op <;> exact ⟨rfl, by simp [assignNode, fold]⟩
  | parentheses loc loc' he ih => exact ih

abbrev suffixPuncts : List Punct := [.leftBracket, .leftParen, .dot, .arrow, .plusPlus, .minusMinus]

def Closes (rest : List Token) : Prop := ∃ tok rest' p, rest = tok :: rest' ∧ tok.kind = .punct p ∧ p ∉ suffixPuncts

lemma InfixOp.entry_spec (op : InfixOp) :
    ofInfix? op.punct = some (op.operator, op.level, false) ∧ op.level ∉ [2, 3, 15] ∧ op.punct ∉ suffixPuncts := by
  rcases op with op | conjunction | _
  · cases op <;> exact ⟨rfl, by decide⟩
  · cases conjunction <;> exact ⟨rfl, by decide⟩
  · exact ⟨rfl, by decide⟩

lemma assignPunct?_spec {p : Punct} (h : assignPunct? op = some p) :
    ofInfix? p = some (.assign op, 2, true) ∧ p ∉ suffixPuncts := by
  rcases op with _ | op
  · cases h
    exact ⟨rfl, by decide⟩
  · cases op <;> cases h <;> exact ⟨rfl, by decide⟩

lemma ofPrefix?_unaryPunct (op : UnaryOp) : ofPrefix? (unaryPunct op) = some (prefixOp op) := by
  cases op <;> rfl

/-! ## Operands -/

section

variable {tok' : Token}

lemma State.IsIntVariable.isTypedefName (h : s.IsIntVariable name d) :
    Reads (isTypedefName name) s [] false s.types := by
  obtain ⟨hresolve, _, _, hentity⟩ := h
  have hlookup : ∃ c, s.symbols.lookup s.scope name = some (c, d) := by
    obtain ⟨before, c, after, hchain, hc, hbefore⟩ := findSome?_eq_some_iff.mp hresolve
    refine ⟨c, findSome?_eq_some_iff.mpr ⟨before, c, after, hchain, ?_, fun x hx ↦ ?_⟩⟩
    · simp only [orElse_eq_orElse, orElse_eq_or, or_eq_some_iff, map_eq_some_iff] at hc
      rcases hc with hmember | ⟨-, d', hlocal, hd'⟩
      · split at hmember <;> simp at hmember
      · cases hd'
        simp [hlocal]
    · have := hbefore x hx
      simp only [orElse_eq_orElse, orElse_eq_or, or_eq_none_iff, map_eq_none_iff] at this ⊢
      exact this.2
  obtain ⟨c, hlookup⟩ := hlookup
  refine Reads.state ?_
  simp only [hlookup, Declaration.isTypedef, hentity]
  exact .pure _

lemma reads_suffixed (h : Reads (primary r) s (tok :: ts) e s.types) (hahead : s.tokens.ahead = tok :: ts ++ rest)
    (hrest : Closes rest) : Reads (suffixed r) s (tok :: ts) e s.types := by
  obtain ⟨_, _, p, rfl, hkind, _⟩ := hrest
  rw [← append_nil (tok :: ts)]
  refine h.bind fun u hu ↦ .done (.peek (hu.ahead hahead) ?_)
  rw [hkind]
  split <;> simp_all
  exact .pure _

def Starts (s : State) (tok : Token) : Prop :=
  (∃ p, tok.kind = .punct p ∧ p ≠ .leftBrace) ∨ ∃ name d, tok.kind = .ident name ∧ s.IsIntVariable name d

lemma Written.exists_starts {k n : Nat} (h : Written s k n e ts) : ∃ tok ts', ts = tok :: ts' ∧ Starts s tok := by
  induction h with
  | var loc hd => exact ⟨_, _, rfl, .inr ⟨_, _, rfl, hd⟩⟩
  | unary op => exact ⟨_, _, rfl, .inl ⟨_, rfl, by cases op <;> decide⟩⟩
  | between op loc hn ha hb iha ihb =>
    obtain ⟨_, _, rfl, hstarts⟩ := iha
    exact ⟨_, _, rfl, hstarts⟩
  | conditional loc loc' hn hc ha hb ihc iha ihb =>
    obtain ⟨_, _, rfl, hstarts⟩ := ihc
    exact ⟨_, _, rfl, hstarts⟩
  | assign loc loc' hn hp hd hb ih => exact ⟨_, _, rfl, .inr ⟨_, _, rfl, hd⟩⟩
  | parentheses loc loc' he ih => exact ⟨_, _, rfl, .inl ⟨_, rfl, by decide⟩⟩

lemma reads_typeFollows (h : s.tokens.ahead = tok :: tok' :: rest) (htok : tok.isEnd = false)
    (hstarts : Starts s tok') : Reads typeFollows s [] false s.types := by
  rcases hstarts with ⟨p, hkind, -⟩ | ⟨_, d, hkind, hd⟩
  · refine (reads_peekNth h htok (by simp [Token.isEnd, hkind])).look fun u hu ↦ ?_
    rw [hkind]
    exact .pure _
  · refine (reads_peekNth h htok (by simp [Token.isEnd, hkind])).look fun u hu ↦ ?_
    rw [hkind]
    exact State.IsIntVariable.isTypedefName (s := s.behind u s.types) hd

lemma reads_nested {α : Type} {act : ReadM α} {a : α} {t : TypeTable} (hdepth : s.depth < maxNesting)
    (h : Reads act { s with depth := s.depth + 1 } ts a t) : Reads (nested act) s ts a t := by
  obtain ⟨u, hu, hrun⟩ := h
  refine ⟨u, hu, ?_⟩
  change (if s.depth ≥ maxNesting then _ else _ : ReadM α) s = _
  rw [if_neg (Nat.not_le.mpr hdepth)]
  have hattempt : attempt act { s with depth := s.depth + 1 } =
      (.ok (.ok a), State.behind { s with depth := s.depth + 1 } u t) := by
    change (Except.ok (act { s with depth := s.depth + 1 }).1, (act { s with depth := s.depth + 1 }).2) = _
    rw [hrun]
  exact (bind_run rfl).trans (bind_run hattempt)

lemma declared_eq {ty : TypeId} (loc : Location) (h : (s.symbols.decl d).entity = .variable ty storage place) :
    declared d name loc s = (.ok (.var ⟨ty, loc⟩ d), s) := by
  have hd : declaration d s = (.ok (s.symbols.decl d), s) := rfl
  rw [declared, bind_run hd, h]
  rfl

lemma reads_variable {loc : Location} (h : s.tokens.ahead = ⟨.ident name, loc⟩ :: rest) (hd : s.IsIntVariable name d)
    (hrest : Closes rest) (r : Readers) (ops : List Pending) :
    Reads (operand r ops) s [⟨.ident name, loc⟩] (.var ⟨.int, loc⟩ d, ops) s.types := by
  have hidentifier (u : TokenStream) :
      identifier r name loc (s.behind u s.types) = (.ok (.var ⟨.int, loc⟩ d), s.behind u s.types) := by
    obtain ⟨hresolve, _, _, hentity⟩ := hd
    have hstate : (get : ReadM State) (s.behind u s.types) = (.ok (s.behind u s.types), s.behind u s.types) := rfl
    have hresolve : (s.behind u s.types).resolve name = some (.decl d) := hresolve
    rw [identifier, bind_run hstate, hresolve]
    exact declared_eq loc hentity
  have hprimary : Reads (primary r) s [⟨.ident name, loc⟩] (.var ⟨.int, loc⟩ d) s.types := by
    obtain ⟨u, hu, hnext⟩ := reads_next h rfl
    exact ⟨u, hu, (bind_run hnext).trans (hidentifier u)⟩
  exact .done (.peek h ((reads_suffixed hprimary h hrest).last fun _ ↦ rfl))

lemma reads_parenthesized {loc loc' : Location}
    (h : s.tokens.ahead = ⟨.punct .leftParen, loc⟩ :: (ts ++ ⟨.punct .rightParen, loc'⟩ :: rest))
    (hstarts : ∃ tok ts', ts = tok :: ts' ∧ Starts s tok) (hdepth : s.depth < maxNesting)
    (hinner : ∀ u, s.tokens.Takes [⟨.punct .leftParen, loc⟩] u →
      Reads (r.expression true) { s with tokens := u, depth := s.depth + 1 } ts e s.types)
    (hrest : Closes rest) (ops : List Pending) :
    Reads (operand r ops) s (⟨.punct .leftParen, loc⟩ :: (ts ++ [⟨.punct .rightParen, loc'⟩])) (e, ops) s.types := by
  obtain ⟨tok, ts, rfl, hstarts⟩ := hstarts
  refine .done (.peek h ((reads_typeFollows h rfl hstarts).look fun u hu ↦ ?_))
  have hahead := hu.ahead h
  have hprimary : Reads (primary r) (s.behind u s.types)
      (⟨.punct .leftParen, loc⟩ :: (tok :: ts ++ [⟨.punct .rightParen, loc'⟩])) e s.types := by
    have hbrace : tok.isPunct .leftBrace = false := by
      rcases hstarts with ⟨p, hkind, _⟩ | ⟨_, d, hkind, -⟩ <;> simp_all [Token.isPunct]
    rw [← singleton_append]
    refine (reads_next hahead rfl).bind fun u' hu' ↦ .peekIs (hu'.ahead hahead) ?_
    rw [hbrace]
    refine (reads_nested (s := s.behind u' s.types) hdepth (hinner u' (hu.trans hu'))).bind fun u'' hu'' ↦ ?_
    exact (reads_expect (hu''.ahead (hu'.ahead hahead)) rfl).last fun _ ↦ rfl
  refine (reads_suffixed hprimary ?_ hrest).last fun _ ↦ rfl
  simpa using hahead

lemma operand_prefix {p : Punct} (h : s.tokens.ahead = tok :: rest) (htok : tok.kind = .punct p)
    (hp : ofPrefix? p = some op) (r : Readers) (ops : List Pending) : ∃ u, s.tokens.Takes [tok] u ∧
      operand r ops s = operand r (⟨.prefixOp op, prefixPrecedence, tok.loc⟩ :: ops) (s.behind u s.types) := by
  unfold operand
  refine Reads.turn (.peek h ?_)
  split
  · simp_all
  · simp_all
  · simp_all
  · rename_i hparen
    cases hparen.symm.trans htok
    cases hp
  · rename_i q _ hq
    cases hq.symm.trans htok
    rw [hp]
    exact (reads_next h (by simp [Token.isEnd, htok])).last fun _ ↦ rfl
  · simp_all

end

/-! ## Operators behind operands -/

section

variable (hwaits : Waits s.symbols s.types m opnds pend e) (h : s.tokens.ahead = tok :: rest)
  (htok : tok.kind = .punct p)

include hwaits h htok

lemma reads_operator (hp : ofInfix? p = some (op, l, right))
    (hm : l < m ∨ l = m ∧ right = false) (hadmits : Admits ops n) (hn : n ≤ l) (hright : l ∈ [2, 3, 15] → right) :
    Reads (behindOperand true (opnds ++ operands) (pend ++ ops)) s [tok]
      (.again (e :: operands, ⟨op, l, tok.loc⟩ :: ops)) s.types := by
  refine .peek h ?_
  split
  · rename_i hcolon
    cases hcolon.symm.trans htok
    cases hp
  · rename_i q _ hq
    cases hq.symm.trans htok
    rw [hp]
    dsimp only
    rw [if_neg (by simp), ← append_nil [_]]
    refine (reads_next h (by simp [Token.isEnd, htok])).bind fun u _ ↦ ?_
    refine (Reads.lift (s := s.behind u s.types) ((hwaits.reduces _ operands ops fun q hq ↦ ?_).trans
      (reduceWhile_of_head fun q hq ↦ ?_))).last fun _ ↦ rfl
    -- What has been read of the left operand is reduced, and nothing below.
    · have := hwaits.binds q hq
      grind
    · have := hadmits q hq
      grind
  · simp_all

lemma reads_colon (hp : p = .colon) (hq : q.op = .question) :
    Reads (behindOperand true (opnds ++ operands) (pend ++ q :: ops)) s [tok]
      (.again (e :: operands, ⟨.conditional, 3, tok.loc⟩ :: ops)) s.types := by
  have hreduce : reduceWhile (·.op ≠ .question) (opnds ++ operands) (pend ++ q :: ops) s.symbols s.types =
      (.ok (e :: operands, q :: ops), s.types) := by
    rw [hwaits.reduces _ _ _ fun q hq ↦ by simpa using (hwaits.binds q hq).1]
    exact reduceWhile_of_head (by simp [hq])
  refine .peek h ?_
  rw [htok, hp]
  dsimp only
  rw [if_neg (by simp [hq]), ← append_nil [_]]
  refine (reads_next h (by simp [Token.isEnd, htok])).bind fun u _ ↦ ?_
  exact (Reads.lift (s := s.behind u s.types) hreduce).last fun _ ↦ rfl

lemma reads_end (hcolon : p ≠ .colon) (hp : ofInfix? p = none) (allowComma : Bool) :
    Reads (behindOperand allowComma opnds pend) s [] (.done e) s.types := by
  have hreduce : reduceAll opnds pend s.symbols s.types = (.ok e, s.types) := by
    have hall := hwaits.reduces (·.op ≠ .question) [] [] fun q hq ↦ by simpa using (hwaits.binds q hq).1
    rw [append_nil, append_nil] at hall
    exact bind_eq hall
  refine .peek h ?_
  split
  · rename_i hkind
    cases hkind.symm.trans htok
    exact (hcolon rfl).elim
  · rename_i q _ hq
    cases hq.symm.trans htok
    rw [hp]
    exact (Reads.lift hreduce).last fun _ ↦ rfl
  · simp_all

end

lemma Admits.mono {ops : List Pending} {m n : Nat} (h : Admits ops n) (hn : n ≤ m) : Admits ops m := by
  intro q hq
  have := h q hq
  grind

/-! ## Trees -/

section

variable {ts' us : List Token} {opnds' : List Expr} {ops' pend' : List Pending} {m' : Nat} (loc loc' : Location)

def Resumes (r : Readers) (s : State) (operands : List Expr) (ops : List Pending) (ts : List Token) (b : Expr) : Prop :=
  Reads (behindOperand true operands ops) s ts (.done b) s.types ∨
  ∃ tok ts' waiting, ts = tok :: ts' ∧ Reads (behindOperand true operands ops) s [tok] (.again waiting) s.types ∧
    ∀ u, s.tokens.Takes [tok] u → Reads (loop waiting (expressionTurn r true)) (s.behind u s.types) ts' b s.types

lemma reads_turn (h : Reads (operand r ops) s (tok :: ts) (e, ops') s.types)
    (hrest : ∀ u, s.tokens.Takes (tok :: ts) u → Resumes r (s.behind u s.types) (e :: operands) ops' ts' b) :
    Reads (loop (operands, ops) (expressionTurn r true)) s (tok :: ts ++ ts') b s.types := by
  obtain ⟨u, hu, hrun⟩ := h
  rcases hrest u hu with ⟨u', hu', hdone⟩ | ⟨tok', _, waiting, rfl, ⟨u', hu', hagain⟩, hloop⟩
  · exact .done ⟨u', hu.trans hu', (bind_run hrun).trans hdone⟩
  · have hturn : Reads (expressionTurn r true (operands, ops)) s (tok :: (ts ++ [tok'])) (.again waiting) s.types :=
      ⟨u', hu.trans hu', (bind_run hrun).trans hagain⟩
    have hloop := hturn.again fun u1 hu1 ↦ hloop u1 (hu.cancel hu1)
    rwa [← cons_append, append_assoc] at hloop

lemma reads_prefix (h : s.tokens.ahead = tok :: rest) (htok : tok.kind = .punct p)
    (hp : ofPrefix? p = some op) (hrest : ∀ u, s.tokens.Takes [tok] u →
      Reads (loop (operands, ⟨.prefixOp op, prefixPrecedence, tok.loc⟩ :: ops) (expressionTurn r true))
        (s.behind u s.types) ts b s.types) :
    Reads (loop (operands, ops) (expressionTurn r true)) s (tok :: ts) b s.types := by
  obtain ⟨u, hu, hoperand⟩ := operand_prefix h htok hp r ops
  obtain ⟨u', hu', hrun⟩ := hrest u hu
  have hle : u.remaining + 1 ≤ s.tokens.remaining + 1 := by
    rw [hu.remaining_eq]
    omega
  -- Both loops make the same first turn, for it begins with the operators before the operand.
  have hturn : expressionTurn r true (operands, ops) s = expressionTurn r true
      (operands, ⟨.prefixOp op, prefixPrecedence, tok.loc⟩ :: ops) (s.behind u s.types) := bind_congr hoperand
  exact ⟨u', hu.trans hu', (bind_congr hturn).trans (loopWithin_mono hrun hle)⟩

def Stacks (s : State) (k n : Nat) (ts : List Token) (opnds : List Expr) (pend : List Pending) : Prop :=
  ∀ ⦃j depth : Nat⦄ ⦃u : TokenStream⦄ ⦃operands : List Expr⦄ ⦃ops : List Pending⦄ ⦃rest ts' : List Token⦄ ⦃b : Expr⦄,
    k ≤ j → depth + k ≤ maxNesting → Admits ops n → u.ahead = ts ++ rest → Closes rest →
    (∀ u', u.Takes ts u' →
      Resumes (readersWithin j) { s with tokens := u', depth } (opnds ++ operands) (pend ++ ops) ts' b) →
    Reads (loop (operands, ops) (expressionTurn (readersWithin j) true))
      { s with tokens := u, depth } (ts ++ ts') b s.types

lemma stacks_variable (hd : s.IsIntVariable name d) : Stacks s k n [⟨.ident name, loc⟩] [.var ⟨.int, loc⟩ d] [] := by
  intro j depth u _ ops _ ts' b hj _ _ hahead hrest hresume
  exact reads_turn (reads_variable (s := { s with tokens := u, depth }) hahead hd hrest _ ops) hresume

lemma stacks_unary (op : UnaryOp) (ha : Stacks s k 15 ts opnds pend) :
    Stacks s k n (⟨.punct (unaryPunct op), loc⟩ :: ts) opnds
      (pend ++ [⟨.prefixOp (prefixOp op), prefixPrecedence, loc⟩]) := by
  intro j _ u _ ops _ ts' b hj hdepth _ hahead hrest hresume
  refine reads_prefix hahead rfl (ofPrefix?_unaryPunct op) fun u1 hu1 ↦ ?_
  refine ha hj hdepth (by simp [Admits, prefixPrecedence]) (hu1.ahead hahead) hrest fun u2 hu2 ↦ ?_
  simpa using hresume u2 (hu1.trans hu2)

lemma stacks_operator (hp : ofInfix? p = some (op, l, right)) (hn : n ≤ l)
    (hright : l ∈ [2, 3, 15] → right) (hm : l < m ∨ l = m ∧ right = false)
    (hbelow : ∀ ops, Admits (⟨op, l, loc⟩ :: ops) m') (hclosed : p ∉ suffixPuncts)
    (hwaits : Waits s.symbols s.types m opnds pend a) (ha : Stacks s k m ts opnds pend)
    (hb : Stacks s k m' us opnds' pend') :
    Stacks s k n (ts ++ ⟨.punct p, loc⟩ :: us) (opnds' ++ [a]) (pend' ++ [⟨op, l, loc⟩]) := by
  intro j depth u _ ops _ ts' b hj hdepth hadmits hahead hrest hresume
  rw [append_assoc, cons_append] at hahead ⊢
  refine ha hj hdepth (hadmits.mono (by omega)) hahead ⟨_, _, _, rfl, rfl, hclosed⟩ fun u1 hu1 ↦ ?_
  refine .inr ⟨_, _, _, rfl, reads_operator (s := { s with tokens := u1, depth }) hwaits (hu1.ahead hahead) rfl hp hm
    hadmits hn hright, fun u2 hu2 ↦ ?_⟩
  refine hb hj hdepth (hbelow ops) (hu2.ahead (hu1.ahead hahead)) hrest fun u3 hu3 ↦ ?_
  simpa using hresume u3 (hu1.trans (hu2.trans hu3))

lemma stacks_colon {extra : List Expr} (hwaits : Waits s.symbols s.types 1 opnds pend a)
    (ha : Stacks s k n ts (opnds ++ extra) (pend ++ [⟨.question, 3, loc⟩])) (hb : Stacks s k 3 us opnds' pend') :
    Stacks s k n (ts ++ ⟨.punct .colon, loc'⟩ :: us) (opnds' ++ a :: extra) (pend' ++ [⟨.conditional, 3, loc'⟩]) := by
  intro j depth u _ ops _ ts' b hj hdepth hadmits hahead hrest hresume
  rw [append_assoc, cons_append] at hahead ⊢
  refine ha hj hdepth hadmits hahead ⟨_, _, _, rfl, rfl, by decide⟩ fun u1 hu1 ↦ ?_
  rw [append_assoc, append_assoc]
  refine .inr ⟨_, _, _, rfl, reads_colon (s := { s with tokens := u1, depth }) hwaits (hu1.ahead hahead) rfl rfl rfl,
    fun u2 hu2 ↦ ?_⟩
  refine hb hj hdepth (by simp [Admits]) (hu2.ahead (hu1.ahead hahead)) hrest fun u3 hu3 ↦ ?_
  simpa using hresume u3 (hu1.trans (hu2.trans hu3))

lemma Stacks.reads_expression {j depth : Nat} (h : Stacks s k n ts opnds pend)
    (hwaits : Waits s.symbols s.types n opnds pend e) (hj : k ≤ j) (hdepth : depth + k ≤ maxNesting)
    (hahead : u.ahead = ts ++ tok :: rest) (htok : tok.kind = .punct p) (hp : p = .semicolon ∨ p = .rightParen) :
    Reads (expression (readersWithin j) true) { s with tokens := u, depth } ts e s.types := by
  have hends : p ∉ suffixPuncts ∧ p ≠ .colon ∧ ofInfix? p = none := by
    rcases hp with rfl | rfl <;> decide
  rw [← append_nil ts]
  refine h hj hdepth (by simp [Admits]) hahead ⟨_, _, _, rfl, htok, hends.1⟩ fun u1 hu1 ↦ .inl ?_
  rw [append_nil, append_nil]
  exact reads_end (s := { s with tokens := u1, depth }) hwaits (hu1.ahead hahead) htok hends.2.1 hends.2.2 true

lemma stacks_parentheses (hwaits : Waits s.symbols s.types 1 opnds pend e) (he : Written s k 1 e ts)
    (h : Stacks s k 1 ts opnds pend) :
    Stacks s (k + 1) n (⟨.punct .leftParen, loc⟩ :: (ts ++ [⟨.punct .rightParen, loc'⟩])) [e] [] := by
  intro j depth u _ ops rest ts' b hj _ _ hahead hrest hresume
  obtain ⟨j, rfl⟩ : ∃ i, j = i + 1 := ⟨j - 1, by omega⟩
  have hahead' : u.ahead = ⟨.punct .leftParen, loc⟩ :: (ts ++ ⟨.punct .rightParen, loc'⟩ :: rest) := by
    simpa using hahead
  have hlt : depth + 1 + k ≤ maxNesting := by omega
  refine reads_turn (reads_parenthesized (s := { s with tokens := u, depth }) hahead' he.exists_starts
    (show depth < maxNesting by omega) (fun u1 hu1 ↦ ?_) hrest ops) hresume
  exact h.reads_expression hwaits (Nat.le_of_succ_le_succ hj) hlt (hu1.ahead hahead') rfl (.inr rfl)

lemma Written.exists_stacks (ht : s.types.get .int = .int .word true) (h : Written s k n e ts) :
    ∃ opnds pend, Waits s.symbols s.types n opnds pend e ∧ Stacks s k n ts opnds pend := by
  induction h with
  | var loc hd => exact ⟨_, _, waits_operand _ _ _ _, stacks_variable loc hd⟩
  | unary op loc hn he ih =>
    obtain ⟨opnds, _, hwaits, hstacks⟩ := ih
    refine ⟨_, _, ?_, stacks_unary loc op hstacks⟩
    rw [← append_nil opnds]
    exact hwaits.push (by simp) hn hn fun _ ↦ bind_eq (unary_int ht op he.isOpenInt)
  | between op loc hn ha hb iha ihb =>
    obtain ⟨_, _, hwa, hsa⟩ := iha
    obtain ⟨_, _, hwb, hsb⟩ := ihb
    obtain ⟨hentry, hlevel, hclosed⟩ := op.entry_spec
    refine ⟨_, _, hwb.push (by cases op <;> simp [InfixOp.operator]) hn (by omega) fun _ ↦ ?_,
      stacks_operator loc hentry hn (fun h ↦ (hlevel h).elim) (.inr ⟨rfl, rfl⟩) (fun _ ↦ by simp [Admits]) hclosed
        hwa hsa hsb⟩
    rcases op with op | conjunction | _
    · exact bind_eq (binary_int ht op ha.isOpenInt hb.isOpenInt.type)
    · exact bind_eq (logical_int ht conjunction ha.isOpenInt hb.isOpenInt.type)
    · exact bind_eq (comma_int ht hb.isOpenInt.type)
  | @conditional _ _ c a _ _ _ _ loc loc' hn hc ha hb ihc iha ihb =>
    obtain ⟨_, _, hwc, hsc⟩ := ihc
    obtain ⟨_, _, hwa, hsa⟩ := iha
    obtain ⟨opnds'', pend'', hwb, hsb⟩ := ihb
    have hquestion := stacks_operator (p := .question) loc rfl hn (fun _ ↦ rfl) (.inl (Nat.lt_succ_self 3))
      (fun _ ↦ by simp [Admits]) (by decide) hwc hsc hsa
    refine ⟨opnds'' ++ [a, c], pend'' ++ [⟨.conditional, 3, loc'⟩], hwb.push (by simp) hn hn fun _ ↦ ?_, ?_⟩
    · exact bind_eq (conditional_int ht hc.isOpenInt ha.isOpenInt.type hb.isOpenInt.type)
    · simpa using stacks_colon loc loc' hwa hquestion hsb
  | @assign _ _ _ d op _ _ _ loc loc' hn hp hd hb ih =>
    obtain ⟨_, _, hwaits, hstacks⟩ := ih
    obtain ⟨-, _, _, hentity⟩ := id hd
    obtain ⟨hentry, hclosed⟩ := assignPunct?_spec hp
    have hstacks' := stacks_operator loc' hentry hn (fun _ ↦ rfl) (.inl (Nat.lt_succ_self 2))
      (fun _ ↦ by simp [Admits]) hclosed (waits_operand _ _ _ (.var ⟨.int, loc⟩ d)) (stacks_variable loc hd)
      hstacks
    refine ⟨_, _, hwaits.push (by simp) hn hn fun _ ↦ ?_, hstacks'⟩
    exact bind_eq (assign_int ht op rfl hentity hb.isOpenInt)
  | parentheses loc loc' he ih =>
    obtain ⟨_, _, hwaits, hstacks⟩ := ih
    exact ⟨_, _, waits_operand _ _ _ _, stacks_parentheses loc loc' hwaits he hstacks⟩

end

/-- The tree that tokens write by precedence and associativity is the tree that is read from them, and the reader
stops at the semicolon. -/
theorem Written.expression_eq {s : State} {k j : Nat} {e : Expr} {ts rest : List Token} {semicolon : Token}
    (ht : TypeTable.initial.Extends s.types) (h : Written s k 1 e ts) (hdepth : s.depth + k ≤ maxNesting) (hj : k ≤ j)
    (hahead : s.tokens.ahead = ts ++ semicolon :: rest) (hsemicolon : semicolon.kind = .punct .semicolon) :
    ∃ u, expression (readersWithin j) true s = (.ok e, { s with tokens := u }) ∧ u.ahead = semicolon :: rest := by
  have hint : s.types.get .int = .int .word true := by
    rw [ht.get (by simp [TypeTable.get, TypeTable.initial, TypeId.int])]
    rfl
  obtain ⟨opnds, pend, hwaits, hstacks⟩ := h.exists_stacks hint
  obtain ⟨u, hu, hrun⟩ := hstacks.reads_expression hwaits hj hdepth hahead hsemicolon (.inl rfl)
  exact ⟨u, hrun, hu.ahead hahead⟩

namespace Example

/-- A unit that has declared `int x;`. -/
def declared (tokens : List Token) : State where
  tokens := { rest := tokens, endLoc := .builtin }
  symbols :=
    { scopes := #[{ kind := .global, parent := none, names := [("x", ⟨0⟩)] }]
      decls := #[⟨"x", .variable .int .none (.global "x"), .global, .builtin⟩] }

def word (p : Punct) : Token := ⟨.punct p, .builtin⟩

def x : Token := ⟨.ident "x", .builtin⟩

def choice : List Token :=
  [x, word .assign, x, word .question, x, word .comma, word .minus, x, word .colon, word .leftParen, x, word .assign, x,
    word .rightParen, word .orOr, x, word .semicolon]

def var : Expr := .var ⟨.int, .builtin⟩ ⟨0⟩

lemma isIntVariable_x : (declared choice).IsIntVariable "x" ⟨0⟩ := by
  have hchain : (declared choice).symbols.chain .global = [.global] := by
    rw [Symbols.chain]
    rfl
  refine ⟨?_, .none, .global "x", rfl⟩
  rw [State.resolve, show (declared choice).scope = .global from rfl, hchain]
  rfl

/-- The parentheses keep the inner assignment together; the comma and the other operators need none. -/
theorem expression_choice : ∃ u, expression (readersWithin 1) true (declared choice) =
    (.ok (.assign ⟨.int, .builtin⟩ var (.conditional ⟨.int, .builtin⟩ var
      (.comma ⟨.int, .builtin⟩ var (.unary ⟨.int, .builtin⟩ .neg var))
      (.logical ⟨.int, .builtin⟩ false (.assign ⟨.int, .builtin⟩ var var) var))),
      { declared choice with tokens := u }) ∧ u.ahead = [word .semicolon] := by
  have hx (k n : Nat) : Written (declared choice) k n var [x] := .var .builtin isIntVariable_x
  have hassign {n : Nat} (hn : n ≤ 2) {e : Expr} {k : Nat} {ts : List Token} (h : Written (declared choice) k 2 e ts) :
      Written (declared choice) k n (.assign ⟨.int, .builtin⟩ var e) (x :: word .assign :: ts) :=
    @Written.assign _ k n _ _ none _ e ts .builtin .builtin hn rfl isIntVariable_x h
  have hnegated := Written.between .comma .builtin (Nat.le_refl 1) (hx 1 1) (.unary .neg .builtin (by decide) (hx 1 15))
  have hor := Written.between (.logical false) .builtin (by decide : 3 ≤ 4)
    (.parentheses .builtin .builtin (hassign (Nat.le_succ 1) (hx 0 2))) (hx 1 5)
  exact (hassign (Nat.le_succ 1) (.conditional .builtin .builtin (by decide)
    (hx 1 4) hnegated hor)).expression_eq (.refl _)
    (by decide) (Nat.le_refl 1) rfl rfl

end Example

end W16Compiler.Grammar
