import W16Compiler.Proofs.Grammar.Logic

/-!
# Reading along tokens

A reader that comes to a result takes some tokens from the front of the stream, may enter types, and leaves
the rest of its state. Such runs are put together along the steps of a reader, and along the turns of its
loops: a loop takes a token in every turn but the last, so it never runs out of turns.
-/

namespace W16Compiler

open List

namespace TokenStream

variable {u u' u'' : TokenStream} {t t' : Token} {ts ts' rest : List Token}

/-- The tokens that a stream holds, in the order in which it hands them out. -/
def ahead (u : TokenStream) : List Token := u.pushed ++ u.rest

/-- The stream `u'` is what is left of `u` behind the tokens `ts`, none of which is an end mark. -/
structure Takes (u : TokenStream) (ts : List Token) (u' : TokenStream) : Prop where
  ahead_eq : u.ahead = ts ++ u'.ahead
  remaining_eq : u.remaining = ts.length + u'.remaining

lemma Takes.refl (u : TokenStream) : u.Takes [] u := ⟨rfl, by simp⟩

lemma Takes.trans (h : u.Takes ts u') (h' : u'.Takes ts' u'') : u.Takes (ts ++ ts') u'' where
  ahead_eq := by rw [h.ahead_eq, h'.ahead_eq, append_assoc]
  remaining_eq := by rw [h.remaining_eq, h'.remaining_eq, length_append, Nat.add_assoc]

lemma Takes.cancel (h : u.Takes ts u') (h' : u.Takes (ts ++ ts') u'') : u'.Takes ts' u'' where
  ahead_eq := by
    refine append_cancel_left (?_ : ts ++ _ = ts ++ _)
    rw [← h.ahead_eq, h'.ahead_eq, append_assoc]
  remaining_eq := by
    have hcount := h.remaining_eq.symm.trans h'.remaining_eq
    rw [length_append] at hcount
    omega

lemma Takes.ahead (h : u.Takes ts u') (hu : u.ahead = ts ++ rest) : u'.ahead = rest :=
  append_cancel_left (h.ahead_eq.symm.trans hu)

lemma Takes.lt (h : u.Takes (t :: ts) u') : u'.remaining < u.remaining := by
  rw [h.remaining_eq, length_cons]
  omega

lemma takes_next (h : u.ahead = t :: ts) (ht : t.isEnd = false) : u.next.1 = t ∧ u.Takes [t] u.next.2 := by
  obtain ⟨pushed, rest, _, _⟩ := u
  cases pushed with
  | cons p pushed =>
    obtain ⟨rfl, rfl⟩ := cons.inj h
    refine ⟨rfl, rfl, ?_⟩
    simp only [remaining, next, filter_cons, ht, Bool.not_false, if_true, length_cons, length_nil]
    omega
  | nil =>
    obtain rfl : rest = t :: ts := h
    refine ⟨rfl, rfl, ?_⟩
    simp only [remaining, next, filter_nil, length_cons, length_nil]
    omega

lemma peek_eq (h : u.ahead = t :: ts) : u.peek = t := by
  obtain ⟨pushed, rest, _, _⟩ := u
  cases pushed with
  | cons p pushed => exact (cons.inj h).1
  | nil =>
    obtain rfl : rest = t :: ts := h
    rfl

lemma takes_pushBack (u : TokenStream) (ht : t.isEnd = false) : (u.pushBack t).Takes [t] u := by
  refine ⟨rfl, ?_⟩
  simp only [remaining, pushBack, filter_cons, ht, Bool.not_false, if_true, length_cons, length_nil]
  omega

lemma takes_peekNth_one (h : u.ahead = t :: t' :: ts) (ht : t.isEnd = false) (ht' : t'.isEnd = false) :
    (u.peekNth 1).1 = t' ∧ u.Takes [] (u.peekNth 1).2 := by
  obtain ⟨hfirst, htakes⟩ := takes_next h ht
  obtain ⟨hsecond, htakes'⟩ := takes_next (htakes.ahead h) ht'
  have hback := takes_pushBack u.next.2.next.2 ht'
  have hback' := takes_pushBack (u.next.2.next.2.pushBack t') ht
  refine ⟨hsecond, ?_, ?_⟩
  · simp only [peekNth, hfirst, hsecond]
    rw [htakes.ahead_eq, htakes'.ahead_eq, hback'.ahead_eq, hback.ahead_eq]
    rfl
  · simp only [peekNth, hfirst, hsecond]
    rw [htakes.remaining_eq, htakes'.remaining_eq, hback'.remaining_eq, hback.remaining_eq]
    simp

end TokenStream

namespace Grammar

open TokenStream

variable {α β : Type} {s s' : State} {a a' : α} {b : β} {t t' : TypeTable} {tok tok' : Token} {ts ts' rest : List Token}

abbrev State.behind (s : State) (u : TokenStream) (t : TypeTable) : State := { s with tokens := u, types := t }

def Reads (x : ReadM α) (s : State) (ts : List Token) (a : α) (t : TypeTable) : Prop :=
  ∃ u, s.tokens.Takes ts u ∧ x s = (.ok a, s.behind u t)

lemma bind_run {x : ReadM α} {k : α → ReadM β} (h : x s = (.ok a, s')) : (x >>= k) s = k a s' := by
  change ExceptT.bindCont k (x s).1 (x s).2 = _
  rw [h]
  rfl

lemma bind_congr {x x' : ReadM α} {k : α → ReadM β} (h : x s = x' s') : (x >>= k) s = (x' >>= k) s' := by
  change ExceptT.bindCont k (x s).1 (x s).2 = _
  rw [h]
  rfl

namespace Reads

lemma pure (a : α) : Reads (pure a) s [] a s.types := ⟨s.tokens, .refl _, rfl⟩

variable {x : ReadM α} {k : α → ReadM β}

lemma bind (h : Reads x s ts a t) (hk : ∀ u, s.tokens.Takes ts u → Reads (k a) (s.behind u t) ts' b t') :
    Reads (x >>= k) s (ts ++ ts') b t' := by
  obtain ⟨u, hu, hx⟩ := h
  obtain ⟨u', hu', hrun⟩ := hk u hu
  exact ⟨u', hu.trans hu', (bind_run hx).trans hrun⟩

lemma last (h : Reads x s ts a t) (hk : ∀ s', k a s' = (.ok b, s')) : Reads (x >>= k) s ts b t := by
  obtain ⟨u, hu, hx⟩ := h
  exact ⟨u, hu, (bind_run hx).trans (hk _)⟩

lemma look (h : Reads x s [] a t) (hk : ∀ u, s.tokens.Takes [] u → Reads (k a) (s.behind u t) ts b t') :
    Reads (x >>= k) s ts b t' :=
  bind h hk

lemma state {k : State → ReadM β} (h : Reads (k s) s ts b t) : Reads (get >>= k) s ts b t := h

lemma lift {x : TypingM α} (h : x s.symbols s.types = (.ok a, t)) : Reads (liftM x : ReadM α) s [] a t :=
  ⟨s.tokens, .refl _, lift_eq h⟩

end Reads

/-! ## Tokens -/

lemma reads_next (h : s.tokens.ahead = tok :: rest) (htok : tok.isEnd = false) : Reads next s [tok] tok s.types := by
  obtain ⟨hfirst, htakes⟩ := takes_next h htok
  exact ⟨_, htakes, by rw [← hfirst]; rfl⟩

lemma Reads.peek {k : Token → ReadM β} (h : s.tokens.ahead = tok :: rest) (hk : Reads (k tok) s ts b t) :
    Reads (Grammar.peek >>= k) s ts b t := by
  rw [← peek_eq h] at hk
  exact hk

variable {p : Punct}

lemma Reads.peekIs {k : Bool → ReadM β} (h : s.tokens.ahead = tok :: rest) (hk : Reads (k (tok.isPunct p)) s ts b t) :
    Reads (Grammar.peekIs p >>= k) s ts b t := by
  rw [← peek_eq h] at hk
  exact hk

lemma reads_peekNth (h : s.tokens.ahead = tok :: tok' :: rest) (htok : tok.isEnd = false)
    (htok' : tok'.isEnd = false) : Reads (peekNth 1) s [] tok' s.types := by
  obtain ⟨hsecond, htakes⟩ := takes_peekNth_one h htok htok'
  exact ⟨_, htakes, by rw [← hsecond]; rfl⟩

lemma isEnd_of_isPunct (h : tok.isPunct p) : tok.isEnd = false := by
  unfold Token.isPunct at h
  unfold Token.isEnd
  grind

lemma reads_expect (h : s.tokens.ahead = tok :: rest) (hp : tok.isPunct p) :
    Reads (expect p) s [tok] tok s.types := by
  obtain ⟨hfirst, htakes⟩ := takes_next h (isEnd_of_isPunct hp)
  refine ⟨_, htakes, ?_⟩
  have hstream : s.tokens.expect p = (.ok tok, s.tokens.next.2) := by simp [TokenStream.expect, hfirst, hp]
  have hrun : onTokens (·.expect p) s = (.ok (.ok tok), s.behind s.tokens.next.2 s.types) := by
    change ((.ok (s.tokens.expect p).1, s.behind (s.tokens.expect p).2 s.types) : Except Diagnostic _ × State) = _
    rw [hstream]
  exact bind_run hrun

/-! ## Loops -/

section

variable {step : α → ReadM (Turn α β)}

lemma loopWithin_mono {n m : Nat} (h : loopWithin step n a s = (.ok b, s')) (hle : n ≤ m) :
    loopWithin step m a s = (.ok b, s') := by
  induction n generalizing m a s with
  | zero => cases h
  | succ n ih =>
    obtain ⟨m, rfl⟩ := Nat.exists_eq_succ_of_ne_zero (Nat.ne_of_gt (Nat.lt_of_lt_of_le n.succ_pos hle))
    obtain ⟨turn, _, hstep, hrest⟩ := Ensures.exists_of_bind h
    refine (bind_run hstep).trans ?_
    cases turn with
    | again a' => exact ih hrest (Nat.le_of_succ_le_succ hle)
    | done b' => exact hrest

lemma Reads.done (h : Reads (step a) s ts (.done b) t) : Reads (loop a step) s ts b t := by
  obtain ⟨u, hu, hstep⟩ := h
  exact ⟨u, hu, bind_run hstep⟩

lemma Reads.turn (h : Reads (step a) s [tok] (.again a') t) :
    ∃ u, s.tokens.Takes [tok] u ∧ loop a step s = loop a' step (s.behind u t) := by
  obtain ⟨u, hu, hstep⟩ := h
  refine ⟨u, hu, (bind_run hstep).trans ?_⟩
  rw [hu.remaining_eq, length_singleton, Nat.add_comm]
  rfl

lemma Reads.again (h : Reads (step a) s (tok :: ts) (.again a') t)
    (hrest : ∀ u, s.tokens.Takes (tok :: ts) u → Reads (loop a' step) (s.behind u t) ts' b t') :
    Reads (loop a step) s (tok :: ts ++ ts') b t' := by
  obtain ⟨u, hu, hstep⟩ := h
  obtain ⟨u', hu', hrun⟩ := hrest u hu
  exact ⟨u', hu.trans hu', (bind_run hstep).trans (loopWithin_mono hrun hu.lt)⟩

end

end Grammar

end W16Compiler
