import Mathlib.Data.Stream.Init
import W16Compiler.Token.Stream

/-!
# Looking ahead

A stream stands for one endless sequence of tokens, and its operations see nothing else of it, except that
skipping a declaration counts the braces that were taken and not given back. To look ahead a stream moves
tokens from its rest to those given back, and no operation tells it afterwards from what it was before.
-/

namespace W16Compiler.TokenStream

variable {s s' : TokenStream} {op : Op}

/-- The tokens to come: those given back, the rest, and the end mark forever. -/
def coming (s : TokenStream) : Stream' Token := s.pushed ++ₛ (s.rest ++ₛ Stream'.const s.endMark)

lemma next_coming (s : TokenStream) : s.next.1 = s.coming.head ∧ s.next.2.coming = s.coming.tail := by
  obtain ⟨_ | ⟨t, pushed⟩, _ | ⟨u, rest⟩, taken, loc⟩ := s <;> exact ⟨rfl, rfl⟩

lemma peekNth_eq (s : TokenStream) (n : Nat) : (s.peekNth n).1 = s.coming.get n := by
  induction n generalizing s with
  | zero => exact s.next_coming.1
  | succ n ih => exact (ih s.next.2).trans (congrArg (Stream'.get · n) s.next_coming.2)

lemma coming_ofTokens (tokens : List Token) :
    (ofTokens tokens).coming = tokens ++ₛ .const (ofTokens tokens).endMark := by
  unfold ofTokens
  split
  · rename_i last hlast
    split
    · rename_i hend
      obtain ⟨init, rfl⟩ := List.getLast?_eq_some_iff.mp hlast
      have hmark : ⟨.endOfFile, last.loc⟩ = last := congrArg (Token.mk · last.loc) (eq_of_beq hend).symm
      rw [List.dropLast_concat, Stream'.append_append_stream]
      exact congrArg (init ++ₛ ·) ((Stream'.const_eq _).trans (congrArg₂ Stream'.cons hmark rfl))
    · rfl
  · rename_i hnone
    rw [List.getLast?_eq_none_iff.mp hnone]
    rfl

/-! ## Operations -/

inductive Op where
  | next | pushBack (t : Token) | peek | peekNth (n : Nat) | atEnd | eat (p : Punct) | eatKeyword (k : Keyword)
  | expect (p : Punct) | expectIdent | takeBraced | resync (start : Nat)

inductive Answer where
  | none | token (t : Token) | flag (b : Bool) | expected (r : Except Failure Token)
  | name (r : Except Failure (String × Location)) | body (r : Except Failure (List Token))

def perform (s : TokenStream) : Op → Answer × TokenStream
  | .next => s.next.map .token id
  | .pushBack t => (.none, s.pushBack t)
  | .peek => (.token s.peek, s)
  | .peekNth n => (s.peekNth n).map .token id
  | .atEnd => (.flag s.atEnd, s)
  | .eat p => (s.eat p).map .flag id
  | .eatKeyword k => (s.eatKeyword k).map .flag id
  | .expect p => (s.expect p).map .expected id
  | .expectIdent => s.expectIdent.map .name id
  | .takeBraced => s.takeBraced.map .body id
  | .resync start => (.none, s.resync start)

/-- The answers to some operations; those of extra ones are dropped. -/
def run (s : TokenStream) : List (Op × Bool) → List Answer × TokenStream
  | [] => ([], s)
  | (op, extra) :: steps =>
    let after := (s.perform op).2.run steps
    (if extra then after.1 else (s.perform op).1 :: after.1, after.2)

def Looks (s : TokenStream) : Op → Prop
  | .peek | .peekNth _ => True
  | .expect p => (s.expect p).1.isOk = false
  | .expectIdent => s.expectIdent.1.isOk = false
  | _ => False

/-- The extra operations only look ahead, and without them every declaration that is skipped began at a token
taken before. The first stream performs the others alone, the second one all of them. -/
def Admits (s s' : TokenStream) : List (Op × Bool) → Prop
  | [] => True
  | (op, true) :: steps => s'.Looks op ∧ s.Admits (s'.perform op).2 steps
  | (op, false) :: steps =>
    (∀ start, op = .resync start → start ≤ s.position) ∧ (s.perform op).2.Admits (s'.perform op).2 steps

/-! ## Streams that cannot be told apart -/

def Matches {α : Type} (R : TokenStream → TokenStream → Prop) (x x' : α × TokenStream) : Prop :=
  x'.1 = x.1 ∧ R x.2 x'.2

lemma Matches.map {α β : Type} {R : TokenStream → TokenStream → Prop} {x x' : α × TokenStream}
    (h : Matches R x x') (f : α → β) : Matches R (x.map f id) (x'.map f id) :=
  ⟨congrArg f h.1, h.2⟩

/-- A relation that is kept when both streams take a token, which is the same, or are given one back. -/
structure Congruence (R : TokenStream → TokenStream → Prop) : Prop where
  next : ∀ {s s'}, R s s' → Matches R s.next s'.next
  pushBack : ∀ {s s'} (t : Token), R s s' → R (s.pushBack t) (s'.pushBack t)

namespace Congruence

variable {R : TokenStream → TokenStream → Prop} (hR : Congruence R) (h : R s s')

include hR h

lemma peekNth (n : Nat) : Matches R (s.peekNth n) (s'.peekNth n) := by
  induction n generalizing s s' with
  | zero =>
    obtain ⟨htok, hnext⟩ := hR.next h
    exact ⟨htok, by simpa only [TokenStream.peekNth, htok] using hR.pushBack _ hnext⟩
  | succ n ih =>
    obtain ⟨htok, hnext⟩ := hR.next h
    obtain ⟨hlast, hafter⟩ := ih hnext
    exact ⟨hlast, by simpa only [TokenStream.peekNth, htok] using hR.pushBack _ hafter⟩

lemma take (p : Token → Bool) : Matches R (if p s.peek then (true, s.next.2) else (false, s))
    (if p s'.peek then (true, s'.next.2) else (false, s')) := by
  rw [peek, peek, (hR.next h).1]
  split
  · exact ⟨rfl, (hR.next h).2⟩
  · exact ⟨rfl, h⟩

lemma takeBracedFrom (depth : Nat) (body : List Token) :
    Matches R (s.takeBracedFrom depth body) (s'.takeBracedFrom depth body) := by
  fun_induction TokenStream.takeBracedFrom depth body s generalizing s' <;>
    rw [TokenStream.takeBracedFrom.eq_def _ _ s'] <;> obtain ⟨htok, hnext⟩ := hR.next h <;>
    simp_all +zetaDelta [Matches, Nat.not_le_of_lt]

lemma skipDeclaration (depth : Nat) : R (s.skipDeclaration depth) (s'.skipDeclaration depth) := by
  fun_induction TokenStream.skipDeclaration depth s generalizing s' <;>
    rw [TokenStream.skipDeclaration.eq_def _ s'] <;> obtain ⟨htok, hnext⟩ := hR.next h <;>
    simp_all +zetaDelta [Nat.not_le_of_lt]
  case case3 => exact (hR.take hnext (·.isPunct .semicolon)).2
  case case6 hsemicolon ih =>
    rw [if_neg (not_and.mpr hsemicolon)]
    exact ih hnext

lemma perform (hbraces : ∀ start, op = .resync start → s'.openBraces start = s.openBraces start) :
    Matches R (s.perform op) (s'.perform op) := by
  cases op with
  | next => exact (hR.next h).map _
  | pushBack t => exact ⟨rfl, hR.pushBack t h⟩
  | peek => exact ⟨congrArg Answer.token (hR.next h).1, h⟩
  | peekNth n => exact (hR.peekNth h n).map _
  | atEnd => exact ⟨congrArg (Answer.flag ∘ Token.isEnd) (hR.next h).1, h⟩
  | eat p => exact (hR.take h (·.isPunct p)).map _
  | eatKeyword k => exact (hR.take h (·.isKeyword k)).map _
  | expect p | expectIdent =>
    obtain ⟨htok, hnext⟩ := hR.next h
    simp only [TokenStream.perform, TokenStream.expect, TokenStream.expectIdent, htok]
    split
    · exact ⟨rfl, hnext⟩
    · exact ⟨rfl, hR.pushBack _ hnext⟩
  | takeBraced => exact (hR.takeBracedFrom h 1 []).map _
  | resync start =>
    refine ⟨rfl, ?_⟩
    rw [TokenStream.perform, TokenStream.perform, resync, resync, hbraces start rfl]
    exact hR.skipDeclaration h _

lemma coming_eq : s'.coming = s.coming := by
  refine Stream'.ext fun n ↦ ?_
  rw [← peekNth_eq, ← peekNth_eq, (hR.peekNth h n).1]

end Congruence

lemma congruence_coming : Congruence fun s s' ↦ s'.coming = s.coming where
  next {s s'} h := by
    obtain ⟨htok, hnext⟩ := s.next_coming
    obtain ⟨htok', hnext'⟩ := s'.next_coming
    exact ⟨by rw [htok, htok', h], hnext'.trans (by rw [h, hnext])⟩
  pushBack t h := congrArg (Stream'.cons t) h

/-! ## Tokens seen before they are taken -/

/-- Moves the next token of the rest behind those given back. -/
def fetch (s : TokenStream) : TokenStream :=
  match s.rest with
  | [] => { s with pushed := s.pushed ++ [s.endMark] }
  | t :: rest => { s with pushed := s.pushed ++ [t], rest, taken := t :: s.taken }

/-- The second stream is the first one after it has looked some tokens ahead. -/
inductive Ahead (s : TokenStream) : TokenStream → Prop
  | refl : Ahead s s
  | fetch {u} : Ahead s u → Ahead s u.fetch

namespace Ahead

lemma trans (h : Ahead s s') (h' : Ahead s' u) : Ahead s u := by
  induction h' with
  | refl => exact h
  | fetch _ ih => exact ih.fetch

lemma congruence : Congruence Ahead where
  next {s s'} h := by
    induction h with
    | refl => exact ⟨rfl, refl⟩
    | @fetch u _ ih =>
      obtain ⟨_ | ⟨t, pushed⟩, _ | ⟨t', rest⟩, taken, loc⟩ := u
      · exact ih
      · exact ih
      · exact ⟨ih.1, ih.2.fetch⟩
      · exact ⟨ih.1, ih.2.fetch⟩
  pushBack t h := by
    induction h with
    | refl => exact refl
    | @fetch u _ ih => obtain ⟨pushed, _ | ⟨t', rest⟩, taken, loc⟩ := u <;> exact ih.fetch

lemma next_pushBack (s : TokenStream) : Ahead s (s.next.2.pushBack s.next.1) := by
  obtain ⟨_ | ⟨t, pushed⟩, _ | ⟨t', rest⟩, taken, loc⟩ := s
  · exact refl.fetch
  · exact refl.fetch
  · exact refl
  · exact refl

lemma peekNth (s : TokenStream) (n : Nat) : Ahead s (s.peekNth n).2 := by
  induction n generalizing s with
  | zero => exact next_pushBack s
  | succ n ih => exact (next_pushBack s).trans (congruence.pushBack _ (ih s.next.2))

lemma of_looks (h : s.Looks op) : Ahead s (s.perform op).2 := by
  cases op with
  | peek => exact refl
  | peekNth n => exact peekNth s n
  | expect p | expectIdent =>
    revert h
    simp only [Looks, perform, expect, expectIdent, Prod.map_snd, id]
    split
    · nofun
    · exact fun _ ↦ next_pushBack s
  | _ => cases h

lemma position_le (h : Ahead s s') : s.position ≤ s'.position := by
  induction h with
  | refl => exact Nat.le_refl _
  | @fetch u _ ih =>
    obtain ⟨pushed, _ | ⟨t', rest⟩, taken, loc⟩ := u
    · exact ih
    · exact Nat.le_succ_of_le ih

/-- A token moved is taken and given back, so that the braces are counted as before. -/
lemma openBraces_eq (h : Ahead s s') (hstart : start ≤ s.position) : s'.openBraces start = s.openBraces start := by
  have happend (ts : List Token) (t : Token) : openedBy (ts ++ [t]) = openedBy ts + braceDepth t := by
    induction ts with
    | nil => exact Int.add_comm ..
    | cons u ts ih => exact (congrArg _ ih).trans (Int.add_assoc ..).symm
  induction h with
  | refl => rfl
  | @fetch u hu ih =>
    refine (congrArg Int.toNat ?_).trans ih
    have hle : start ≤ u.taken.length := Nat.le_trans hstart hu.position_le
    obtain ⟨pushed, _ | ⟨t, rest⟩, taken, loc⟩ := u
    · exact congrArg (_ - ·) ((happend pushed _).trans (Int.add_zero _))
    · calc openedBy ((t :: taken).take (taken.length + 1 - start)) - openedBy (pushed ++ [t])
        _ = braceDepth t + openedBy (taken.take (taken.length - start)) - (openedBy pushed + braceDepth t) := by
          rw [Nat.succ_sub hle, List.take_succ_cons, happend]
          rfl
        _ = openedBy (taken.take (taken.length - start)) - openedBy pushed := by omega

lemma run (h : Ahead s s') (hadmits : s.Admits s' steps) :
    Matches Ahead (s.run (steps.filter (!·.2))) (s'.run steps) := by
  induction steps generalizing s s' with
  | nil => exact ⟨rfl, h⟩
  | cons step steps ih =>
    obtain ⟨op, _ | _⟩ := step
    · obtain ⟨hanswer, hstep⟩ := congruence.perform h fun start hop ↦ h.openBraces_eq (hadmits.1 start hop)
      obtain ⟨hanswers, hend⟩ := ih hstep hadmits.2
      exact ⟨congrArg₂ _ hanswer hanswers, hend⟩
    · exact ih (h.trans (of_looks hadmits.1)) hadmits.2

end Ahead

/-- An operation sees of a stream the tokens to come, and the open braces if it skips a declaration. What only
looks ahead, or expects what does not come, changes neither the other answers nor the tokens that are left. -/
theorem lookahead_unseen (tokens : List Token) (steps : List (Op × Bool))
    (hadmits : (ofTokens tokens).Admits (ofTokens tokens) steps) :
    (ofTokens tokens).coming = tokens ++ₛ .const (ofTokens tokens).endMark ∧
    (∀ s : TokenStream, s.next.1 = s.coming.head ∧ s.next.2.coming = s.coming.tail ∧
      (∀ t, (s.pushBack t).coming = s.coming.cons t) ∧ ∀ n, (s.peekNth n).1 = s.coming.get n) ∧
    (∀ (s s' : TokenStream) (op : Op), s'.coming = s.coming →
      (∀ start, op = .resync start → s'.openBraces start = s.openBraces start) →
      (s'.perform op).1 = (s.perform op).1 ∧ (s'.perform op).2.coming = (s.perform op).2.coming) ∧
    let alone := (ofTokens tokens).run (steps.filter (!·.2))
    let all := (ofTokens tokens).run steps
    all.1 = alone.1 ∧ all.2.coming = alone.2.coming := by
  obtain ⟨hanswers, hend⟩ := Ahead.run .refl hadmits
  exact ⟨coming_ofTokens tokens, fun s ↦ ⟨s.next_coming.1, s.next_coming.2, fun _ ↦ rfl, s.peekNth_eq⟩,
    fun _ _ _ h hbraces ↦ congruence_coming.perform h hbraces, hanswers, Ahead.congruence.coming_eq hend⟩

/-- A look past the end and a semicolon expected too early, before the rest of a group is skipped. -/
theorem lookahead_unseen_group :
    let tokens : List Token := [.leftBrace, .rightBrace, .semicolon].map fun p ↦ ⟨.punct p, .builtin⟩
    let steps := [(.peekNth 4, true), (.next, false), (.expect .semicolon, true), (.resync 0, false)]
    ((ofTokens tokens).run steps).1 = ((ofTokens tokens).run [(.next, false), (.resync 0, false)]).1 := by
  intro tokens steps
  refine (lookahead_unseen tokens steps ⟨trivial, ⟨fun _ h ↦ ?_, ⟨rfl, ⟨fun _ h ↦ ?_, trivial⟩⟩⟩⟩).2.2.2.1
  · cases h
  · cases h
    exact Nat.zero_le _

end W16Compiler.TokenStream
