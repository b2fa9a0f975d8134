import W16Compiler.Grammar.State
import Mathlib.Tactic.Lemma

/-!
# What readers ensure

A reader runs from a state to a result and another state, or to a fault. What holds whenever it comes to a
result is put together along its steps. The typing of nodes sees only the types and is a step of a reader
that changes nothing else.
-/

namespace W16Compiler.Grammar

variable {σ α β : Type} {k : α → ExceptT Diagnostic (StateM σ) β} {c : Prop} {a : α}

/-- If a computation comes to a result, the result and the state behind it are as stated. -/
def Ensures (x : ExceptT Diagnostic (StateM σ) α) (s : σ) (post : α → σ → Prop) : Prop :=
  ∀ a s', x s = (.ok a, s') → post a s'

namespace Ensures

variable {s : σ} {post post' : α → σ → Prop} {x : ExceptT Diagnostic (StateM σ) α}

lemma mono (h : Ensures x s post) (himp : ∀ a s', post a s' → post' a s') : Ensures x s post' :=
  fun a s' hrun ↦ himp a s' (h a s' hrun)

lemma pure (h : post a s) : Ensures (pure a) s post := by
  intro b s' hrun
  cases hrun
  exact h

lemma throw (d : Diagnostic) : Ensures (throw d : ExceptT Diagnostic (StateM σ) α) s post := by
  intro a s' hrun
  cases hrun

lemma exists_of_bind (h : (x >>= k) s = (.ok b, s')) : ∃ a s1, x s = (.ok a, s1) ∧ k a s1 = (.ok b, s') := by
  change (match x s with | (r, s1) => ExceptT.bindCont k r s1) = _ at h
  rcases hx : x s with ⟨d | a, s1⟩ <;> rw [hx] at h
  · cases h
  · exact ⟨a, s1, rfl, h⟩

lemma bind {post : β → σ → Prop} (h : Ensures x s fun a s' ↦ Ensures (k a) s' post) : Ensures (x >>= k) s post := by
  intro b s' hrun
  obtain ⟨a, s1, hx, hk⟩ := exists_of_bind hrun
  exact h a s1 hx b s' hk

lemma ite [Decidable c] (h : c → Ensures x s post)
    (h' : ¬c → Ensures x' s post) : Ensures (if c then x else x') s post := by
  split
  · exact h ‹_›
  · exact h' ‹_›

lemma require [Decidable c] {k : PUnit → ExceptT Diagnostic (StateM σ) β}
    {post : β → σ → Prop} (h : ¬c → Ensures (k ⟨⟩) s post) :
    Ensures (if c then MonadExcept.throw d >>= k else k ⟨⟩) s post :=
  .ite (fun _ ↦ .bind (.throw d)) h

end Ensures

/-! ## Typing -/

/-- If a node is accepted, it and the types behind it are as stated. -/
def Gives (x : TypingM α) (y : Symbols) (t : TypeTable) (post : α → TypeTable → Prop) : Prop :=
  Ensures (x y) t post

lemma bind_eq {x : TypingM α} {k : α → TypingM β} {y : Symbols} {t t' : TypeTable} (h : x y t = (.ok a, t')) :
    (x >>= k) y t = k a y t' := by
  change ExceptT.bindCont (fun a ↦ k a y) (x y t).1 (x y t).2 = _
  rw [h]
  rfl

namespace Gives

variable {y : Symbols} {t : TypeTable} {post post' : α → TypeTable → Prop} {x : TypingM α}

lemma mono (h : Gives x y t post) (himp : ∀ a t', post a t' → post' a t') : Gives x y t post' := Ensures.mono h himp

lemma pure (h : post a t) : Gives (pure a) y t post := Ensures.pure h

lemma fault (loc : Location) (f : SemanticFault) : Gives (typeFault loc f) y t post := Ensures.throw _

lemma bind {k : α → TypingM β} {post : β → TypeTable → Prop} (h : Gives x y t fun a t' ↦ Gives (k a) y t' post) :
    Gives (x >>= k) y t post :=
  Ensures.bind (k := fun a ↦ k a y) h

lemma ite [Decidable c] (h : c → Gives x y t post) (h' : ¬c → Gives x' y t post) :
    Gives (if c then x else x') y t post := by
  split
  · exact h ‹_›
  · exact h' ‹_›

lemma require [Decidable c] {k : PUnit → TypingM β} {post : β → TypeTable → Prop} (h : ¬c → Gives (k ⟨⟩) y t post) :
    Gives (if c then typeFault loc f >>= k else k ⟨⟩) y t post :=
  .ite (fun _ ↦ .bind (.fault loc f)) h

lemma types {k : TypeTable → TypingM β} {post : β → TypeTable → Prop} (h : Gives (k t) y t post) :
    Gives (get >>= k) y t post := h

lemma entered {f : TypeTable → α × TypeTable} (h : post (f t).1 (f t).2) : Gives (Grammar.entered f) y t post := by
  intro a t' hrun
  cases hrun
  exact h

lemma shown {k : String → TypingM β} {ty : TypeId} {post : β → TypeTable → Prop}
    (h : Gives (k (t.display ty)) y t post) : Gives (Grammar.shown ty >>= k) y t post := h

lemma constant {k : Option Constant → TypingM β} {post : β → TypeTable → Prop}
    (h : Gives (k (fold t y e)) y t post) : Gives (constantOf e >>= k) y t post := h

end Gives

/-! ## Readers -/

lemma lift_eq {x : TypingM α} {s : State} {t : TypeTable}
    (h : x s.symbols s.types = (r, t)) : (liftM x : ReadM α) s = (r, { s with types := t }) := by
  change ((x s.symbols s.types).1, { s with types := (x s.symbols s.types).2 }) = _
  rw [h]

namespace Ensures

variable {s : State} {post : β → State → Prop} {x : TypingM β}

lemma state {k : State → ReadM β} (h : Ensures (k s) s post) : Ensures (get >>= k) s post := h

lemma lift (h : Gives x s.symbols s.types fun a t ↦ post a { s with types := t }) :
    Ensures (liftM x : ReadM β) s post := by
  intro a s' hrun
  rcases hx : x s.symbols s.types with ⟨r, t⟩
  rw [lift_eq hx] at hrun
  cases hrun
  exact h a t hx

lemma typed {post : β → TypeTable → Prop} (h : Gives x s.symbols s.types post) :
    Ensures (liftM x : ReadM β) s fun a s' ↦ post a s'.types :=
  .lift h

end Ensures

end W16Compiler.Grammar
