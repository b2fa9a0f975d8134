import Mathlib.Data.List.Forall2

/-!
# Computations that can fail

What a computation that succeeded did, part by part.
-/

namespace W16Compiler

open List

variable {ε σ α β : Type} {x : Except ε α} {f : α → Except ε β} {a : α} {s : σ} {as : List α} {r : β × σ} {bs : List β}

lemma bind_eq_ok : (x >>= f) = .ok b ↔ ∃ a, x = .ok a ∧ f a = .ok b := by
  cases x with
  | error e =>
    constructor
    · intro h
      cases h
    · rintro ⟨a, h, -⟩
      cases h
  | ok a =>
    constructor
    · intro h
      exact ⟨a, rfl, h⟩
    · rintro ⟨_, h, hf⟩
      cases h
      exact hf

lemma pure_eq_ok : (pure a : Except ε α) = .ok b ↔ b = a := by
  rw [eq_comm]
  exact Except.ok.injEq b a ▸ Iff.rfl

lemma bindState_eq_ok {x : StateT σ (Except ε) α} {f : α → StateT σ (Except ε) β} :
    (x >>= f) s = .ok r ↔ ∃ a s1, x s = .ok (a, s1) ∧ f a s1 = .ok r := by
  change (x s >>= fun p ↦ f p.1 p.2) = .ok r ↔ _
  rw [bind_eq_ok]
  exact ⟨fun ⟨p, h⟩ ↦ ⟨p.1, p.2, h⟩, fun ⟨a, s1, h⟩ ↦ ⟨(a, s1), h⟩⟩

lemma pureState_eq_ok {r : α × σ} : (pure a : StateT σ (Except ε) α) s = .ok r ↔ r = (a, s) := pure_eq_ok

lemma lift_eq_ok : (liftM x : StateT σ (Except ε) α) s = .ok (a, s') ↔ x = .ok a ∧ s' = s := by
  change (x >>= fun b ↦ pure (b, s)) = .ok (a, s') ↔ _
  simp only [bind_eq_ok, pure_eq_ok, Prod.mk.injEq]
  constructor
  · rintro ⟨b, hx, rfl, rfl⟩
    exact ⟨hx, rfl⟩
  · rintro ⟨hx, rfl⟩
    exact ⟨a, hx, rfl, rfl⟩

lemma liftBind_eq_ok {k : α → β} :
    ((do return k (← (liftM x : StateT σ (Except ε) α))) : StateT σ (Except ε) β) s = .ok r ↔
      (do return k (← x)) = Except.ok r.1 ∧ r.2 = s := by
  obtain ⟨b, s'⟩ := r
  simp only [bindState_eq_ok, lift_eq_ok, pureState_eq_ok, bind_eq_ok, pure_eq_ok, Prod.mk.injEq]
  constructor
  · rintro ⟨a, _, ⟨hx, rfl⟩, rfl, rfl⟩
    exact ⟨⟨a, hx, rfl⟩, rfl⟩
  · rintro ⟨⟨a, hx, rfl⟩, rfl⟩
    exact ⟨a, s', ⟨hx, rfl⟩, rfl, rfl⟩

lemma mapM_cons_eq_ok : (a :: as).mapM f = .ok bs ↔ ∃ b bs', f a = .ok b ∧ as.mapM f = .ok bs' ∧ bs = b :: bs' := by
  rw [mapM_cons, bind_eq_ok]
  simp only [bind_eq_ok, pure_eq_ok]
  exact ⟨fun ⟨b, h, bs', h', heq⟩ ↦ ⟨b, bs', h, h', heq⟩, fun ⟨b, bs', h, h', heq⟩ ↦ ⟨b, h, bs', h', heq⟩⟩

lemma mapM_eq_ok_iff : as.mapM f = .ok bs ↔ Forall₂ (fun a b ↦ f a = .ok b) as bs := by
  induction as generalizing bs with
  | nil => simp [pure_eq_ok]
  | cons a as ih => simp only [mapM_cons_eq_ok, ih, forall₂_cons_left_iff]

lemma exists_mapM_eq_ok (h : ∀ a ∈ as, ∃ b, f a = .ok b) : ∃ bs, as.mapM f = .ok bs := by
  induction as with
  | nil => exact ⟨[], rfl⟩
  | cons a as ih =>
    obtain ⟨b, hb⟩ := h a mem_cons_self
    obtain ⟨bs, hbs⟩ := ih fun a' ha' ↦ h a' (mem_cons_of_mem a ha')
    exact ⟨b :: bs, mapM_cons_eq_ok.mpr ⟨b, bs, hb, hbs, rfl⟩⟩

lemma mapMState_eq_ok {f : α → StateT σ (Except ε) β} {g : α → Except ε β}
    (hf : ∀ a s r, f a s = .ok r ↔ g a = .ok r.1 ∧ r.2 = s) {r : List β × σ} :
    as.mapM f s = .ok r ↔ as.mapM g = .ok r.1 ∧ r.2 = s := by
  induction as generalizing s r with
  | nil =>
    obtain ⟨_, s'⟩ := r
    simp [mapM_nil, pureState_eq_ok, pure_eq_ok, Prod.mk.injEq]
  | cons a as ih =>
    obtain ⟨_, s'⟩ := r
    simp only [mapM_cons, bindState_eq_ok, pureState_eq_ok, bind_eq_ok, pure_eq_ok, hf, ih, Prod.mk.injEq]
    constructor
    · rintro ⟨b, _, ⟨hb, rfl⟩, bs', _, ⟨hbs, rfl⟩, rfl, rfl⟩
      exact ⟨⟨b, hb, bs', hbs, rfl⟩, rfl⟩
    · rintro ⟨⟨b, hb, bs', hbs, rfl⟩, rfl⟩
      exact ⟨b, s', ⟨hb, rfl⟩, bs', s', ⟨hbs, rfl⟩, rfl, rfl⟩

/-! ## Where a fault may be -/

def Delivers (may : Prop) (x : Except ε α) (P : α → Prop) : Prop :=
  match x with
  | .ok a => P a
  | .error _ => may

variable {may : Prop} {P P' : α → Prop} {Q : β → Prop}

lemma Delivers.of_eq (h : Delivers may x P) (hx : x = .ok a) : P a := by
  rwa [hx] at h

lemma Delivers.mono (h : Delivers may x P) (hP : ∀ a, P a → P' a) : Delivers may x P' := by
  cases x with
  | ok a => exact hP a h
  | error e => exact h

lemma Delivers.bind (hx : Delivers may x P) (hf : ∀ a, P a → Delivers may (f a) Q) : Delivers may (x >>= f) Q := by
  cases x with
  | ok a => exact hf a hx
  | error e => exact hx

lemma Delivers.mapM (h : ∀ a ∈ as, Delivers may (f a) Q) : Delivers may (as.mapM f) fun bs ↦ ∀ b ∈ bs, Q b := by
  induction as with
  | nil => exact forall_mem_nil Q
  | cons a as ih =>
    rw [mapM_cons]
    exact (h a mem_cons_self).bind fun b hb ↦
      (ih fun a ha ↦ h a (mem_cons_of_mem _ ha)).bind fun bs hbs ↦ forall_mem_cons.mpr ⟨hb, hbs⟩

end W16Compiler
