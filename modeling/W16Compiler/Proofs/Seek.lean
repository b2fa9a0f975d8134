import W16Compiler.Prim.Basic
import Mathlib.Data.List.Nodup

/-!
# Finding labels

Control that goes to a label goes on where the label is defined. If it is defined more than once the
last definition counts.
-/

namespace W16Compiler

open List Option

variable {α : Type} {defines : α → Option Label} {l : Label} {list found : List α}

def seekLabel (defines : α → Option Label) (l : Label) : List α → Option (List α)
  | [] => none
  | a :: rest =>
    match seekLabel defines l rest with
    | some found => some found
    | none => if defines a = some l then some (a :: rest) else none

lemma seekLabel_cons (a : α) (rest : List α) : seekLabel defines l (a :: rest) =
      (seekLabel defines l rest).or (if defines a = some l then some (a :: rest) else none) := by
  rw [seekLabel]
  cases seekLabel defines l rest <;> rfl

lemma seekLabel_suffix (h : seekLabel defines l list = some found) : found <:+ list := by
  induction list with
  | nil => cases h
  | cons a rest ih =>
    rw [seekLabel_cons] at h
    rcases or_eq_some_iff.mp h with h | ⟨-, h⟩
    · exact (ih h).trans (suffix_cons a rest)
    · split at h
      · exact some.inj h ▸ suffix_rfl
      · cases h

lemma seekLabel_head (h : seekLabel defines l list = some found) :
    ∃ a rest, found = a :: rest ∧ defines a = some l := by
  induction list with
  | nil => cases h
  | cons a rest ih =>
    rw [seekLabel_cons] at h
    rcases or_eq_some_iff.mp h with h | ⟨-, h⟩
    · exact ih h
    · split at h
      · exact ⟨a, rest, (some.inj h).symm, ‹_›⟩
      · cases h

lemma seekLabel_eq_none_iff : seekLabel defines l list = none ↔ l ∉ list.filterMap defines := by
  induction list with
  | nil => simp [seekLabel]
  | cons a rest ih =>
    rw [seekLabel_cons, or_eq_none_iff, ih]
    cases hd : defines a with
    | none => simp [hd]
    | some m => simp [hd, eq_comm, and_comm]

lemma seekLabel_filterMap (hkeep : ∀ a, defines a = some l → k a = some a)
    (hnew : ∀ a b, k a = some b → defines b = some l → defines a = some l) (list : List α) :
    seekLabel defines l (list.filterMap k) = (seekLabel defines l list).map (filterMap k) := by
  induction list with
  | nil => rfl
  | cons a rest ih =>
    rw [seekLabel_cons]
    by_cases ha : defines a = some l
    · have hcons : filterMap k (a :: rest) = a :: filterMap k rest := filterMap_cons_some (hkeep a ha)
      rw [hcons, seekLabel_cons, if_pos ha, if_pos ha, ih]
      cases seekLabel defines l rest with
      | some found => rfl
      | none => exact congrArg some hcons.symm
    · rw [if_neg ha, or_none]
      cases hk : k a with
      | none => rw [filterMap_cons_none hk, ih]
      | some b =>
        have hb : defines b ≠ some l := fun hb ↦ ha (hnew a b hk hb)
        rw [filterMap_cons_some hk, seekLabel_cons, if_neg hb, or_none, ih]

lemma seekLabel_map {β : Type} (f : β → α) (list : List β) :
    seekLabel defines l (list.map f) = (seekLabel (fun b ↦ defines (f b)) l list).map (map f) := by
  induction list with
  | nil => rfl
  | cons b rest ih =>
    rw [map_cons, seekLabel_cons, seekLabel_cons, ih]
    cases seekLabel (fun b ↦ defines (f b)) l rest with
    | some found => rfl
    | none =>
      rw [map_none, none_or, none_or]
      split <;> rfl

lemma seekLabel_of_suffix (hn : (list.filterMap defines).Nodup) (ha : defines a = some l) (h : a :: rest <:+ list) :
    seekLabel defines l list = some (a :: rest) := by
  induction list with
  | nil => simp at h
  | cons b list ih =>
    rw [seekLabel_cons]
    rcases suffix_cons_iff.mp h with heq | hsuf
    · cases heq
      have hnot : l ∉ rest.filterMap defines := by
        rw [filterMap_cons_some ha, nodup_cons] at hn
        exact hn.1
      rw [seekLabel_eq_none_iff.mpr hnot, if_pos ha, none_or]
    · have hn' := hn.sublist ((sublist_cons_self b list).filterMap defines)
      rw [ih hn' hsuf, some_or]

end W16Compiler
