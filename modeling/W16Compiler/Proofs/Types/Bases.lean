import W16Compiler.Proofs.Types.Layout
import Mathlib.Data.Finset.Card
import Mathlib.Data.Finset.Range
import Mathlib.Order.WellFounded

/-!
# The order of structs

A struct is given its body when its bases have theirs, and none of them is derived from it, so no struct is
inside of itself, however often bodies are given. A path through bases is then never longer than there are
structs, and what is searched along the bases is searched to its end.
-/

namespace W16Compiler

open List

lemma findSome?_congr {α β : Type} {f g : α → Option β} {l : List α} (h : ∀ a ∈ l, f a = g a) :
    l.findSome? f = l.findSome? g := by
  induction l with
  | nil => rfl
  | cons a l ih =>
    obtain ⟨ha, hl⟩ := forall_mem_cons.mp h
    rw [findSome?_cons, findSome?_cons, ha, ih hl]

namespace TypeTable

variable {t t' : TypeTable} {id : StructId}

lemma index_lt_of_complete (h : (t.structDef id).complete) : id.index < t.structs.size := by
  by_contra hlt
  rw [structDef, Array.getElem?_eq_none (by omega)] at h
  cases h

/-- A struct with a body has the other one as a base. -/
def IsBase (t : TypeTable) (b d : StructId) : Prop :=
  (t.structDef d).complete ∧ ∃ p ∈ (t.structDef d).bases, p.id = b

/-- No struct is inside of itself, and bases have bodies. -/
structure Grounded (t : TypeTable) : Prop where
  wf : WellFounded t.IsBase
  complete : ∀ {b d}, t.IsBase b d → (t.structDef b).complete

namespace Grounded

variable (h : t.Grounded)

include h

lemma exists_rank : ∃ rank : StructId → Nat, (∀ d, rank d ≤ t.structs.size) ∧ ∀ b d, t.IsBase b d → rank b < rank d := by
  classical
  let below (d : StructId) := (Finset.range t.structs.size).filter fun i ↦ Relation.TransGen t.IsBase ⟨i⟩ d
  refine ⟨fun d ↦ (below d).card, fun d ↦ (Finset.card_filter_le _ _).trans (Finset.card_range _).le,
    fun b d hb ↦ Finset.card_lt_card ⟨?_, fun hsub ↦ ?_⟩⟩
  · exact Finset.monotone_filter_right _ fun _ _ hi ↦ hi.tail hb
  · have hmem : b.index ∈ below d :=
      Finset.mem_filter.mpr ⟨Finset.mem_range.mpr (index_lt_of_complete (h.complete hb)), .single hb⟩
    exact h.wf.transGen.irrefl.irrefl b (Finset.mem_filter.mp (hsub hmem)).2

lemma settled {α : Type} {f : Nat → StructId → α} (hf : ∀ {m n d}, (∀ b ∈ (t.structDef d).bases, f m b.id = f n b.id) →
    f (m + 1) d = f (n + 1) d) (hid : (t.structDef id).complete) (hfuel : t.structs.size < fuel) :
    f fuel id = f (t.structs.size + 1) id := by
  obtain ⟨rank, hrank, hless⟩ := h.exists_rank
  have hall : ∀ m n d, (t.structDef d).complete → rank d < m → rank d < n → f m d = f n d := by
    intro m
    induction m with
    | zero => exact fun _ _ _ hm ↦ (Nat.not_lt_zero _ hm).elim
    | succ m ih =>
      intro n d hd hm hn
      obtain ⟨n, rfl⟩ := Nat.exists_eq_add_one_of_ne_zero (Nat.ne_zero_of_lt hn)
      refine hf fun b hb ↦ ?_
      have hbase : t.IsBase b.id d := ⟨hd, b, hb, rfl⟩
      have hlt := hless _ _ hbase
      exact ih n b.id (h.complete hbase) (by omega) (by omega)
  have hle := hrank id
  exact hall _ _ id hid (by omega) (by omega)

lemma baseOffset_settled (hid : (t.structDef id).complete) (target : StructId)
    (hfuel : t.structs.size < fuel) : t.baseOffsetWithin target fuel id = t.baseOffset id target :=
  h.settled (fun hsame ↦ by rw [baseOffsetWithin, findSome?_congr fun b hb ↦ by rw [hsame b hb]]; rfl) hid hfuel

lemma findMember_settled (hid : (t.structDef id).complete) (name : String)
    (hfuel : t.structs.size < fuel) : t.findMemberWithin name fuel id = t.findMember id name :=
  h.settled (fun hsame ↦ by rw [findMemberWithin, findSome?_congr fun b hb ↦ by rw [hsame b hb]]; rfl) hid hfuel

lemma baseOffset_eq (hid : (t.structDef id).complete) (target : StructId) : t.baseOffset id target =
    if id = target then some 0
    else (t.structDef id).bases.findSome? fun b ↦ (t.baseOffset b.id target).map (addWords · b.offset) :=
  (h.baseOffset_settled hid target (Nat.lt_add_of_pos_right Nat.two_pos)).symm

lemma findMember_eq (hid : (t.structDef id).complete) (name : String) : t.findMember id name =
    match (t.structDef id).fields.find? (·.name == name) with
    | some f => some (.field f.type f.offset)
    | none =>
      match (t.structDef id).methods.find? (·.name == name) with
      | some m => some (.method id 0 m)
      | none => (t.structDef id).bases.findSome? fun b ↦ (t.findMember b.id name).map (·.shift b.offset) :=
  (h.findMember_settled hid name (Nat.lt_add_of_pos_right Nat.two_pos)).symm

lemma induction {P : StructId → Prop}
    (step : ∀ id, (t.structDef id).complete → (∀ b ∈ (t.structDef id).bases, P b.id) → P id)
    (hid : (t.structDef id).complete) : P id :=
  h.wf.induction (C := fun id ↦ (t.structDef id).complete → P id) id (fun id ih hid ↦ step id hid fun b hb ↦
    ih b.id ⟨hid, b, hb, rfl⟩ (h.complete ⟨hid, b, hb, rfl⟩)) hid

end Grounded

lemma mem_placeBases {offset size : Nat} (h : t.placeBases id offset bases = .ok (placed, size)) :
    ∀ b ∈ placed, (t.structDef b.id).complete ∧ t.baseOffset b.id id = none := by
  induction bases generalizing offset placed with
  | nil =>
    cases h
    simp
  | cons c bases ih =>
    simp only [placeBases] at h
    split at h
    · cases h
    rename_i hcomplete
    split at h
    · cases h
    rename_i hown
    obtain ⟨⟨rest, _⟩, hrest, hplaced⟩ := bind_eq_ok.mp h
    cases hplaced
    exact forall_mem_cons.mpr ⟨⟨by simpa using hcomplete, (by simpa using hown : c ≠ id ∧ t.baseOffset c id = none).2⟩, ih hrest⟩

lemma Grounded.congr (h : t.Grounded) (hsame : ∀ d, SameBody (t.structDef d) (t'.structDef d)) : t'.Grounded := by
  have hbase : ∀ {b d}, t'.IsBase b d → t.IsBase b d := by
    rintro b d ⟨hd, hb⟩
    rw [(hsame d).complete] at hd
    exact ⟨hd, (hsame d).bases hd ▸ hb⟩
  exact ⟨Subrelation.wf hbase h.wf, fun hb ↦ (hsame _).complete.trans (h.complete (hbase hb))⟩

lemma Grounded.layout {bases : List StructId} {fields : List Field} {methods : List Method} (h : t.Grounded)
    (hlayout : t.layoutStruct id bases fields methods = .ok t') : t'.Grounded := by
  obtain ⟨placed, _, pointer, _, placedFields, size, hplaced, -, -, rfl⟩ := layoutStruct_eq_ok hlayout
  have hplaced := mem_placeBases hplaced
  generalize hbody : t.body placed (t.overriding placed methods) pointer placedFields size = f
  have hnew : ∀ d, (f d).bases = placed ∧ (f d).complete := fun d ↦ by rw [← hbody]; exact ⟨rfl, rfl⟩
  -- Only the struct itself has other bases than before.
  have hcases : ∀ {b d}, (t.modifyStruct id f).IsBase b d → t.IsBase b d ∧ d ≠ id ∨ d = id ∧ ∃ p ∈ placed, p.id = b := by
    rintro b d hb
    by_cases hd : d = id
    · subst hd
      have hin : d.index < t.structs.size := by
        simpa [modifyStruct] using index_lt_of_complete hb.1
      rw [IsBase, structDef_modifyStruct_self hin, (hnew _).1] at hb
      exact .inr ⟨rfl, hb.2⟩
    · rw [IsBase, (structDef_modifyStruct t id f d).resolve_right fun h ↦ hd h.1] at hb
      exact .inl ⟨hb, hd⟩
  have hacc : ∀ d, t.baseOffset d id = none → Acc (t.modifyStruct id f).IsBase d := by
    intro d
    induction d using h.wf.induction with
    | _ d ih =>
      refine fun hnone ↦ ⟨d, fun b hb ↦ ?_⟩
      rcases hcases hb with ⟨hb, hne⟩ | ⟨rfl, -⟩
      · rw [h.baseOffset_eq hb.1, if_neg hne] at hnone
        obtain ⟨p, hp, rfl⟩ := hb.2
        exact ih p.id hb (Option.map_eq_none_iff.mp (findSome?_eq_none_iff.mp hnone p hp))
      · rw [baseOffset, baseOffsetWithin, if_pos rfl] at hnone
        cases hnone
  have hid : Acc (t.modifyStruct id f).IsBase id := by
    refine ⟨id, fun b hb ↦ ?_⟩
    rcases hcases hb with ⟨-, hne⟩ | ⟨-, p, hp, rfl⟩
    · exact (hne rfl).elim
    · exact hacc p.id (hplaced p hp).2
  refine ⟨⟨fun d ↦ ?_⟩, fun {b d} hb ↦ ?_⟩
  · induction d using h.wf.induction with
    | _ d ih =>
      refine ⟨d, fun b hb ↦ ?_⟩
      rcases hcases hb with ⟨hb, -⟩ | ⟨rfl, -⟩
      · exact ih b hb
      · exact hid.inv hb
  · have hold : (t.structDef b).complete := by
      rcases hcases hb with ⟨hb, -⟩ | ⟨-, p, hp, rfl⟩
      · exact h.complete hb
      · exact (hplaced p hp).1
    rcases structDef_modifyStruct t id f b with hsame | ⟨rfl, hd⟩
    · rwa [hsame]
    · rw [hd, (hnew _).2]

lemma LaidOut.grounded (h : t.LaidOut) : t.Grounded := by
  induction h with
  | empty h => exact ⟨⟨fun d ↦ ⟨d, fun b hb ↦ by simp [IsBase, h] at hb⟩⟩, fun hb ↦ by simp [IsBase, h] at hb⟩
  | other _ hsame ih => exact ih.congr hsame
  | layout _ _ hlayout _ _ ih => exact ih.layout hlayout

end TypeTable

end W16Compiler
