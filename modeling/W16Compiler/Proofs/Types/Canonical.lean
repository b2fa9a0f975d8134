import W16Compiler.Proofs.Types.Bases
import W16Compiler.Proofs.Types.Growth
import Mathlib.Data.List.Forall2

/-!
# Equal types have one handle

Whatever is entered into a table of types, and whatever bodies structs are given, with success or without:
two handles are equal if their types are built alike, a handle keeps its type, and the parts of a type have
smaller handles. Neither parts nor bases go in a circle.
-/

namespace W16Compiler

open List TypeTable

namespace Ty

/-- The handles in one level of a type. -/
def parts : Ty → List TypeId
  | pointer target => [target]
  | array element _ => [element]
  | function result params _ => result :: params
  | qualified base _ _ => [base]
  | _ => []

/-- One level of a type without the handles in it. -/
def form : Ty → Ty
  | pointer _ => pointer .void
  | array _ length => array .void length
  | function _ _ varargs => function .void [] varargs
  | qualified _ c v => qualified .void c v
  | x => x

lemma eq_of_form {x y : Ty} (hform : x.form = y.form) (hparts : x.parts = y.parts) : x = y := by
  cases x <;> cases y <;> simp_all [form, parts]

end Ty

lemma eq_of_forall₂ {α : Type} {R : α → α → Prop} {l l' : List α} (h : Forall₂ R l l')
    (heq : ∀ a ∈ l, ∀ b ∈ l', R a b → a = b) : l = l' := by
  induction h with
  | nil => rfl
  | cons hab _ ih =>
    rw [heq _ mem_cons_self _ mem_cons_self hab,
      ih fun a ha b hb ↦ heq a (mem_cons_of_mem _ ha) b (mem_cons_of_mem _ hb)]

namespace TypeTable

variable {t t' : TypeTable} {x : Ty}

/-- Two handles stand for types that are built alike. A struct is built like itself only. -/
inductive Same (t : TypeTable) : TypeId → TypeId → Prop where
  | mk {i j : TypeId} (hform : (t.get i).form = (t.get j).form)
    (hparts : Forall₂ (Same t) (t.get i).parts (t.get j).parts) : Same t i j

/-- What is entered, made of handles that the table has given. -/
inductive Enters (t : TypeTable) : TypeTable → Prop where
  | pointerTo {target : TypeId} (h : target.index < t.size) : Enters t (t.pointerTo target).2
  | arrayOf {element : TypeId} (h : element.index < t.size) (length : Option Nat) :
    Enters t (t.arrayOf element length).2
  | function {result : TypeId} {params : List TypeId} (h : ∀ p ∈ result :: params, p.index < t.size)
    (varargs : Bool) : Enters t (t.function result params varargs).2
  | qualified {ty : TypeId} (h : ty.index < t.size) (isConst isVolatile : Bool) :
    Enters t (t.qualified ty isConst isVolatile).2
  | structType {id : StructId} (h : id.index < t.structs.size) : Enters t (t.structType id).2
  | newStruct (name : String) (isUnion : Bool) (loc : Location) : Enters t (t.newStruct name isUnion loc).2.2

/-- An operation on a table. A struct that cannot be laid out leaves the table as it is. -/
inductive Changes (t : TypeTable) : TypeTable → Prop where
  | enters {t' : TypeTable} (h : t.Enters t') : Changes t t'
  | layout (id : StructId) (bases : List StructId) (fields : List Field) (methods : List Method) :
    Changes t ((t.layoutStruct id bases fields methods).toOption.getD t)

/-- What holds of every table that comes up. -/
structure Canonical (t : TypeTable) : Prop where
  once : ∀ {i j : Nat} {x : Ty}, t.types[i]? = some x → t.types[j]? = some x → i = j
  parts : ∀ {i : Nat} {x : Ty}, t.types[i]? = some x → ∀ p ∈ x.parts, p.index < i
  flat : ∀ {i : Nat} {base : TypeId} {c v : Bool}, t.types[i]? = some (.qualified base c v) →
    ∀ b' c' v', t.get base ≠ .qualified b' c' v'
  grounded : t.Grounded
  bare : ∀ id, (t.structDef id).complete = false →
    (t.structDef id).bases = [] ∧ (t.structDef id).fields = [] ∧ (t.structDef id).methods = []

lemma getElem?_of_get_ne_void {i : TypeId} (h : t.get i ≠ .void) : t.types[i.index]? = some (t.get i) := by
  unfold get at h ⊢
  cases hx : t.types[i.index]? with
  | none => simp [hx] at h
  | some x => rfl

lemma structDef_push (t : TypeTable) (d : StructDef) (q : StructId) :
    structDef { t with structs := t.structs.push d } q = t.structDef q ∨
      (t.structDef q).complete = false ∧ structDef { t with structs := t.structs.push d } q = d := by
  rw [structDef, Array.getElem?_push]
  split
  · rename_i hq
    exact .inr ⟨by simp [structDef, hq]; rfl, rfl⟩
  · exact .inl rfl

namespace Canonical

lemma intern (h : t.Canonical) (hparts : ∀ p ∈ x.parts, p.index < t.size)
    (hflat : ∀ base c v, x = .qualified base c v → ∀ b' c' v', t.get base ≠ .qualified b' c' v') :
    (t.intern x).2.Canonical := by
  rw [TypeTable.intern]
  split
  · exact h
  · rename_i hnew
    rw [Array.idxOf?_eq_none_iff] at hnew
    have hcases : ∀ {i : Nat} {y : Ty}, (t.types.push x)[i]? = some y → t.types[i]? = some y ∨ i = t.size ∧ y = x := by
      intro i y hy
      rw [Array.getElem?_push] at hy
      split at hy
      · exact .inr ⟨‹_›, (Option.some.inj hy).symm⟩
      · exact .inl hy
    have hget : ∀ base : TypeId, base.index < t.size → TypeTable.get { t with types := t.types.push x } base = t.get base := by
      intro base hlt
      rw [TypeTable.get, Array.getElem?_push, if_neg (show base.index ≠ t.types.size from Nat.ne_of_lt hlt), TypeTable.get]
    have hlt : ∀ {i : Nat} {y : Ty}, t.types[i]? = some y → i < t.size := fun hi ↦ (Array.getElem?_eq_some_iff.mp hi).1
    refine ⟨fun hi hj ↦ ?_, fun hi p hp ↦ ?_, fun {i base c v} hi ↦ ?_, h.grounded.congr fun _ ↦ .refl _, h.bare⟩
    · rcases hcases hi with hi | ⟨rfl, rfl⟩ <;> rcases hcases hj with hj | ⟨rfl, hx⟩
      · exact h.once hi hj
      · exact (hnew (hx ▸ Array.mem_of_getElem? hi)).elim
      · exact (hnew (Array.mem_of_getElem? hj)).elim
      · rfl
    · rcases hcases hi with hi | ⟨rfl, rfl⟩
      · exact h.parts hi p hp
      · exact hparts p hp
    · rcases hcases hi with hi | ⟨rfl, hx⟩
      · rw [hget base (Nat.lt_trans (h.parts hi base (mem_singleton_self _)) (hlt hi))]
        exact h.flat hi
      · rw [hget base (hparts base (hx ▸ mem_singleton_self _))]
        exact hflat base c v hx.symm

lemma qualified (h : t.Canonical) {ty : TypeId} (hty : ty.index < t.size) (isConst isVolatile : Bool) :
    (t.qualified ty isConst isVolatile).2.Canonical := by
  rw [TypeTable.qualified]
  split
  · exact h
  cases hget : t.get ty with
  | qualified base c v =>
    have hbase := getElem?_of_get_ne_void (t := t) (i := ty) (by simp [hget])
    rw [hget] at hbase
    refine h.intern (fun p hp ↦ ?_) fun b c' v' hx ↦ ?_
    · exact Nat.lt_trans (h.parts hbase p hp) hty
    · cases hx
      exact h.flat hbase
  | _ =>
    refine h.intern (fun p hp ↦ ?_) fun b c' v' hx ↦ ?_
    · cases mem_singleton.mp hp
      exact hty
    · cases hx
      simp [hget]

lemma newStruct (h : t.Canonical) (name : String) (isUnion : Bool) (loc : Location) :
    (t.newStruct name isUnion loc).2.2.Canonical := by
  let d : StructDef := { name, isUnion, loc }
  have hpushed : Canonical { t with structs := t.structs.push d } := by
    refine ⟨h.once, h.parts, h.flat, h.grounded.congr fun q ↦ ?_, fun q hq ↦ ?_⟩
    · rcases t.structDef_push d q with hq | ⟨hold, hq⟩ <;> rw [hq]
      · exact .refl _
      · constructor <;> simp [hold, d]
    · rcases t.structDef_push d q with hsame | ⟨-, hsame⟩ <;> rw [hsame] at hq ⊢
      · exact h.bare q hq
      · exact ⟨rfl, rfl, rfl⟩
  exact hpushed.intern (by simp [Ty.parts]) (by simp)

lemma layout {id : StructId} {bases : List StructId} {fields : List Field} {methods : List Method}
    (h : t.Canonical) (hlayout : t.layoutStruct id bases fields methods = .ok t') : t'.Canonical := by
  have hgrounded := h.grounded.layout hlayout
  obtain ⟨_, _, _, _, _, _, -, -, -, rfl⟩ := layoutStruct_eq_ok hlayout
  refine ⟨h.once, h.parts, h.flat, hgrounded, fun q hq ↦ ?_⟩
  rcases structDef_modifyStruct t id _ q with hsame | ⟨-, hbody⟩
  · rw [hsame] at hq ⊢
    exact h.bare q hq
  · rw [hbody] at hq
    cases hq

lemma enters (h : t.Canonical) (hstep : t.Enters t') : t'.Canonical := by
  cases hstep with
  | pointerTo hin => exact h.intern (by simpa [Ty.parts] using hin) (by simp)
  | arrayOf hin => exact h.intern (by simpa [Ty.parts] using hin) (by simp)
  | function hin => exact h.intern hin (by simp)
  | qualified hin => exact h.qualified hin _ _
  | structType => exact h.intern (by simp [Ty.parts]) (by simp)
  | newStruct => exact h.newStruct _ _ _

lemma changes (h : t.Canonical) (hstep : t.Changes t') : t'.Canonical := by
  cases hstep with
  | enters hstep => exact h.enters hstep
  | layout id bases fields methods =>
    cases hlayout : t.layoutStruct id bases fields methods with
    | error => exact h
    | ok t' => exact h.layout hlayout

lemma initial : TypeTable.initial.Canonical := by
  have hall : ∀ i < 11, (∀ j < 11, TypeTable.initial.types[i]? = TypeTable.initial.types[j]? → i = j) ∧
      (∀ p ∈ (TypeTable.initial.types[i]?.getD .void).parts, p.index < i) ∧
      ∀ c v, TypeTable.initial.types[i]?.map Ty.form ≠ some (.qualified .void c v) := by decide
  have hlt : ∀ {i : Nat} {x : Ty}, TypeTable.initial.types[i]? = some x → i < 11 :=
    fun hi ↦ (Array.getElem?_eq_some_iff.mp hi).1
  refine ⟨fun hi hj ↦ ?_, fun hi ↦ ?_, fun hi ↦ ?_, ⟨⟨fun d ↦ ⟨d, ?_⟩⟩, ?_⟩, fun _ _ ↦ ⟨rfl, rfl, rfl⟩⟩
  · exact (hall _ (hlt hi)).1 _ (hlt hj) (hi.trans hj.symm)
  · simpa [hi] using (hall _ (hlt hi)).2.1
  · exact ((hall _ (hlt hi)).2.2 _ _ (by rw [hi]; rfl)).elim
  · rintro b ⟨hd, -⟩
    cases hd
  · rintro b d ⟨hd, -⟩
    cases hd

lemma same_iff (h : t.Canonical) {i j : TypeId} (hi : i.index < t.size) (hj : j.index < t.size) : t.Same i j ↔ i = j := by
  have hget : ∀ {k : TypeId}, k.index < t.size → t.types[k.index]? = some (t.get k) := by
    intro k hk
    rw [get, Array.getElem?_eq_getElem hk]
    rfl
  induction hn : i.index using Nat.strongRecOn generalizing i j with
  | ind n ih =>
    have hbelow : ∀ {k : TypeId}, k.index < t.size → ∀ p ∈ (t.get k).parts, p.index < k.index := fun hk ↦ h.parts (hget hk)
    constructor
    · rintro ⟨hform, hparts⟩
      have heq : (t.get i).parts = (t.get j).parts := by
        refine eq_of_forall₂ hparts fun p hp q hq hsame ↦ ?_
        have hlt := hbelow hi p hp
        exact (ih p.index (hn ▸ hlt) (by omega) (Nat.lt_trans (hbelow hj q hq) hj) rfl).mp hsame
      have hindex := h.once (hget hi) (Ty.eq_of_form hform heq ▸ hget hj)
      cases i
      cases j
      exact congrArg TypeId.mk hindex
    · rintro rfl
      refine ⟨rfl, forall₂_same.mpr fun p hp ↦ ?_⟩
      have hlt := hbelow hi p hp
      exact (ih p.index (hn ▸ hlt) (by omega) (by omega) rfl).mpr rfl

lemma parts_lt (h : t.Canonical) {i p : TypeId} (hp : p ∈ (t.get i).parts) : p.index < i.index := by
  refine h.parts (getElem?_of_get_ne_void ?_) p hp
  intro hvoid
  simp [hvoid, Ty.parts] at hp

lemma unqualified_le (h : t.Canonical) (ty : TypeId) : (t.unqualified ty).index ≤ ty.index := by
  unfold unqualified
  split
  · rename_i hget
    exact (h.parts_lt (by simp [hget, Ty.parts])).le
  · exact Nat.le_refl _

lemma sizeOf_array (h : t.Canonical) {ty element : TypeId} (hkind : t.kind ty = .array element (some n)) :
    t.sizeOf ty = (t.sizeOf element).bind fun size ↦ if size * n < twoTo 32 then some (size * n) else none := by
  have hlt : element.index < ty.index := by
    have hpart : element ∈ (t.get (t.unqualified ty)).parts := by
      rw [← kind, hkind]
      exact mem_singleton_self _
    exact Nat.lt_of_lt_of_le (h.parts_lt hpart) (h.unqualified_le ty)
  rw [sizeOf, hkind]
  simp only [hlt, dif_pos]
  rfl

lemma baseOffset_settled (h : t.Canonical) (hfuel : t.structs.size < fuel) :
    t.baseOffsetWithin b fuel d = t.baseOffset d b := by
  cases hd : (t.structDef d).complete with
  | true => exact h.grounded.baseOffset_settled hd b hfuel
  | false =>
    obtain ⟨fuel, rfl⟩ := Nat.exists_eq_add_one_of_ne_zero (Nat.ne_zero_of_lt hfuel)
    rw [baseOffset, baseOffsetWithin, baseOffsetWithin, (h.bare d hd).1]
    rfl

lemma findMember_settled (h : t.Canonical) (hfuel : t.structs.size < fuel) :
    t.findMemberWithin name fuel d = t.findMember d name := by
  cases hd : (t.structDef d).complete with
  | true => exact h.grounded.findMember_settled hd name hfuel
  | false =>
    obtain ⟨fuel, rfl⟩ := Nat.exists_eq_add_one_of_ne_zero (Nat.ne_zero_of_lt hfuel)
    rw [findMember, findMemberWithin, findMemberWithin, (h.bare d hd).1]
    rfl

end Canonical

lemma Changes.extends (h : t.Changes t') : t.Extends t' := by
  cases h with
  | enters h =>
    cases h with
    | qualified => exact extends_qualified _ _ _ _
    | newStruct name isUnion loc =>
      exact extends_intern { t with structs := t.structs.push { name, isUnion, loc } } (.struct ⟨t.structs.size⟩)
    | _ => exact extends_intern _ _
  | layout id bases fields methods =>
    cases hlayout : t.layoutStruct id bases fields methods with
    | error => exact .refl t
    | ok t' =>
      obtain ⟨_, _, _, _, _, _, -, -, -, rfl⟩ := layoutStruct_eq_ok hlayout
      exact .refl t

open Relation

/-- In every table that comes up types that are built alike have one handle, which they keep. A qualified type is
not qualified again, parts have smaller handles than what they are in, and bases do not go in a circle. So the
size of a type is found, and a search through bases is not cut off by the bound on its steps. -/
theorem interned_once (h : ReflTransGen Changes initial t) :
    (∀ i j : TypeId, i.index < t.size → j.index < t.size → (t.Same i j ↔ i = j)) ∧
    (∀ t', ReflTransGen Changes t t' → t.Extends t') ∧
    (∀ i base c v, t.get i = .qualified base c v → ∀ b' c' v', t.get base ≠ .qualified b' c' v') ∧
    (∀ i, ∀ p ∈ (t.get i).parts, p.index < i.index) ∧
    (WellFounded fun b d ↦ ∃ p ∈ (t.structDef d).bases, p.id = b) ∧
    (∀ ty element n, t.kind ty = .array element (some n) → t.sizeOf ty =
      (t.sizeOf element).bind fun size ↦ if size * n < twoTo 32 then some (size * n) else none) ∧
    (∀ d b fuel, t.structs.size < fuel → t.baseOffsetWithin b fuel d = t.baseOffset d b) ∧
    ∀ d name fuel, t.structs.size < fuel → t.findMemberWithin name fuel d = t.findMember d name := by
  have hcanonical : t.Canonical := by
    induction h with
    | refl => exact .initial
    | tail _ hstep ih => exact ih.changes hstep
  refine ⟨fun i j ↦ hcanonical.same_iff, fun t' hlater ↦ ?_, fun i base c v hget ↦ ?_, fun i p ↦ hcanonical.parts_lt, ?_,
    fun _ _ _ ↦ hcanonical.sizeOf_array, fun _ _ _ ↦ hcanonical.baseOffset_settled,
    fun _ _ _ ↦ hcanonical.findMember_settled⟩
  · induction hlater with
    | refl => exact .refl t
    | tail _ hstep ih => exact ih.trans hstep.extends
  · have hentry := getElem?_of_get_ne_void (t := t) (i := i) (by simp [hget])
    exact hcanonical.flat (hentry.trans (congrArg some hget))
  · refine Subrelation.wf (fun {b d} hb ↦ ⟨?_, hb⟩) hcanonical.grounded.wf
    by_contra hd
    obtain ⟨p, hp, -⟩ := hb
    simp [(hcanonical.bare d (by simpa using hd)).1] at hp

namespace Example

/-- A struct that is laid out, and then again as a base of itself, which fails. -/
def relaid : TypeTable :=
  let named := (((initial.qualified .int true false).2.qualified ⟨11⟩ false true).2.newStruct "A" false .builtin).2.2
  let laid := (named.layoutStruct ⟨0⟩ [] [] []).toOption.getD named
  (laid.layoutStruct ⟨0⟩ [⟨0⟩] [] []).toOption.getD laid

/-- The second qualifier is added to the first, so that the type before is that of the handle before. -/
theorem interned_once_relaid : ReflTransGen Changes initial relaid ∧
    relaid.get ⟨12⟩ = .qualified .int true true ∧ ¬ relaid.Same ⟨11⟩ ⟨12⟩ := by
  have hfacts : 11 < (initial.qualified .int true false).2.size ∧ 12 < relaid.size ∧
      relaid.get ⟨12⟩ = .qualified .int true true := by decide +kernel
  obtain ⟨hsize, hrelaid, hget⟩ := hfacts
  have hrun : ReflTransGen Changes initial relaid :=
    .tail (.tail (.tail (.tail (.single (.enters (.qualified (by decide) true false)))
      (.enters (.qualified hsize false true))) (.enters (.newStruct "A" false .builtin)))
      (.layout ⟨0⟩ [] [] [])) (.layout ⟨0⟩ [⟨0⟩] [] [])
  refine ⟨hrun, hget, fun hsame ↦ ?_⟩
  cases ((interned_once hrun).1 ⟨11⟩ ⟨12⟩ (Nat.lt_of_succ_lt hrelaid) hrelaid).mp hsame

end Example

end TypeTable

end W16Compiler
