import W16Compiler.Types.Basic

/-!
# Growth of the table of types

Types are only added to the table. What a handle stands for stays the same, and so does what is known of
a type that is not void.
-/

namespace W16Compiler.TypeTable

variable {t t' t'' : TypeTable} {ty part : TypeId}

/-- Every type keeps its handle. -/
def Extends (t t' : TypeTable) : Prop :=
  ∀ (i : Nat) (x : Ty), t.types[i]? = some x → t'.types[i]? = some x

theorem Extends.refl (t : TypeTable) : t.Extends t := fun _ _ h ↦ h

theorem Extends.trans (h : t.Extends t') (h' : t'.Extends t'') : t.Extends t'' := fun i x hx ↦ h' i x (h i x hx)

theorem extends_intern (t : TypeTable) (x : Ty) : t.Extends (t.intern x).2 := by
  intro i y hy
  rw [intern]
  split
  · exact hy
  · obtain ⟨hi, hy⟩ := Array.getElem?_eq_some_iff.mp hy
    simp only [Array.getElem?_push, Nat.ne_of_lt hi, if_false]
    exact Array.getElem?_eq_some_iff.mpr ⟨hi, hy⟩

theorem get_intern (t : TypeTable) (x : Ty) : (t.intern x).2.get (t.intern x).1 = x := by
  rw [intern]
  cases h : t.types.idxOf? x with
  | some i =>
    rw [Array.idxOf?_eq_map_finIdxOf?_val, Option.map_eq_some_iff] at h
    obtain ⟨j, hj, rfl⟩ := h
    have hx : t.types[j] = x := (Array.finIdxOf?_eq_some_iff.mp hj).1
    simp only [get, Array.getElem?_eq_getElem j.isLt, Option.getD_some]
    exact hx
  | none => simp [get]

theorem extends_qualified (t : TypeTable) (ty : TypeId) (isConst isVolatile : Bool) :
    t.Extends (t.qualified ty isConst isVolatile).2 := by
  rw [qualified]
  split
  · exact .refl t
  · split <;> exact extends_intern _ _

theorem isConst_qualified (t : TypeTable) (ty : TypeId) (isVolatile : Bool) :
    (t.qualified ty true isVolatile).2.isConst (t.qualified ty true isVolatile).1 := by
  simp only [qualified, Bool.not_true, Bool.false_and, Bool.false_eq_true, if_false]
  split <;> simp [isConst, get_intern]

/-! ## What is known of a type -/

theorem Extends.get (h : t.Extends t') (hne : t.get ty ≠ .void) : t'.get ty = t.get ty := by
  unfold TypeTable.get at hne ⊢
  cases hget : t.types[ty.index]? with
  | none =>
    rw [hget] at hne
    exact (hne rfl).elim
  | some x => rw [h _ _ hget]

theorem Extends.isConst (h : t.Extends t') (hconst : t.isConst ty) : t'.isConst ty := by
  have hne : t.get ty ≠ .void := by
    intro hvoid
    simp [TypeTable.isConst, hvoid] at hconst
  rwa [TypeTable.isConst, h.get hne]

theorem Extends.kind (h : t.Extends t') (hne : t.kind ty ≠ .void) : t'.kind ty = t.kind ty := by
  have hunqualified : t'.unqualified ty = t.unqualified ty := by
    by_cases hvoid : t.get ty = .void
    · simp [TypeTable.kind, unqualified, hvoid] at hne
    · rw [unqualified, h.get hvoid, unqualified]
  rw [TypeTable.kind, hunqualified, h.get hne, TypeTable.kind]

theorem element_eq_some : t.element ty = some part ↔ ∃ length, t.kind ty = .array part length := by
  unfold element
  split <;> simp_all

theorem pointee_eq_some : t.pointee ty = some part ↔ t.kind ty = .pointer part := by
  unfold pointee
  split <;> simp_all

theorem Extends.element (h : t.Extends t') (helement : t.element ty = some part) : t'.element ty = some part := by
  obtain ⟨length, hkind⟩ := element_eq_some.mp helement
  exact element_eq_some.mpr ⟨length, by rw [h.kind (by simp [hkind]), hkind]⟩

theorem unqualified_unqualified (h : ∀ base c v, t.kind ty ≠ .qualified base c v) :
    t.unqualified (t.unqualified ty) = t.unqualified ty := by
  unfold TypeTable.kind at h
  rw [unqualified]
  split
  · rename_i base c v hget
    exact (h base c v hget).elim
  · rfl

theorem kind_unqualified (h : ∀ base c v, t.kind ty ≠ .qualified base c v) : t.kind (t.unqualified ty) = t.kind ty := by
  rw [kind, unqualified_unqualified h, kind]

/-! ## Later tables -/

/-- A table that comes later: types keep their handles, and complete structs their sizes. -/
structure Keeps (t t' : TypeTable) : Prop where
  types : t.Extends t'
  structs : ∀ id, (t.structDef id).complete →
    (t'.structDef id).complete ∧ (t'.structDef id).size = (t.structDef id).size

theorem Keeps.refl (t : TypeTable) : t.Keeps t := ⟨.refl t, fun _ h ↦ ⟨h, rfl⟩⟩

theorem Keeps.trans (h : t.Keeps t') (h' : t'.Keeps t'') : t.Keeps t'' where
  types := h.types.trans h'.types
  structs id hid :=
    have hmid := h.structs id hid
    have hlast := h'.structs id hmid.1
    ⟨hlast.1, hlast.2.trans hmid.2⟩

theorem Keeps.sizeOf (h : t.Keeps t') {n : Nat} (hsize : t.sizeOf ty = some n) : t'.sizeOf ty = some n := by
  -- The elements of an array have been entered before it, so the induction is on handles.
  induction hi : ty.index using Nat.strongRecOn generalizing ty n with
  | _ i ih =>
    have hkind : t'.kind ty = t.kind ty := h.types.kind fun hvoid ↦ by
      simp [sizeOf, hvoid] at hsize
    rw [sizeOf] at hsize ⊢
    rw [hkind]
    cases hty : t.kind ty with
    | array element length =>
      simp only [hty, Option.bind_eq_bind, Option.bind_eq_some_iff] at hsize ⊢
      obtain ⟨k, hk, hrest⟩ := hsize
      refine ⟨k, hk, ?_⟩
      split at hrest
      · rename_i hlt
        obtain ⟨size, helement, hrest⟩ := Option.bind_eq_some_iff.mp hrest
        rw [dif_pos hlt]
        exact Option.bind_eq_some_iff.mpr ⟨size, ih _ (hi ▸ hlt) helement rfl, hrest⟩
      · cases hrest
    | struct id =>
      simp only [hty] at hsize ⊢
      split at hsize
      · rename_i hcomplete
        obtain ⟨hcomplete', hsame⟩ := h.structs id hcomplete
        rw [if_pos hcomplete', hsame, hsize]
      · cases hsize
    | _ => simpa only [hty] using hsize

end W16Compiler.TypeTable
