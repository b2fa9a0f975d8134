import W16Compiler.Proofs.Types.Dispatch

/-!
# Interfaces of virtual functions

A function overrides another one by its name alone, and its type takes the place of the other's in the
tables of the struct. A call is typed by the table of a base, so it fits the override if the two types pass
the same words. They do at every depth precisely when each struct declares its functions with the
interfaces that they have in the tables of its bases.
-/

namespace W16Compiler.TypeTable

open List

variable {t : TypeTable} {s : VirtualSlot} {methods : List Method} {id : StructId} {b : Base} {i : Nat}

structure Interface where
  /-- The words of each parameter; incomplete types have none. -/
  params : List (Option Nat)
  result : TypeId
  /-- Whether the result is handed over behind a hidden pointer. -/
  inMemory : Bool
  deriving DecidableEq

def interface (t : TypeTable) (fnType : TypeId) : Option Interface :=
  match t.kind fnType with
  | .function result params _ => some ⟨params.map t.sizeOf, result, t.returnsInMemory result⟩
  | _ => none

lemma objectOffset_eq (t : TypeTable) (fnType : TypeId) :
    AdjustThunk.objectOffset t fnType = if (t.interface fnType).any (·.inMemory) then 2 else 1 := by
  unfold AdjustThunk.objectOffset interface
  cases t.kind fnType <;> rfl

/-- A function of a struct has the interface of what it overrides in the tables of the bases. -/
def KeepsInterfaces (t : TypeTable) : Prop :=
  ∀ id, (t.structDef id).complete → ∀ b ∈ (t.structDef id).bases, ∀ table ∈ (t.structDef b.id).tables,
    ∀ s ∈ table.slots, ∀ m, (t.structDef id).methods.find? (·.name == s.name) = some m →
      t.interface m.fnType = t.interface s.fnType

/-- Inside a struct the table of a base is at its place, and a call of any of its functions that is typed by
the base passes what the function there gets. -/
def Fits (t : TypeTable) (id : StructId) (last : Base) : Prop :=
  ∀ table ∈ (t.structDef last.id).tables, ∃ table' ∈ (t.structDef id).tables,
    table'.pointerOffset = last.offset + table.pointerOffset ∧
    ∀ (i : Nat) (s : VirtualSlot), table.slots[i]? = some s → ∃ s', table'.slots[i]? = some s' ∧
      s'.name = s.name ∧ t.interface s'.fnType = t.interface s.fnType ∧
      AdjustThunk.objectOffset t s'.fnType = AdjustThunk.objectOffset t s.fnType

lemma fnType_override (h : methods.find? (·.name == s.name) = some m) : (override methods s).fnType = m.fnType := by
  rw [override_of_find ⟨0⟩ h, implemented]
  split <;> rfl

lemma Continues.slot (h : Continues methods b table table') (hs : table.slots[i]? = some s) :
    table'.slots[i]? = some (override methods (s.shift b.offset)) := by
  obtain ⟨_, hslots⟩ := h.slots
  have hi := (List.getElem?_eq_some_iff.mp hs).1
  rw [hslots, List.getElem?_map, List.getElem?_append_left (by rwa [length_map]), List.getElem?_map, hs]
  rfl

lemma KeepsInterfaces.override (h : t.KeepsInterfaces) (hid : (t.structDef id).complete)
    (hb : b ∈ (t.structDef id).bases) (htable : table ∈ (t.structDef b.id).tables) (hs : s ∈ table.slots) :
    t.interface (override (t.structDef id).methods (s.shift b.offset)).fnType = t.interface s.fnType := by
  cases hm : (t.structDef id).methods.find? (·.name == s.name) with
  | some m =>
    rw [fnType_override (s := s.shift b.offset) hm]
    exact h id hid b hb table htable s hs m hm
  | none =>
    rw [override_of_none (s := s.shift b.offset) hm]
    rfl

lemma KeepsInterfaces.fits (h : t.KeepsInterfaces) (hlaid : t.LaidOut)
    (hway : t.Way id subs last) (hid : (t.structDef id).complete) : t.Fits id last := by
  induction hway with
  | here id =>
    intro table htable
    exact ⟨table, htable, (zero_add _).symm, fun i s hs ↦ ⟨s, hs, rfl, rfl, rfl⟩⟩
  | @base _ b _ _ hb _ ih =>
    intro table htable
    have hformed := hlaid.formed hid
    obtain ⟨table1, htable1, hpointer1, hslots1⟩ := ih (hformed.bases b hb).1 table htable
    obtain ⟨table', htable', hcontinues⟩ := hformed.continued b hb table1 htable1
    refine ⟨table', htable', ?_, fun i s hs ↦ ?_⟩
    · rw [hcontinues.pointer, hpointer1]
      exact (add_assoc _ _ _).symm
    · obtain ⟨_, hs1, hname1, hinterface1, -⟩ := hslots1 i s hs
      have hinterface := (h.override hid hb htable1 (mem_of_getElem? hs1)).trans hinterface1
      refine ⟨_, hcontinues.slot hs1, ?_, hinterface, ?_⟩
      · rw [override_name, ← hname1]
        rfl
      · rw [objectOffset_eq, objectOffset_eq, hinterface]

/-- Every call that is typed by a base fits the final override, at any depth and through any table, if and
only if every struct declares its functions with the interfaces that its bases give them. -/
theorem LaidOut.fits_iff_keepsInterfaces (h : t.LaidOut) :
    (∀ id subs last, (t.structDef id).complete → t.Way id subs last → t.Fits id last) ↔ t.KeepsInterfaces := by
  refine ⟨fun hfits id hid b hb table htable s hs m hm ↦ ?_, fun hkeeps id subs last hid hway ↦
    hkeeps.fits h hway hid⟩
  have hformed := h.formed hid
  obtain ⟨i, hi⟩ := List.getElem?_of_mem hs
  obtain ⟨table', htable', hpointer, hslots⟩ := hfits id _ _ hid (.base hb (.here b.id)) table htable
  obtain ⟨s', hs', -, hinterface, -⟩ := hslots i s hi
  -- The slot is the one that the struct has put in the place of the base's.
  obtain ⟨table₁, htable₁, hcontinues⟩ := hformed.continued b hb table htable
  have hsame : table' = table₁ := by
    refine List.inj_on_of_nodup_map hformed.apart htable' htable₁ ?_
    rw [hpointer, hcontinues.pointer]
    rfl
  have hover := hcontinues.slot hi
  rw [← hsame, hs', Option.some_inj] at hover
  rw [← hinterface, hover, fnType_override (s := s.shift b.offset) hm]

/-! ## An override two levels down -/

namespace Example

def functions : TypeTable :=
  let takes (param : TypeId) : Ty := .function .int [param] false
  { names with types := names.types ++ #[takes .int, takes .uint, takes .long] }

def declared : TypeTable := layout functions ⟨0⟩ [] [{ method "A" "f" 0 with fnType := ⟨11⟩ }]

def inherited : TypeTable := layout declared ⟨1⟩ [⟨0⟩] []

/-- A struct overrides the function of the base of its base. -/
def overridden (fnType : TypeId) : TypeTable := layout inherited ⟨2⟩ [⟨1⟩] [{ method "C" "f" 1 with fnType }]

lemma laidOut_overridden (fnType : TypeId) : (overridden fnType).LaidOut := by
  have htypes : functions.LaidOut := .empty fun id ↦ by
    match id with
    | ⟨0⟩ | ⟨1⟩ | ⟨2⟩ => rfl
    | ⟨_ + 3⟩ => rfl
  have hdeclared : declared.LaidOut := laidOut_layout htypes rfl (by decide)
  have hinherited : inherited.LaidOut := laidOut_layout hdeclared rfl (by decide)
  exact laidOut_layout hinherited rfl (by decide)

lemma way_overridden (fnType : TypeId) : (overridden fnType).Way ⟨2⟩ [⟨⟨2⟩, 0⟩, ⟨⟨1⟩, 0⟩, ⟨⟨0⟩, 0⟩] ⟨⟨0⟩, 0⟩ :=
  .base (b := ⟨⟨1⟩, 0⟩) mem_cons_self (.base (b := ⟨⟨0⟩, 0⟩) mem_cons_self (.here ⟨0⟩))

lemma interface_overridden (fnType : TypeId) {param : TypeId}
    (h : (overridden fnType).kind ⟨i⟩ = .function .int [param] false)
    (hparam : (overridden fnType).kind param = .int width signed) :
    (overridden fnType).interface ⟨i⟩ = some ⟨[some (if width = .long then 2 else 1)], .int, false⟩ := by
  have hint : (overridden fnType).kind .int = .int .word true := rfl
  simp [interface, h, sizeOf, hparam, returnsInMemory, hint]

lemma keepsInterfaces_overridden : (overridden ⟨12⟩).KeepsInterfaces := by
  intro id hid b hb _ htable s hs m hm
  match id with
  | ⟨0⟩ => cases hb
  | ⟨1⟩ => cases hm
  | ⟨2⟩ =>
    obtain rfl := List.mem_singleton.mp hb
    obtain rfl := List.mem_singleton.mp htable
    obtain rfl := List.mem_singleton.mp hs
    cases hm
    exact (interface_overridden _ rfl rfl).trans (interface_overridden _ rfl rfl).symm
  | ⟨_ + 3⟩ => cases hb

end Example

/-- A call by the first struct fits the override two levels down. -/
theorem LaidOut.fits_iff_keepsInterfaces_overridden : (Example.overridden ⟨12⟩).LaidOut ∧
    (Example.overridden ⟨12⟩).KeepsInterfaces ∧ (Example.overridden ⟨12⟩).Fits ⟨2⟩ ⟨⟨0⟩, 0⟩ :=
  ⟨Example.laidOut_overridden _, Example.keepsInterfaces_overridden,
    (LaidOut.fits_iff_keepsInterfaces (Example.laidOut_overridden _)).mpr Example.keepsInterfaces_overridden
      ⟨2⟩ _ _ rfl (Example.way_overridden _)⟩

/-- Overriding asks for no interface: here a call by the first struct passes one word, and the override gets
two. -/
theorem exists_laidOut_not_fits : (Example.overridden ⟨13⟩).LaidOut ∧
    ((Example.overridden ⟨13⟩).structDef ⟨2⟩).complete ∧
    (Example.overridden ⟨13⟩).Way ⟨2⟩ [⟨⟨2⟩, 0⟩, ⟨⟨1⟩, 0⟩, ⟨⟨0⟩, 0⟩] ⟨⟨0⟩, 0⟩ ∧
    ¬(Example.overridden ⟨13⟩).Fits ⟨2⟩ ⟨⟨0⟩, 0⟩ := by
  refine ⟨Example.laidOut_overridden _, rfl, Example.way_overridden _, fun hfits ↦ ?_⟩
  obtain ⟨table', htable', -, hslots⟩ := hfits _ List.mem_cons_self
  obtain ⟨s', hs', -, hinterface, -⟩ := hslots 0 _ rfl
  obtain rfl := List.mem_singleton.mp htable'
  cases hs'
  have hwords := (Example.interface_overridden ⟨13⟩ rfl rfl).symm.trans
    (hinterface.trans (Example.interface_overridden ⟨13⟩ rfl rfl))
  cases hwords

end W16Compiler.TypeTable
