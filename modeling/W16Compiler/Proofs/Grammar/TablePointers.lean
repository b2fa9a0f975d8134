import W16Compiler.Grammar.Initializer
import W16Compiler.Proofs.Grammar.Logic
import W16Compiler.Proofs.Types.Dispatch

/-!
# Pointers to tables in static objects

The words of a static struct are written one over the other: those of the bases, of the fields and of the
components that a list gives. The pointers to the tables are written last, so that each of them leads to the
table of the struct itself, whatever a base or a component brought along.
-/

namespace W16Compiler

open Grammar List

namespace Grammar

variable {y : Symbols} {t : TypeTable} {image : List DataWord} {d : StructDef}

lemma length_storeTables (d : StructDef) (image : List DataWord) : (storeTables d image).length = image.length := by
  unfold storeTables
  induction d.tables generalizing image with
  | nil => rfl
  | cons table tables ih => exact (ih _).trans length_set

lemma getElem?_storeTables_of_notMem (hk : k ∉ d.tables.map (·.pointerOffset)) : (storeTables d image)[k]? = image[k]? := by
  unfold storeTables
  generalize d.tables = tables at hk ⊢
  induction tables generalizing image with
  | nil => rfl
  | cons table tables ih =>
    rw [map_cons, mem_cons, not_or] at hk
    obtain ⟨hne, hrest⟩ := hk
    exact (ih hrest).trans (getElem?_set_ne (Ne.symm hne))

lemma getElem?_storeTables (hapart : (d.tables.map (·.pointerOffset)).Nodup)
    (hlength : ∀ table ∈ d.tables, table.pointerOffset < image.length) (htable : table ∈ d.tables) :
    (storeTables d image)[table.pointerOffset]? = some (.symbol table.label 0) := by
  unfold storeTables
  induction htables : d.tables generalizing image d with
  | nil =>
    rw [htables] at htable
    cases htable
  | cons first tables ih =>
    rw [htables] at hapart hlength htable
    obtain ⟨hfirst, hrest⟩ := nodup_cons.mp hapart
    cases htable with
    | head =>
      refine (getElem?_storeTables_of_notMem (d := { d with tables }) hfirst).trans ?_
      exact getElem?_set_self (hlength table mem_cons_self)
    | tail _ hin =>
      refine ih (d := { d with tables }) hrest (fun table htable ↦ ?_) hin rfl
      rw [length_set]
      exact hlength table (mem_cons_of_mem first htable)

lemma le_length_overwrite (image : List DataWord) (start : Nat) (words : List DataWord) :
    image.length ≤ (overwrite image start words).length := by
  simp only [overwrite, length_append, length_take, length_drop]
  omega

lemma le_length_overwrites (given : List (Nat × List DataWord)) (image : List DataWord) :
    image.length ≤ (given.foldl (fun image (offset, words) ↦ overwrite image offset words) image).length := by
  induction given generalizing image with
  | nil => exact Nat.le_refl _
  | cons g given ih => exact Nat.le_trans (le_length_overwrite image g.1 g.2) (ih _)

lemma gives_foldlM {α : Type} {f : List DataWord → α → TypingM (List DataWord)}
    (hf : ∀ image a t, Gives (f image a) y t fun image' _ ↦ image.length ≤ image'.length) (xs : List α) :
    Gives (xs.foldlM f image) y t fun image' _ ↦ image.length ≤ image'.length := by
  induction xs generalizing image t with
  | nil => exact .pure (Nat.le_refl _)
  | cons a xs ih =>
    rw [foldlM_cons]
    exact .bind ((hf image a t).mono fun _ t' h ↦ ih.mono fun _ _ h' ↦ Nat.le_trans h h')

lemma gives_structImage (id : StructId) (construct : Bool) (loc : Location) :
    Gives (structImage id construct loc) y t fun image _ ↦ ∃ words, (t.structDef id).size ≤ words.length ∧
      image = storeTables (t.structDef id) words := by
  refine .types ?_
  generalize t.structs.size = fuel
  have hinner : ∀ (image : List DataWord) (offset : Nat) (part : StructId) (t : TypeTable), Gives (do
      if ((← get).structDef part).needsInit then
        return overwrite image offset (← structImageWithin loc fuel true part)
      else return image) y t fun image' _ ↦ image.length ≤ image'.length := fun image offset _ t ↦
    .types (.ite (fun _ ↦ .bind fun words _ _ ↦ .pure (le_length_overwrite image offset words))
      fun _ ↦ .pure (Nat.le_refl _))
  rw [structImageWithin]
  refine .types (.require fun _ ↦ .bind fun _ t1 _ ↦ ?_)
  refine .bind ((gives_foldlM (fun image b t ↦ hinner image b.offset b.id t) _).mono fun image t2 hbases ↦ ?_)
  refine .bind ((gives_foldlM (fun image f t ↦ ?_) _).mono fun image' t3 hfields ↦ .pure ⟨image', ?_, rfl⟩)
  · split
    · refine .constant ?_
      split
      · exact .types (.bind fun words _ _ ↦ .pure (le_length_overwrite image _ words))
      · exact .fault _ _
    · refine .types ?_
      split
      · exact hinner _ _ _ _
      · exact .pure (Nat.le_refl _)
  · rw [length_replicate] at hbases
    exact Nat.le_trans hbases hfields

lemma ensures_staticStruct (inner : StaticReader) (id : StructId) (loc : Location) :
    Ensures (staticStruct inner id loc) s fun image s' ↦ ∃ words, (s.types.structDef id).size ≤ words.length ∧
      image = storeTables (s'.types.structDef id) words := by
  refine .bind (.lift ((gives_structImage id false loc).mono fun image t ⟨_, hwords, himage⟩ ↦ ?_))
  refine .bind fun _ _ _ ↦ .bind fun given s1 _ ↦ .state (.pure ⟨_, ?_, rfl⟩)
  have hgiven := le_length_overwrites given image
  rw [himage, length_storeTables] at hgiven
  rw [himage]
  exact Nat.le_trans hwords hgiven

end Grammar

namespace TypeTable

/-- Every pointer in the words of a struct, also that of a base at any depth, leads to a table of the struct
itself. -/
def PointsToOwn (t : TypeTable) (id : StructId) (image : List DataWord) : Prop :=
  ∀ subs last, t.Way id subs last → ∀ table ∈ (t.structDef last.id).tables, ∃ table' ∈ (t.structDef id).tables,
    table'.pointerOffset = last.offset + table.pointerOffset ∧
      image[last.offset + table.pointerOffset]? = some (.symbol table'.label 0)

lemma LaidOut.pointsToOwn_storeTables {t : TypeTable} {id : StructId} (h : t.LaidOut)
    (hid : (t.structDef id).complete) {words : List DataWord} (hwords : (t.structDef id).size ≤ words.length) :
    t.PointsToOwn id (storeTables (t.structDef id) words) := by
  intro _ _ hway table htable
  obtain ⟨table', htable', hpointer, -⟩ := h.table_of_way hid hway htable
  have hformed := h.formed hid
  refine ⟨table', htable', hpointer, ?_⟩
  rw [← hpointer]
  refine getElem?_storeTables hformed.apart (fun table htable ↦ ?_) htable'
  exact Nat.lt_of_lt_of_le (hformed.pointers table htable) hwords

/-- A static struct points to its own tables, with a list of values or without, as long as the list leaves the
struct as it is. -/
theorem LaidOut.pointsToOwn_static {s : Grammar.State} {id : StructId} (h : s.types.LaidOut)
    (hid : (s.types.structDef id).complete) (construct : Bool) (inner : StaticReader) (loc : Location) :
    Gives (structImage id construct loc) s.symbols s.types (fun image _ ↦ s.types.PointsToOwn id image) ∧
    Ensures (staticStruct inner id loc) s fun image s' ↦
      SameBody (s.types.structDef id) (s'.types.structDef id) → s.types.PointsToOwn id image := by
  refine ⟨(gives_structImage id construct loc).mono ?_, (ensures_staticStruct inner id loc).mono ?_⟩
  · rintro image t ⟨words, hwords, rfl⟩
    exact h.pointsToOwn_storeTables hid hwords
  · rintro image s' ⟨words, hwords, rfl⟩ hsame
    rw [storeTables, hsame.tables hid]
    exact h.pointsToOwn_storeTables hid hwords

theorem LaidOut.pointsToOwn_static_second : ∃ image t',
    structImage ⟨2⟩ true .builtin {} Example.classes = (.ok image, t') ∧ Example.classes.PointsToOwn ⟨2⟩ image := by
  have hrun : structImage ⟨2⟩ true .builtin {} Example.classes = (.ok _, _) := rfl
  exact ⟨_, _, hrun, (LaidOut.pointsToOwn_static (s := { tokens := .ofTokens [], types := Example.classes })
    Example.laidOut_classes rfl true (fun _ ↦ Grammar.internal .outOfSteps) .builtin).1 _ _ hrun⟩

end TypeTable

end W16Compiler
