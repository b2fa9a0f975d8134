import W16Compiler.Proofs.Types.Bases
import W16Compiler.Proofs.Types.Dispatch

/-!
# Members and first tables

A member is one of the struct itself or of the first base that has one. The first table of a struct has the
functions of the first tables of its bases, of each name the first one, and then its own. So both searches
go through the bases in the same order.
-/

namespace W16Compiler

open List Option StructDef

lemma findSome?_flatMap {α β γ : Type} (f : β → Option γ) (g : α → List β) (l : List α) :
    (l.flatMap g).findSome? f = l.findSome? fun a ↦ (g a).findSome? f := by
  induction l with
  | nil => rfl
  | cons a l ih =>
    rw [flatMap_cons, findSome?_append, findSome?_cons, ih]
    cases (g a).findSome? f <;> rfl

def StructDef.firstEntry (d : StructDef) (name : String) : Option VirtualSlot :=
  d.tables.head?.bind fun table ↦ table.slots.find? (·.name == name)

namespace TypeTable

variable {t t' : TypeTable} {id : StructId} {ids : List StructId} {name : String} {methods : List Method}
  {placed : List Base} {offset words : Nat} {m : Method}

/-! ## Slots of the first table -/

def moved (offset : Nat) (s : VirtualSlot) : VirtualSlot := { s with implOffset := addWords s.implOffset offset }

lemma find_rebase (slots : List VirtualSlot) (offset : Nat) (name : String) :
    (rebase slots offset).find? (·.name == name) = (slots.find? (·.name == name)).map (moved offset) :=
  find?_map

lemma find_mergeSlots (slots more : List VirtualSlot) (name : String) :
    (mergeSlots slots more).find? (·.name == name) =
      (slots.find? (·.name == name)).or (more.find? (·.name == name)) := by
  induction more generalizing slots with
  | nil => exact (or_none).symm
  | cons s more ih =>
    have hstep : mergeSlots slots (s :: more) =
        mergeSlots (if slots.any (·.name == s.name) then slots else slots ++ [s]) more := rfl
    rw [hstep, ih]
    split
    · rename_i hany
      by_cases hs : s.name = name
      · -- A slot of this name is there already.
        have hsome : (slots.find? (·.name == name)).isSome := by
          rw [find?_isSome]
          rw [hs, List.any_eq_true] at hany
          exact hany
        obtain ⟨q, hq⟩ := isSome_iff_exists.mp hsome
        rw [hq, some_or, some_or]
      · rw [find?_cons_of_neg (by simpa using hs)]
    · rw [List.find?_append, Option.or_assoc, ← List.find?_append, List.singleton_append]

lemma find_fold (tables : List BaseTable) (slots : List VirtualSlot) (name : String) :
    (tables.foldl (fun slots i ↦ if i.first then mergeSlots slots i.slots else slots) slots).find? (·.name == name) =
      (slots.find? (·.name == name)).or
        (tables.findSome? fun i ↦ if i.first then i.slots.find? (·.name == name) else none) := by
  induction tables generalizing slots with
  | nil => exact (or_none).symm
  | cons i tables ih =>
    rw [foldl_cons, ih, findSome?_cons]
    cases i.first with
    | false => rfl
    | true =>
      rw [if_pos rfl, if_pos rfl, find_mergeSlots, Option.or_assoc]
      cases i.slots.find? (·.name == name) <;> rfl

lemma first_of_mem_drop (h : i ∈ (t.baseTables b).drop 1) : i.first = false := by
  rw [baseTables] at h
  cases htables : (t.structDef b.id).tables with
  | nil =>
    rw [htables] at h
    cases h
  | cons table rest =>
    rw [htables, zipIdx_cons, map_cons, drop_succ_cons, drop_zero] at h
    obtain ⟨⟨_, k⟩, hmem, rfl⟩ := mem_map.mp h
    have hk : 0 + 1 ≤ k := (mem_zipIdx hmem).1
    simp only [beq_eq_false_iff_ne]
    omega

lemma findSome_drop (b : Base) (name : String) :
    (((t.baseTables b).drop 1).findSome? fun i ↦ if i.first then i.slots.find? (·.name == name) else none) = none := by
  refine findSome?_eq_none_iff.mpr fun i hi ↦ ?_
  rw [first_of_mem_drop hi]
  rfl

lemma findSome_baseTables (b : Base) (name : String) :
    ((t.baseTables b).findSome? fun i ↦ if i.first then i.slots.find? (·.name == name) else none) =
      ((t.structDef b.id).firstEntry name).map (moved b.offset) := by
  cases htables : (t.structDef b.id).tables with
  | nil =>
    rw [baseTables_eq_nil htables, firstEntry, htables]
    rfl
  | cons table rest =>
    have hcons : t.baseTables b = ⟨true, b, table⟩ :: (t.baseTables b).drop 1 := by
      rw [baseTables, htables]
      rfl
    rw [hcons, findSome?_cons, findSome_drop, if_pos rfl, BaseTable.slots, find_rebase, firstEntry, htables,
      head?_cons, bind_some]
    cases table.slots.find? (·.name == name) <;> rfl

lemma find_firstSlots {bases : List Base} (hformed : ∀ b ∈ bases, t.Formed (t.structDef b.id))
    (methods : List Method) (name : String) :
    (t.firstSlots bases (t.primaryBase bases) methods).find? (·.name == name) =
      (bases.findSome? fun b ↦ ((t.structDef b.id).firstEntry name).map (moved b.offset)).or
        (((methods.filter (·.isVirtual)).map newSlot).find? (·.name == name)) := by
  rw [firstSlots, find_mergeSlots, find_fold]
  congr 1
  cases hprimary : t.primaryBase bases with
  | none =>
    rw [inheritedTables_none, findSome?_flatMap]
    simp only [findSome_baseTables]
    rfl
  | some k =>
    obtain ⟨pre, b, post, rfl, rfl, _, hpre⟩ := primaryBase_eq_some hprimary
    have hnil : ∀ c ∈ pre, (t.structDef c.id).tables = [] := fun c hc ↦
      (hformed c (mem_append_left _ hc)).tables_eq_nil (hpre c hc)
    have hnone : (pre.findSome? fun c ↦ ((t.structDef c.id).firstEntry name).map (moved c.offset)) = none := by
      refine findSome?_eq_none_iff.mpr fun c hc ↦ ?_
      rw [firstEntry, hnil c hc]
      rfl
    have hcontinued : (t.continuedSlots (pre ++ b :: post) (some pre.length)).find? (·.name == name) =
        ((t.structDef b.id).firstEntry name).map (moved b.offset) := by
      have hget : (pre ++ b :: post)[pre.length]? = some b := by simp
      simp only [continuedSlots, bind_some, hget, firstEntry]
      cases (t.structDef b.id).tables.head? with
      | none => rfl
      | some table => exact find_rebase table.slots b.offset name
    rw [inheritedTables_primary hnil, findSome?_append, findSome_drop, none_or, findSome?_flatMap,
      hcontinued, findSome?_append, hnone, none_or, findSome?_cons]
    simp only [findSome_baseTables]
    cases (t.structDef b.id).firstEntry name <;> rfl

/-! ## First tables -/

/-- The slot of a name in the first table is that of the first base with one, or a new one, and the struct's
own function replaces what it overrides. -/
def FirstFromBases (t : TypeTable) (d : StructDef) : Prop :=
  ∀ name, d.firstEntry name =
    ((d.bases.findSome? fun b ↦ ((t.structDef b.id).firstEntry name).map (moved b.offset)).or
      (((d.methods.filter (·.isVirtual)).map newSlot).find? (·.name == name))).map (override d.methods)

lemma FirstFromBases.congr (h : t.FirstFromBases d) (hd : d.complete)
    (hsame : SameBody d d') (hbases : ∀ b ∈ d.bases, (t'.structDef b.id).tables = (t.structDef b.id).tables) :
    t'.FirstFromBases d' := by
  intro name
  have hfirst : d'.firstEntry name = d.firstEntry name := by
    rw [firstEntry, hsame.tables hd]
    rfl
  rw [hfirst, h name, hsame.bases hd, hsame.methods hd]
  congr 2
  refine findSome?_congr fun b hb ↦ ?_
  rw [firstEntry, firstEntry, hbases b hb]

lemma placePointer_eq_none (h : t.placePointer placed methods words = (none, offset)) :
    (∀ b ∈ placed, (t.structDef b.id).tablePointer = none) ∧ methods.filter (·.isVirtual) = [] := by
  rw [placePointer] at h
  cases hprimary : t.primaryBase placed with
  | none =>
    rw [hprimary] at h
    simp only [bind_none] at h
    split at h
    · cases h
    · rename_i hany
      refine ⟨fun b hb ↦ primaryBase_eq_none hprimary hb, filter_eq_nil_iff.mpr fun m hm hv ↦ hany ?_⟩
      exact any_eq_true.mpr ⟨m, hm, hv⟩
  | some k =>
    obtain ⟨pre, b, post, rfl, rfl, hb, -⟩ := primaryBase_eq_some hprimary
    have hget : (pre ++ b :: post)[pre.length]? = some b := by simp
    obtain ⟨p, hp⟩ := isSome_iff_exists.mp hb
    rw [hprimary] at h
    simp only [bind_some, hget, hp, map_some, Prod.mk.injEq, reduceCtorEq, false_and] at h

lemma firstFromBases_body {size : Nat} (hformed : ∀ b ∈ placed, t.Formed (t.structDef b.id))
    (hpointer : t.placePointer placed methods words = (pointer, offset)) (fields : List Field) (d : StructDef) :
    t.FirstFromBases (t.body placed methods pointer fields size d) := by
  intro name
  change (t.body placed methods pointer fields size d).firstEntry name =
    ((placed.findSome? fun b ↦ ((t.structDef b.id).firstEntry name).map (moved b.offset)).or
      (((methods.filter (·.isVirtual)).map newSlot).find? (·.name == name))).map (override methods)
  cases pointer with
  | some p =>
    have htables : (t.body placed methods (some p) fields size d).tables =
        t.buildTables d.name p placed (t.primaryBase placed) methods := rfl
    have hname : ((fun s : VirtualSlot ↦ s.name == name) ∘ override methods) = fun s ↦ s.name == name := by
      funext s
      rw [Function.comp_apply, override_name]
    rw [← find_firstSlots hformed, firstEntry, htables, buildTables, map_cons, head?_cons, bind_some, find?_map, hname]
  | none =>
    obtain ⟨hnone, hmethods⟩ := placePointer_eq_none hpointer
    have hbases : (placed.findSome? fun b ↦ ((t.structDef b.id).firstEntry name).map (moved b.offset)) = none := by
      refine findSome?_eq_none_iff.mpr fun b hb ↦ ?_
      rw [firstEntry, (hformed b hb).tables_eq_nil (hnone b hb)]
      rfl
    rw [hbases, hmethods]
    rfl

lemma LaidOut.firstFromBases (h : t.LaidOut) (hid : (t.structDef id).complete) :
    t.FirstFromBases (t.structDef id) := by
  refine (h.bodies (P := fun t d ↦ t.Formed d ∧ t.FirstFromBases d) (fun hd b hb ↦ (hd.1.bases b hb).1) ?_ ?_ hid).2
  · intro t t' d d' hd hcomplete hsame hbases
    exact ⟨hd.1.congr hcomplete hsame hbases, hd.2.congr hcomplete hsame fun b hb ↦
      (hbases b hb).tables (hd.1.bases b hb).1⟩
  · intro t placed _ _ _ _ _ fields d hplaced hwords hbases hpointer hsize
    have hformed : ∀ b ∈ placed, t.Formed (t.structDef b.id) := fun b hb ↦ (hbases b hb).1
    exact ⟨formed_body hplaced hwords hformed hpointer hsize fields d, firstFromBases_body hformed hpointer fields d⟩

/-! ## The two searches agree -/

lemma LaidOut.findMember_isSome (h : t.LaidOut) (hid : (t.structDef id).complete) (name : String)
    (hentry : ((t.structDef id).firstEntry name).isSome) : (t.findMember id name).isSome := by
  refine h.grounded.induction (P := fun id ↦ ((t.structDef id).firstEntry name).isSome → (t.findMember id name).isSome)
    (fun id hid ih hentry ↦ ?_) hid hentry
  rw [h.grounded.findMember_eq hid]
  split
  · rfl
  split
  · rfl
  rename_i hmethods
  rw [h.firstFromBases hid, isSome_map, isSome_or, Bool.or_eq_true] at hentry
  rcases hentry with hentry | hentry
  · obtain ⟨b, hb, hsome⟩ := findSome?_isSome_iff.mp hentry
    rw [isSome_map] at hsome
    refine findSome?_isSome_iff.mpr ⟨b, hb, ?_⟩
    rw [isSome_map]
    exact ih b hb hsome
  · -- A new slot has the name of a function of the struct.
    obtain ⟨s, hs, hname⟩ := find?_isSome.mp hentry
    obtain ⟨m, hm, rfl⟩ := mem_map.mp hs
    exact (find?_eq_none.mp hmethods m (mem_filter.mp hm).1 hname).elim

lemma implemented_name (name : String) (sub : Base) (m : Method) : (implemented name sub m).name = name := by
  unfold implemented
  split <;> rfl

lemma moved_implemented (name : String) (owner : StructId) (offset by_ : Nat) (m : Method) :
    moved by_ (implemented name ⟨owner, offset⟩ m) = implemented name ⟨owner, addWords offset by_⟩ m := by
  unfold implemented
  split <;> rfl

lemma LaidOut.firstEntry_own (h : t.LaidOut) (hid : (t.structDef id).complete)
    (hm : (t.structDef id).methods.find? (·.name == name) = some m) (hvirtual : m.isVirtual) :
    (t.structDef id).firstEntry name = some (implemented name ⟨id, 0⟩ m) := by
  have hformed : ∀ b ∈ (t.structDef id).bases, t.Formed (t.structDef b.id) :=
    fun b hb ↦ h.formed ((h.formed hid).bases b hb).1
  have hsome : ((t.firstSlots (t.structDef id).bases (t.primaryBase (t.structDef id).bases)
      (t.structDef id).methods).find? (·.name == name)).isSome := by
    rw [find_firstSlots hformed, isSome_or, Bool.or_eq_true]
    have hnew : (m.name == name) = true := by simpa using find?_some hm
    refine .inr (find?_isSome.mpr ⟨newSlot m, mem_map_of_mem ?_, hnew⟩)
    exact mem_filter.mpr ⟨mem_of_find?_eq_some hm, hvirtual⟩
  obtain ⟨s, hs⟩ := isSome_iff_exists.mp hsome
  have hname : s.name = name := by simpa using find?_some hs
  rw [h.firstFromBases hid, ← find_firstSlots hformed, hs, map_some, override_of_find id (hname.symm ▸ hm), hname]

lemma LaidOut.firstEntry_of_findMember (h : t.LaidOut) (hid : (t.structDef id).complete)
    (hmember : t.findMember id name = some (.method owner offset m))
    (hvirtual : m.isVirtual) : (t.structDef id).firstEntry name = some (implemented name ⟨owner, offset⟩ m) := by
  refine h.grounded.induction (P := fun id ↦ ∀ offset, t.findMember id name = some (.method owner offset m) →
    (t.structDef id).firstEntry name = some (implemented name ⟨owner, offset⟩ m)) (fun id hid ih offset hmember ↦ ?_)
    hid offset hmember
  rw [h.grounded.findMember_eq hid] at hmember
  rw [h.firstFromBases hid]
  split at hmember
  · cases hmember
  split at hmember
  · rename_i m' hm
    cases hmember
    rw [← h.firstFromBases hid]
    exact h.firstEntry_own hid hm hvirtual
  · -- The function is that of the first base with such a member, and the bases before have no slot for it.
    rename_i hmethods
    obtain ⟨before, b, after, hbases, hb, hbefore⟩ := findSome?_eq_some_iff.mp hmember
    have hcomplete : ∀ c ∈ (t.structDef id).bases, (t.structDef c.id).complete :=
      fun c hc ↦ ((h.formed hid).bases c hc).1
    rw [hbases] at hcomplete ih ⊢
    obtain ⟨found, hfound, hshift⟩ := map_eq_some_iff.mp hb
    cases found with
    | field type offset => cases hshift
    | method owner' offset' m' =>
      cases hshift
      have hentry := ih b (by simp) offset' hfound
      have hnone : (before.findSome? fun c ↦ ((t.structDef c.id).firstEntry name).map (moved c.offset)) = none := by
        refine findSome?_eq_none_iff.mpr fun c hc ↦ ?_
        rw [map_eq_none_iff, ← not_isSome_iff_eq_none]
        intro hsome
        have hmem := h.findMember_isSome (hcomplete c (mem_append_left _ hc)) name hsome
        rw [map_eq_none_iff.mp (hbefore c hc)] at hmem
        cases hmem
      rw [findSome?_append, hnone, none_or, findSome?_cons, hentry, map_some, some_or,
        map_some, moved_implemented, override_of_none (by rw [implemented_name]; exact hmethods)]

end TypeTable

end W16Compiler
