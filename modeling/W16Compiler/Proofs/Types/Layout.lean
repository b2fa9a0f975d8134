import W16Compiler.Proofs.Faults
import W16Compiler.Types.Layout
import Mathlib.Data.List.Nodup
import Mathlib.Algebra.Group.Nat.Defs

/-!
# Bodies of structs

The bases of a struct stand one behind the other inside of it, and every pointer to a table of virtual
functions has a word of its own. The tables of a base are continued by the struct: at the same places,
with the same functions in the same order, more of them perhaps, and with those replaced that the struct
declares itself. A table of types keeps all of this whatever bodies are added, as long as no count of
words wraps around.
-/

namespace W16Compiler

open List Option

lemma addWords_eq {a b : Nat} (h : a + b < 2 ^ 32) : addWords a b = a + b := Nat.mod_eq_of_lt h

/-- The slot of a base inside a struct. -/
def VirtualSlot.shift (s : VirtualSlot) (offset : Nat) : VirtualSlot :=
  { s with implOffset := offset + s.implOffset }

namespace TypeTable

variable {t t' : TypeTable} {b : Base} {i : BaseTable} {id : StructId} {bases : List StructId} {table : VirtualTable}
  {k : Nat}

/-! ## Bases and fields -/

def baseWords (t : TypeTable) (bases : List StructId) : Nat := total (bases.map fun b ↦ (t.structDef b).size)

/-- Bases that stand one behind the other, from one offset to another. -/
inductive Placed (t : TypeTable) : Nat → List Base → Nat → Prop where
  | nil (offset : Nat) : Placed t offset [] offset
  | cons {b : Base} {rest : List Base} {size : Nat} (hcomplete : (t.structDef b.id).complete)
    (hrest : Placed t (b.offset + (t.structDef b.id).size) rest size) : Placed t b.offset (b :: rest) size

lemma placeBases_cons_eq_ok {b : StructId} {offset size : Nat} {placed : List Base}
    (h : t.placeBases id offset (b :: bases) = .ok (placed, size)) :
    ∃ rest, (t.structDef b).complete ∧ placed = ⟨b, offset⟩ :: rest ∧
      t.placeBases id (addWords offset (t.structDef b).size) bases = .ok (rest, size) := by
  simp only [placeBases] at h
  split at h
  · cases h
  rename_i hcomplete
  split at h
  · cases h
  obtain ⟨⟨rest, size'⟩, hrest, hplaced⟩ := bind_eq_ok.mp h
  cases hplaced
  exact ⟨rest, by simpa using hcomplete, rfl, hrest⟩

lemma placed_of_placeBases {offset size : Nat}
    {placed : List Base} (h : t.placeBases id offset bases = .ok (placed, size))
    (hwords : offset + t.baseWords bases < 2 ^ 32) :
    t.Placed offset placed size ∧ size = offset + t.baseWords bases := by
  induction bases generalizing offset placed with
  | nil =>
    cases h
    exact ⟨.nil _, rfl⟩
  | cons b bases ih =>
    have htotal : t.baseWords (b :: bases) = (t.structDef b).size + t.baseWords bases := rfl
    obtain ⟨_, hcomplete, rfl, hrest⟩ := placeBases_cons_eq_ok h
    rw [addWords_eq (by omega)] at hrest
    obtain ⟨hrest, _⟩ := ih hrest (by omega)
    exact ⟨.cons (b := ⟨b, offset⟩) hcomplete hrest, by omega⟩

lemma Placed.le {offset size : Nat} {placed : List Base} (h : t.Placed offset placed size) : offset ≤ size := by
  induction h with
  | nil offset => exact Nat.le_refl offset
  | cons _ _ ih => omega

lemma Placed.within {offset size : Nat} {placed : List Base} (h : t.Placed offset placed size) (hb : b ∈ placed) :
    (t.structDef b.id).complete ∧ offset ≤ b.offset ∧ b.offset + (t.structDef b.id).size ≤ size := by
  induction h with
  | nil offset => cases hb
  | cons hcomplete hrest ih =>
    cases hb with
    | head => exact ⟨hcomplete, Nat.le_refl _, hrest.le⟩
    | tail _ hb =>
      obtain ⟨hc, _, hhigh⟩ := ih hb
      exact ⟨hc, by omega, hhigh⟩

lemma placeFields_cons_eq_ok {name : String} {size words : Nat}
    {fields placed : List Field} (h : t.placeFields name isUnion size (f :: fields) = .ok (placed, words)) :
    ∃ n rest, t.sizeOf f.type = some n ∧ placed = { f with offset := if isUnion then 0 else size } :: rest ∧
      (if isUnion then max size n else addWords size n) ≤ maxObjectWords ∧
      t.placeFields name isUnion (if isUnion then max size n else addWords size n) fields = .ok (rest, words) := by
  rw [placeFields] at h
  cases hn : t.sizeOf f.type with
  | none =>
    rw [hn] at h
    cases h
  | some n =>
    simp only [hn] at h
    refine ⟨n, ?_⟩
    generalize (if isUnion then max size n else addWords size n) = next at h ⊢
    split at h
    · cases h
    rename_i hmax
    obtain ⟨⟨rest, words'⟩, hrest, hplaced⟩ := bind_eq_ok.mp h
    cases hplaced
    exact ⟨rest, rfl, rfl, by omega, hrest⟩

/-- Fields come behind what is there already, inside of the struct, if no field wraps the count around. -/
lemma placeFields_within {name : String} {size words : Nat} {fields placed : List Field}
    (h : t.placeFields name isUnion size fields = .ok (placed, words)) (hsize : size ≤ 2 ^ 31)
    (hfields : ∀ f ∈ fields, ∀ n, t.sizeOf f.type = some n → n < 2 ^ 31) : size ≤ words ∧
      ∀ f ∈ placed, ∃ n, t.sizeOf f.type = some n ∧ f.offset + n ≤ words := by
  induction fields generalizing size placed with
  | nil =>
    cases h
    exact ⟨Nat.le_refl _, fun _ hf ↦ by cases hf⟩
  | cons f fields ih =>
    obtain ⟨n, _, hn, rfl, hmax, hrest⟩ := placeFields_cons_eq_ok h
    have hn' := hfields f mem_cons_self n hn
    rw [addWords_eq (by omega)] at hmax hrest
    generalize hnext : (if isUnion then max size n else size + n) = next at hmax hrest
    have hle : size ≤ next ∧ (if isUnion then 0 else size) + n ≤ next := by split at hnext <;> simp_all <;> omega
    have hbound : maxObjectWords ≤ 2 ^ 31 := by decide
    obtain ⟨hwords, hplaced⟩ := ih hrest (by omega) fun g hg ↦ hfields g (mem_cons_of_mem f hg)
    exact ⟨by omega, forall_mem_cons.mpr ⟨⟨n, hn, Nat.le_trans hle.2 hwords⟩, hplaced⟩⟩

/-! ## Slots -/

lemma mergeSlots_eq (slots more : List VirtualSlot) :
    ∃ new, mergeSlots slots more = slots ++ new ∧ ∀ s ∈ new, s ∈ more := by
  induction more generalizing slots with
  | nil => exact ⟨[], (append_nil slots).symm, fun s hs ↦ hs⟩
  | cons s more ih =>
    rw [mergeSlots, foldl_cons]
    split
    · obtain ⟨new, hnew, hmem⟩ := ih slots
      exact ⟨new, hnew, fun q hq ↦ mem_cons_of_mem s (hmem q hq)⟩
    · obtain ⟨new, hnew, hmem⟩ := ih (slots ++ [s])
      refine ⟨s :: new, hnew.trans (append_assoc slots [s] new), ?_⟩
      intro q hq
      cases hq with
      | head => exact mem_cons_self
      | tail _ hq => exact mem_cons_of_mem s (hmem q hq)

lemma firstSlots_eq (t : TypeTable) (bases : List Base) (primary : Option Nat) (methods : List Method) :
    ∃ more, t.firstSlots bases primary methods = t.continuedSlots bases primary ++ more ∧
      ∀ s ∈ more, (∃ i ∈ t.inheritedTables bases primary, s ∈ i.slots) ∨ ∃ m ∈ methods, s = newSlot m := by
  have hfold : ∀ (tables : List BaseTable) (slots : List VirtualSlot),
      ∃ more, tables.foldl (fun slots i ↦ if i.first then mergeSlots slots i.slots else slots) slots =
          slots ++ more ∧ ∀ s ∈ more, ∃ i ∈ tables, s ∈ i.slots := by
    intro tables
    induction tables with
    | nil => exact fun slots ↦ ⟨[], (append_nil slots).symm, fun s hs ↦ by cases hs⟩
    | cons i tables ih =>
      intro slots
      have hstep : ∃ new, (if i.first then mergeSlots slots i.slots else slots) = slots ++ new ∧
          ∀ s ∈ new, s ∈ i.slots := by
        split
        · exact mergeSlots_eq slots _
        · exact ⟨[], (append_nil slots).symm, fun s hs ↦ by cases hs⟩
      obtain ⟨new, hnew, hnewmem⟩ := hstep
      obtain ⟨more, hmore, hmoremem⟩ := ih (slots ++ new)
      refine ⟨new ++ more, ?_, ?_⟩
      · rw [foldl_cons, hnew, hmore, append_assoc]
      · intro s hs
        rcases mem_append.mp hs with hs | hs
        · exact ⟨i, mem_cons_self, hnewmem s hs⟩
        · obtain ⟨j, hmem, hin⟩ := hmoremem s hs
          exact ⟨j, mem_cons_of_mem i hmem, hin⟩
  obtain ⟨more, hmore, hmoremem⟩ := hfold (t.inheritedTables bases primary) (t.continuedSlots bases primary)
  obtain ⟨new, hnew, hnewmem⟩ := mergeSlots_eq (t.continuedSlots bases primary ++ more)
    ((methods.filter (·.isVirtual)).map newSlot)
  refine ⟨more ++ new, ?_, ?_⟩
  · rw [firstSlots, hmore, hnew, append_assoc]
  · intro s hs
    rcases mem_append.mp hs with hs | hs
    · exact .inl (hmoremem s hs)
    · obtain ⟨m, hm, rfl⟩ := mem_map.mp (hnewmem s hs)
      exact .inr ⟨m, (mem_filter.mp hm).1, rfl⟩

lemma override_name (methods : List Method) (s : VirtualSlot) : (override methods s).name = s.name := by
  unfold override
  split
  · split <;> rfl
  · rfl

lemma override_override (methods : List Method) (s : VirtualSlot) :
    override methods (override methods s) = override methods s := by
  cases hm : methods.find? (·.name == s.name) with
  | none => simp [override, hm]
  | some m => by_cases hpure : m.isPure <;> simp [override, hm, hpure]

lemma override_implOffset_lt {methods : List Method} {s : VirtualSlot} {size : Nat}
    (h : s.implOffset < size) : (override methods s).implOffset < size := by
  have hpos : 0 < size := Nat.zero_lt_of_lt h
  unfold override
  split
  · split <;> exact hpos
  · exact h

lemma rebase_eq {slots : List VirtualSlot} {offset : Nat}
    (h : ∀ s ∈ slots, offset + s.implOffset < 2 ^ 32) : rebase slots offset = slots.map (·.shift offset) := by
  refine map_congr_left fun s hs ↦ ?_
  have hlt := h s hs
  rw [VirtualSlot.shift, addWords_eq (by omega), add_comm]

/-! ## Tables of the bases -/

lemma baseTables_eq_nil (h : (t.structDef b.id).tables = []) : t.baseTables b = [] := by
  rw [baseTables, h]
  rfl

lemma mem_baseTables (h : i ∈ t.baseTables b) : i.base = b ∧ i.table ∈ (t.structDef b.id).tables := by
  obtain ⟨⟨_, k⟩, hmem, rfl⟩ := mem_map.mp h
  exact ⟨rfl, (mem_zipIdx hmem).2.2 ▸ getElem_mem _⟩

lemma baseTables_map_table (b : Base) : (t.baseTables b).map (·.table) = (t.structDef b.id).tables := by
  rw [baseTables, List.map_map]
  exact List.zipIdx_map_fst 0 _

lemma exists_baseTables (h : table ∈ (t.structDef b.id).tables) :
    ∃ i ∈ t.baseTables b, i.base = b ∧ i.table = table := by
  rw [← baseTables_map_table b] at h
  obtain ⟨i, hi, rfl⟩ := mem_map.mp h
  exact ⟨i, hi, (mem_baseTables hi).1, rfl⟩

lemma flatMap_zipIdx_baseTables {primary : Option Nat} (hk : ∀ i, k ≤ i → some i ≠ primary) (bases : List Base) :
    ((bases.zipIdx k).flatMap fun (b, i) ↦
      if some i == primary then (t.baseTables b).drop 1 else t.baseTables b) = bases.flatMap t.baseTables := by
  induction bases generalizing k with
  | nil => rfl
  | cons b bases ih =>
    rw [zipIdx_cons, flatMap_cons, flatMap_cons, ih fun i hi ↦ hk i (by omega)]
    simp [hk k (Nat.le_refl k)]

lemma inheritedTables_none (bases : List Base) : t.inheritedTables bases none = bases.flatMap t.baseTables :=
  flatMap_zipIdx_baseTables (fun i _ h ↦ by cases h) bases

lemma inheritedTables_primary (hpre : ∀ c ∈ pre, (t.structDef c.id).tables = []) (b : Base) (post : List Base) :
    t.inheritedTables (pre ++ b :: post) (some pre.length) = (t.baseTables b).drop 1 ++ post.flatMap t.baseTables := by
  have hfront : (pre.zipIdx.flatMap fun (c, i) ↦
      if some i == some pre.length then (t.baseTables c).drop 1 else t.baseTables c) = [] := by
    rw [flatMap_eq_nil_iff]
    rintro ⟨c, i⟩ hc
    have hmem : c ∈ pre := (mem_zipIdx hc).2.2 ▸ getElem_mem _
    simp [baseTables_eq_nil (hpre c hmem)]
  rw [inheritedTables, zipIdx_append, flatMap_append, hfront, nil_append, zipIdx_cons,
    flatMap_cons, flatMap_zipIdx_baseTables]
  · simp
  · intro i hi h
    have := some.inj h
    omega

/-! ## Bodies -/

/-- A table of a struct that continues a table of a base: it is at the same place, and has the same
functions in the same order, those apart that the struct declares. -/
structure Continues (methods : List Method) (b : Base) (table table' : VirtualTable) : Prop where
  pointer : table'.pointerOffset = b.offset + table.pointerOffset
  slots : ∃ more, table'.slots = (table.slots.map (·.shift b.offset) ++ more).map (override methods)

/-- What the tables of a struct keep to, given its bases and functions and the pointer to the first. -/
structure FormedTables (t : TypeTable) (bases : List Base) (methods : List Method) (size : Nat)
    (first : Option Nat) (tables : List VirtualTable) : Prop where
  first : first = tables.head?.map (·.pointerOffset)
  apart : (tables.map (·.pointerOffset)).Nodup
  pointers : ∀ table ∈ tables, table.pointerOffset < size
  objects : ∀ table ∈ tables, ∀ s ∈ table.slots, s.implOffset < size
  own : ∀ table ∈ tables, ∀ s ∈ table.slots, override methods s = s
  continued : ∀ b ∈ bases, ∀ table ∈ (t.structDef b.id).tables,
    ∃ table' ∈ tables, Continues methods b table table'

/-- What the body of a struct keeps to, given the bodies of its bases. -/
structure Formed (t : TypeTable) (d : StructDef) : Prop extends
    FormedTables t d.bases d.methods d.size d.tablePointer d.tables where
  bases : ∀ b ∈ d.bases, (t.structDef b.id).complete ∧ b.offset + (t.structDef b.id).size ≤ d.size

def BaseTable.offset (i : BaseTable) : Nat := i.base.offset + i.table.pointerOffset

lemma Placed.apart {offset size : Nat} {placed : List Base} (h : t.Placed offset placed size)
    (hformed : ∀ b ∈ placed, t.Formed (t.structDef b.id)) : ((placed.flatMap t.baseTables).map (·.offset)).Nodup := by
  induction h with
  | nil offset => exact nodup_nil
  | @cons b _ _ _ hrest ih =>
    have hb := hformed b mem_cons_self
    have hown : (t.baseTables b).map (·.offset) =
        ((t.structDef b.id).tables.map (·.pointerOffset)).map (b.offset + ·) := by
      rw [← baseTables_map_table b, List.map_map, List.map_map]
      refine map_congr_left fun i hi ↦ ?_
      rw [BaseTable.offset, (mem_baseTables hi).1]
      rfl
    rw [flatMap_cons, map_append, nodup_append]
    refine ⟨?_, ih fun c hc ↦ hformed c (mem_cons_of_mem b hc), ?_⟩
    · rw [hown]
      exact Nodup.map (fun x y hxy ↦ Nat.add_left_cancel hxy) hb.apart
    · intro x hx y hy
      obtain ⟨i, hi, rfl⟩ := mem_map.mp hx
      obtain ⟨j, hj, rfl⟩ := mem_map.mp hy
      obtain ⟨c, hc, hjc⟩ := mem_flatMap.mp hj
      obtain ⟨hib, hit⟩ := mem_baseTables hi
      have hlt := hb.pointers i.table hit
      have hle := (hrest.within hc).2.1
      rw [BaseTable.offset, BaseTable.offset, hib, (mem_baseTables hjc).1]
      omega

lemma Placed.lt {offset size : Nat} {placed : List Base} (h : t.Placed offset placed size)
    (hb : b ∈ placed) (hword : word < (t.structDef b.id).size) : b.offset + word < size := by
  have := (h.within hb).2.2
  omega

section

variable {placed : List Base} {size words pointer offset : Nat} {primary : Option Nat} {name : String}
  {methods : List Method}

lemma mem_inheritedTables (h : i ∈ t.inheritedTables placed primary) :
    i.base ∈ placed ∧ i.table ∈ (t.structDef i.base.id).tables := by
  obtain ⟨⟨b, k⟩, hb, hi⟩ := mem_flatMap.mp h
  have hmem : b ∈ placed := (mem_zipIdx hb).2.2 ▸ getElem_mem _
  have hin : i ∈ t.baseTables b := by
    simp only at hi
    split at hi
    · exact mem_of_mem_drop hi
    · exact hi
  obtain ⟨rfl, htable⟩ := mem_baseTables hin
  exact ⟨hmem, htable⟩

lemma mem_buildTables : table ∈ t.buildTables name pointer placed primary methods ↔
      table = ⟨s!"__vtbl_{name}", pointer, (t.firstSlots placed primary methods).map (override methods)⟩ ∨
      ∃ i ∈ t.inheritedTables placed primary,
        table = { i.placed name with slots := i.slots.map (override methods) } := by
  simp [buildTables, List.map_cons, List.map_map, List.mem_cons, List.mem_map, Function.comp_apply,
    eq_comm, BaseTable.placed]

lemma primaryBase_eq_some (h : t.primaryBase placed = some k) :
    ∃ pre b post, placed = pre ++ b :: post ∧ pre.length = k ∧ (t.structDef b.id).tablePointer.isSome ∧
      ∀ c ∈ pre, (t.structDef c.id).tablePointer = none := by
  obtain ⟨hk, hb, hpre⟩ := List.findIdx?_eq_some_iff_getElem.mp h
  refine ⟨placed.take k, placed[k], placed.drop (k + 1), ?_, ?_, hb, ?_⟩
  · rw [getElem_cons_drop, take_append_drop]
  · exact length_take_of_le (Nat.le_of_lt hk)
  · intro c hc
    obtain ⟨j, hj, rfl⟩ := getElem_of_mem hc
    rw [getElem_take]
    have hlt : j < k := by
      rw [length_take] at hj
      omega
    simpa using hpre j hlt

lemma primaryBase_eq_none (h : t.primaryBase placed = none) (hb : b ∈ placed) :
    (t.structDef b.id).tablePointer = none := by
  simpa using findIdx?_eq_none_iff.mp h b hb

lemma Formed.tables_eq_nil (h : t.Formed d) (hnone : d.tablePointer = none) : d.tables = [] := by
  rw [h.first, map_eq_none_iff, head?_eq_none_iff] at hnone
  exact hnone

section

variable (h : t.Placed 0 placed words) (hwords : words < 2 ^ 32) (hformed : ∀ b ∈ placed, t.Formed (t.structDef b.id))

include h hwords hformed

lemma BaseTable.slots_eq (hb : i.base ∈ placed) (htable : i.table ∈ (t.structDef i.base.id).tables) :
    i.slots = i.table.slots.map (·.shift i.base.offset) :=
  rebase_eq fun s hs ↦ Nat.lt_trans (h.lt hb ((hformed _ hb).objects i.table htable s hs)) hwords

lemma BaseTable.placed_pointerOffset (hb : i.base ∈ placed)
    (htable : i.table ∈ (t.structDef i.base.id).tables) (name : String) : (i.placed name).pointerOffset = i.offset := by
  have hlt := Nat.lt_trans (h.lt hb ((hformed _ hb).pointers i.table htable)) hwords
  change addWords i.table.pointerOffset i.base.offset = i.base.offset + i.table.pointerOffset
  rw [addWords_eq (by omega), add_comm]

lemma formed_tables (hsize : words ≤ size) (hpointer : pointer < size) (primary : Option Nat)
    (hcontinued : ∀ s ∈ t.continuedSlots placed primary, s.implOffset < size) (methods : List Method) (name : String) :
    (∀ table ∈ t.buildTables name pointer placed primary methods, table.pointerOffset < size) ∧
    (∀ table ∈ t.buildTables name pointer placed primary methods, ∀ s ∈ table.slots, s.implOffset < size) ∧
    ∀ table ∈ t.buildTables name pointer placed primary methods, ∀ s ∈ table.slots, override methods s = s := by
  have hslots : ∀ i ∈ t.inheritedTables placed primary, ∀ s ∈ i.slots, s.implOffset < size := by
    intro i hi s hs
    obtain ⟨hb, htable⟩ := mem_inheritedTables hi
    rw [BaseTable.slots_eq h hwords hformed hb htable] at hs
    obtain ⟨q, hq, rfl⟩ := mem_map.mp hs
    exact Nat.lt_of_lt_of_le (h.lt hb ((hformed _ hb).objects i.table htable q hq)) hsize
  have hfirst : ∀ s ∈ t.firstSlots placed primary methods, s.implOffset < size := by
    intro s hs
    obtain ⟨_, hmore, hmem⟩ := t.firstSlots_eq placed primary methods
    rw [hmore] at hs
    rcases mem_append.mp hs with hs | hs
    · exact hcontinued s hs
    · rcases hmem s hs with ⟨i, hi, hin⟩ | ⟨m, -, rfl⟩
      · exact hslots i hi s hin
      · exact Nat.zero_lt_of_lt hpointer
  refine ⟨?_, ?_, ?_⟩
  · intro table htable
    rcases mem_buildTables.mp htable with rfl | ⟨i, hi, rfl⟩
    · exact hpointer
    · obtain ⟨hb, hin⟩ := mem_inheritedTables hi
      change (i.placed name).pointerOffset < size
      rw [BaseTable.placed_pointerOffset h hwords hformed hb hin]
      exact Nat.lt_of_lt_of_le (h.lt hb ((hformed _ hb).pointers i.table hin)) hsize
  · intro _ htable s hs
    rcases mem_buildTables.mp htable with rfl | ⟨i, hi, rfl⟩
    · obtain ⟨q, hq, rfl⟩ := mem_map.mp hs
      exact override_implOffset_lt (hfirst q hq)
    · obtain ⟨q, hq, rfl⟩ := mem_map.mp hs
      exact override_implOffset_lt (hslots i hi q hq)
  · intro _ htable s hs
    rcases mem_buildTables.mp htable with rfl | ⟨i, hi, rfl⟩
    all_goals
      obtain ⟨q, -, rfl⟩ := mem_map.mp hs
      exact override_override methods q

lemma exists_continues (hi : i ∈ t.inheritedTables placed primary) :
    ∃ table' ∈ t.buildTables name pointer placed primary methods, Continues methods i.base i.table table' := by
  obtain ⟨hb, htable⟩ := mem_inheritedTables hi
  refine ⟨_, mem_buildTables.mpr (.inr ⟨i, hi, rfl⟩), ?_, [], ?_⟩
  · exact BaseTable.placed_pointerOffset h hwords hformed hb htable name
  · rw [append_nil, ← BaseTable.slots_eq h hwords hformed hb htable]

lemma formed_own (hbases : ∀ b ∈ placed, (t.structDef b.id).tables = []) (hsize : words + 1 ≤ size)
    (methods : List Method) (name : String) :
    t.FormedTables placed methods size (some words) (t.buildTables name words placed none methods) := by
  have hnone : t.inheritedTables placed none = [] := by
    rw [inheritedTables_none]
    exact flatMap_eq_nil_iff.mpr fun b hb ↦ baseTables_eq_nil (hbases b hb)
  obtain ⟨hpointers, hobjects, hown⟩ := formed_tables h hwords hformed (Nat.le_of_succ_le hsize) hsize
    none (fun s hs ↦ by cases hs) methods name
  refine ⟨rfl, ?_, hpointers, hobjects, hown, ?_⟩
  · rw [buildTables, hnone]
    exact nodup_singleton words
  · intro b hb _ htable
    rw [hbases b hb] at htable
    cases htable

end

lemma formed_primary (h : t.Placed 0 (pre ++ b :: post) words) (hwords : words < 2 ^ 32)
    (hformed : ∀ c ∈ pre ++ b :: post, t.Formed (t.structDef c.id))
    (hpre : ∀ c ∈ pre, (t.structDef c.id).tables = []) {first : VirtualTable}
    (htables : (t.structDef b.id).tables = first :: others) (hsize : words ≤ size) (methods : List Method)
    (name : String) : t.FormedTables (pre ++ b :: post) methods size (some (addWords first.pointerOffset b.offset))
      (t.buildTables name (addWords first.pointerOffset b.offset) (pre ++ b :: post) (some pre.length) methods) := by
  have hb : b ∈ pre ++ b :: post := mem_append_right pre mem_cons_self
  have hfirst : first ∈ (t.structDef b.id).tables := by
    rw [htables]
    exact mem_cons_self
  have hlt := h.lt hb ((hformed b hb).pointers first hfirst)
  have hadd : addWords first.pointerOffset b.offset = b.offset + first.pointerOffset := by
    rw [addWords_eq (by omega), add_comm]
  have hbtables : t.baseTables b = ⟨true, b, first⟩ :: (t.baseTables b).drop 1 := by
    rw [baseTables, htables]
    rfl
  have hall : (pre ++ b :: post).flatMap t.baseTables =
      ⟨true, b, first⟩ :: t.inheritedTables (pre ++ b :: post) (some pre.length) := by
    have hnil : pre.flatMap t.baseTables = [] := flatMap_eq_nil_iff.mpr fun c hc ↦ baseTables_eq_nil (hpre c hc)
    rw [inheritedTables_primary hpre, ← cons_append, ← hbtables, flatMap_append, hnil, nil_append, flatMap_cons]
  have hcontinued : t.continuedSlots (pre ++ b :: post) (some pre.length) = first.slots.map (·.shift b.offset) := by
    have hget : (pre ++ b :: post)[pre.length]? = some b := by simp
    have hslots := BaseTable.slots_eq (i := ⟨true, b, first⟩) h hwords hformed hb hfirst
    rw [continuedSlots, bind_some, hget]
    simp only [htables, head?_cons, map_some, getD_some]
    exact hslots
  have hslots : ∀ s ∈ t.continuedSlots (pre ++ b :: post) (some pre.length), s.implOffset < size := by
    intro s hs
    rw [hcontinued] at hs
    obtain ⟨q, hq, rfl⟩ := mem_map.mp hs
    exact Nat.lt_of_lt_of_le (h.lt hb ((hformed b hb).objects first hfirst q hq)) hsize
  obtain ⟨hpointers, hobjects, hown⟩ := formed_tables h hwords hformed hsize
    (Nat.lt_of_lt_of_le (hadd ▸ hlt) hsize) _ hslots methods name
  refine ⟨rfl, ?_, hpointers, hobjects, hown, ?_⟩
  · -- The pointers are those of the bases, in the same order.
    have hoffsets : (t.buildTables name (addWords first.pointerOffset b.offset) (pre ++ b :: post)
        (some pre.length) methods).map (·.pointerOffset) =
        ((pre ++ b :: post).flatMap t.baseTables).map (·.offset) := by
      rw [hall, buildTables, List.map_map, List.map_cons, List.map_cons, List.map_map]
      refine congr_arg₂ cons hadd (map_congr_left fun i hi ↦ ?_)
      obtain ⟨hc, hin⟩ := mem_inheritedTables hi
      exact BaseTable.placed_pointerOffset h hwords hformed hc hin name
    rw [hoffsets]
    exact h.apart hformed
  · intro c hc _ htable
    obtain ⟨i, hi, rfl, rfl⟩ := exists_baseTables htable
    have hmem : i ∈ (pre ++ b :: post).flatMap t.baseTables := mem_flatMap.mpr ⟨i.base, hc, hi⟩
    rw [hall] at hmem
    cases hmem with
    | head =>
      obtain ⟨more, hmore, -⟩ := t.firstSlots_eq (pre ++ b :: post) (some pre.length) methods
      refine ⟨_, mem_buildTables.mpr (.inl rfl), hadd, more, ?_⟩
      simp [hmore, hcontinued]
    | tail _ hmem => exact exists_continues h hwords hformed hmem

lemma le_of_placePointer {pointer : Option Nat}
    (h : t.placePointer placed methods words = (pointer, offset)) (hwords : words < 2 ^ 31) : offset ≤ words + 1 := by
  have hadd : addWords words 1 = words + 1 := addWords_eq (by omega)
  rw [placePointer, hadd] at h
  split at h
  · cases h
    exact Nat.le_succ words
  · split at h <;> cases h <;> omega

lemma formed_body (h : t.Placed 0 placed words) (hwords : words < 2 ^ 31)
    (hformed : ∀ b ∈ placed, t.Formed (t.structDef b.id)) {pointer : Option Nat}
    (hpointer : t.placePointer placed methods words = (pointer, offset)) (hsize : offset ≤ size)
    (fields : List Field) (d : StructDef) : t.Formed (t.body placed methods pointer fields size d) := by
  have hplain : (∀ b ∈ placed, (t.structDef b.id).tables = []) → t.FormedTables placed methods size none [] := by
    intro hbases
    refine ⟨rfl, nodup_nil, by simp, by simp, by simp, fun b hb _ htable ↦ ?_⟩
    rw [hbases b hb] at htable
    cases htable
  rw [placePointer] at hpointer
  cases hprimary : t.primaryBase placed with
  | none =>
    have hbases : ∀ b ∈ placed, (t.structDef b.id).tables = [] := fun b hb ↦
      (hformed b hb).tables_eq_nil (primaryBase_eq_none hprimary hb)
    rw [hprimary] at hpointer
    simp only [bind_none] at hpointer
    split at hpointer
    · cases hpointer
      rw [addWords_eq (by omega)] at hsize
      refine ⟨?_, fun b hb ↦ ⟨(h.within hb).1, by have := (h.within hb).2.2; simp only [body]; omega⟩⟩
      simp only [body, hprimary]
      exact formed_own h (by omega) hformed hbases hsize methods _
    · cases hpointer
      exact ⟨hplain hbases, fun b hb ↦ ⟨(h.within hb).1, Nat.le_trans (h.within hb).2.2 hsize⟩⟩
  | some k =>
    obtain ⟨pre, b, post, rfl, rfl, hb, hpre⟩ := primaryBase_eq_some hprimary
    have hget : (pre ++ b :: post)[pre.length]? = some b := by simp
    rw [hprimary] at hpointer
    simp only [bind_some, hget] at hpointer
    cases hpointer
    have hmem : b ∈ pre ++ b :: post := mem_append_right pre mem_cons_self
    refine ⟨?_, fun c hc ↦ ⟨(h.within hc).1, Nat.le_trans (h.within hc).2.2 hsize⟩⟩
    have hfirst := (hformed b hmem).first
    cases htables : (t.structDef b.id).tables with
    | nil =>
      rw [hfirst, htables] at hb
      cases hb
    | cons first others =>
      rw [htables] at hfirst
      simp only [body, hfirst, hprimary, head?_cons, map_some]
      exact formed_primary h (by omega) hformed
        (fun c hc ↦ (hformed c (mem_append_left _ hc)).tables_eq_nil (hpre c hc)) htables hsize methods _

end

/-! ## Tables of types -/

/-- Two structs have the same body, or none. -/
structure SameBody (d d' : StructDef) : Prop where
  complete : d'.complete = d.complete
  bases : d.complete → d'.bases = d.bases
  methods : d.complete → d'.methods = d.methods
  size : d.complete → d'.size = d.size
  pointer : d.complete → d'.tablePointer = d.tablePointer
  tables : d.complete → d'.tables = d.tables

/-- Tables of types as they come up: structs get their bodies one after the other, each of them once,
and in between anything else may be entered. Neither the bases of a struct together nor any of its fields
have two to the power of thirty-one words. -/
inductive LaidOut : TypeTable → Prop where
  | empty {t : TypeTable} (h : ∀ id, (t.structDef id).complete = false) : LaidOut t
  | other {t t' : TypeTable} (h : LaidOut t) (hsame : ∀ id, SameBody (t.structDef id) (t'.structDef id)) :
    LaidOut t'
  | layout {t t' : TypeTable} {id : StructId} {bases : List StructId} {fields : List Field}
    {methods : List Method} (h : LaidOut t) (hid : (t.structDef id).complete = false)
    (hlayout : t.layoutStruct id bases fields methods = .ok t') (hbases : t.baseWords bases < 2 ^ 31)
    (hfields : ∀ f ∈ fields, ∀ n, t.sizeOf f.type = some n → n < 2 ^ 31) : LaidOut t'

lemma layoutStruct_eq_ok {methods : List Method} (h : t.layoutStruct id bases fields methods = .ok t') :
    ∃ placed words pointer offset placedFields size, t.placeBases id 0 bases = .ok (placed, words) ∧
      t.placePointer placed (t.overriding placed methods) words = (pointer, offset) ∧
      t.placeFields (t.structDef id).name (t.structDef id).isUnion offset fields = .ok (placedFields, size) ∧
      t' = t.modifyStruct id (t.body placed (t.overriding placed methods) pointer placedFields size) := by
  simp only [layoutStruct] at h
  split at h
  · cases h
  split at h
  · cases h
  obtain ⟨⟨placed, words⟩, hplaced, hrest⟩ := bind_eq_ok.mp h
  obtain ⟨⟨placedFields, size⟩, hfields, hbody⟩ := bind_eq_ok.mp hrest
  cases hbody
  exact ⟨placed, words, _, _, placedFields, size, hplaced, rfl, hfields, rfl⟩

lemma structDef_modifyStruct (t : TypeTable) (id : StructId) (f : StructDef → StructDef) (q : StructId) :
    (t.modifyStruct id f).structDef q = t.structDef q ∨
      q = id ∧ (t.modifyStruct id f).structDef q = f (t.structDef id) := by
  simp only [structDef, modifyStruct, Array.getElem?_modify]
  by_cases hq : id.index = q.index
  · have heq : q = id := by
      cases q
      cases id
      cases hq
      rfl
    rw [if_pos hq, heq]
    cases t.structs[id.index]? with
    | none => exact .inl rfl
    | some d => exact .inr ⟨rfl, rfl⟩
  · rw [if_neg hq]
    exact .inl rfl

lemma structDef_modifyStruct_self (hid : id.index < t.structs.size) (f : StructDef → StructDef) :
    (t.modifyStruct id f).structDef id = f (t.structDef id) := by
  simp [structDef, modifyStruct, hid, Array.getElem_modify]

lemma structDef_modifyStruct_of_complete (hid : (t.structDef id).complete = false)
    (hq : (t.structDef q).complete) (f : StructDef → StructDef) :
    (t.modifyStruct id f).structDef q = t.structDef q := by
  rcases structDef_modifyStruct t id f q with hsame | ⟨rfl, -⟩
  · exact hsame
  · rw [hid] at hq
    cases hq

lemma SameBody.refl (d : StructDef) : SameBody d d :=
  ⟨rfl, fun _ ↦ rfl, fun _ ↦ rfl, fun _ ↦ rfl, fun _ ↦ rfl, fun _ ↦ rfl⟩

lemma Formed.congr (h : t.Formed d) (hcomplete : d.complete)
    (hd : SameBody d d') (hbases : ∀ b ∈ d.bases, SameBody (t.structDef b.id) (t'.structDef b.id)) : t'.Formed d' := by
  constructor
  · rw [hd.bases hcomplete, hd.methods hcomplete, hd.size hcomplete, hd.pointer hcomplete, hd.tables hcomplete]
    refine { h.toFormedTables with continued := ?_ }
    intro b hb table htable
    rw [(hbases b hb).tables (h.bases b hb).1] at htable
    exact h.continued b hb table htable
  · rw [hd.bases hcomplete, hd.size hcomplete]
    intro b hb
    obtain ⟨hbase, hsize⟩ := h.bases b hb
    rw [(hbases b hb).complete, (hbases b hb).size hbase]
    exact ⟨hbase, hsize⟩

lemma LaidOut.bodies {P : TypeTable → StructDef → Prop}
    (hbases : ∀ {t d}, P t d → ∀ b ∈ d.bases, (t.structDef b.id).complete)
    (hcongr : ∀ {t t' d d'}, P t d → d.complete → SameBody d d' →
      (∀ b ∈ d.bases, SameBody (t.structDef b.id) (t'.structDef b.id)) → P t' d')
    (hbody : ∀ {t placed words methods pointer offset size} fields d, t.Placed 0 placed words → words < 2 ^ 31 →
      (∀ b ∈ placed, P t (t.structDef b.id)) → t.placePointer placed methods words = (pointer, offset) →
      offset ≤ size → P t (t.body placed methods pointer fields size d))
    (h : t.LaidOut) (hid : (t.structDef id).complete) : P t (t.structDef id) := by
  induction h generalizing id with
  | empty h =>
    rw [h id] at hid
    cases hid
  | @other t _ _ hsame ih =>
    have hold : (t.structDef id).complete := by rw [← (hsame id).complete, hid]
    exact hcongr (ih hold) hold (hsame id) fun b _ ↦ hsame b.id
  | @layout t _ new _ _ _ _ hnew hlayout _ hfields ih =>
    obtain ⟨_, _, _, _, placedFields, _, hplaced, hpointer, hsize, rfl⟩ := layoutStruct_eq_ok hlayout
    -- The struct that gets its body is the base of none that has one.
    have hsame : ∀ q, (t.structDef q).complete → ∀ f,
        SameBody (t.structDef q) ((t.modifyStruct new f).structDef q) := by
      intro q hq f
      rw [structDef_modifyStruct_of_complete hnew hq f]
      exact .refl _
    rcases structDef_modifyStruct t new _ id with hold | ⟨rfl, hnewBody⟩
    · rw [hold] at hid ⊢
      exact hcongr (ih hid) hid (.refl _) fun b hb ↦ hsame b.id (hbases (ih hid) b hb) _
    · obtain ⟨hat, _⟩ := placed_of_placeBases hplaced (by omega)
      have hoffset := le_of_placePointer hpointer (by omega)
      rw [hnewBody]
      refine hcongr (hbody placedFields (t.structDef id) hat (by omega) (fun b hb ↦ ih (hat.within hb).1) hpointer
        (placeFields_within hsize (by omega) hfields).1) rfl (.refl _) fun b hb ↦ hsame b.id (hat.within hb).1 _

lemma LaidOut.formed (h : t.LaidOut) (hid : (t.structDef id).complete) : t.Formed (t.structDef id) :=
  h.bodies (fun hd b hb ↦ (hd.bases b hb).1) Formed.congr (fun fields d hplaced hwords hbases hpointer hsize ↦
    formed_body hplaced hwords hbases hpointer hsize fields d) hid

end TypeTable

end W16Compiler
