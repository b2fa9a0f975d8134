import W16Compiler.Proofs.Types.Dispatch
import W16Compiler.Grammar.Specifier

/-!
# The parts of a struct

The bases of a struct, a pointer to a table of its own and its fields follow one another and leave no word out.
Every pointer to a table is that one or is inside of a base, whatever has been laid out before, as long as no count
of words wraps around.
-/

namespace W16Compiler

open Grammar List Option

structure Part where
  offset : Nat
  words : Nat

def Part.has (p : Part) (w : Nat) : Bool := p.offset ≤ w && w < p.offset + p.words

lemma Part.has_iff {p : Part} : p.has w ↔ p.offset ≤ w ∧ w < p.offset + p.words := by
  simp [Part.has]

def Consecutive : Nat → List Part → Nat → Prop
  | start, [], stop => start = stop
  | start, p :: rest, stop => p.offset = start ∧ Consecutive (start + p.words) rest stop

lemma total_append (counts more : List Nat) : total (counts ++ more) = total counts + total more := by
  induction counts with
  | nil => exact (zero_add _).symm
  | cons n counts ih => exact (congrArg (n + ·) ih).trans (add_assoc ..).symm

namespace Consecutive

variable {start middle stop : Nat} {parts more : List Part} (h : Consecutive start parts stop)

include h

lemma append (hmore : Consecutive stop more last) : Consecutive start (parts ++ more) last := by
  induction parts generalizing start with
  | nil =>
    cases h
    exact hmore
  | cons p parts ih => exact ⟨h.1, ih h.2⟩

lemma stop_eq : stop = start + total (parts.map (·.words)) := by
  induction parts generalizing start with
  | nil => exact h.symm
  | cons p parts ih => exact (ih h.2).trans (add_assoc _ _ _)

lemma count (w : Nat) : parts.countP (·.has w) = if start ≤ w ∧ w < stop then 1 else 0 := by
  induction parts generalizing start with
  | nil =>
    cases h
    rw [if_neg (by omega)]
    rfl
  | cons p parts ih =>
    obtain ⟨hp, h⟩ := h
    have hstop := h.stop_eq
    rw [countP_cons, ih h]
    simp only [Part.has_iff, hp]
    split_ifs <;> omega

end Consecutive

namespace TypeTable

variable {t t' : TypeTable} {id : StructId} {bases : List StructId} {fields placedFields : List Field}
  {placed : List Base} {methods : List Method} {name : String} {offset size words : Nat} {isUnion : Bool}
  {pointer : Option Nat} {d : StructDef}

def ownPointer (t : TypeTable) (bases : List Base) (pointer : Option Nat) : Option Nat :=
  if (t.primaryBase bases).isSome then none else pointer

def basePart (t : TypeTable) (b : Base) : Part := ⟨b.offset, (t.structDef b.id).size⟩

def fieldPart (t : TypeTable) (f : Field) : Part := ⟨f.offset, (t.sizeOf f.type).getD 0⟩

def parts (t : TypeTable) (d : StructDef) : List Part :=
  d.bases.map t.basePart ++ (t.ownPointer d.bases d.tablePointer).toList.map (⟨·, 1⟩) ++ d.fields.map t.fieldPart

/-- The words of a struct can be counted. Those of a union always can. -/
def Countable (t : TypeTable) (d : StructDef) : Prop :=
  d.isUnion = false → total ((t.parts d).map (·.words)) < 2 ^ 32

def pointers (d : StructDef) : List Nat := d.tablePointer.toList ++ d.tables.map (·.pointerOffset)

/-- Every word belongs to one part, or the parts of a union overlap at the start. -/
structure Tiled (t : TypeTable) (d : StructDef) : Prop where
  consecutive : d.isUnion = false → Consecutive 0 (t.parts d) d.size
  covered : d.isUnion = false → ∀ w, (t.parts d).countP (·.has w) = if w < d.size then 1 else 0
  sized : ∀ f ∈ d.fields, (t.sizeOf f.type).isSome
  overlaid : d.isUnion → ∀ f ∈ d.fields, f.offset = 0 ∧ (t.fieldPart f).words ≤ d.size
  pointers : ∀ p ∈ pointers d, p < d.size ∧
    (t.ownPointer d.bases d.tablePointer = some p ∨
      ∃ b ∈ d.bases, (t.basePart b).has p ∧ ∃ q ∈ pointers (t.structDef b.id), p = b.offset + q)

/-- Tables of types as they come up, and structs whose words can be counted, together with those of their bases. -/
inductive Reached : TypeTable → List StructId → Prop where
  | empty {t : TypeTable} (h : ∀ id, (t.structDef id).complete = false) : Reached t []
  | other {t t' : TypeTable} {ids : List StructId} (h : Reached t ids)
    (hsame : ∀ id, SameBody (t.structDef id) (t'.structDef id)) : Reached t' ids
  | layout {t t' : TypeTable} {ids ids' bases : List StructId} {id : StructId} {fields : List Field}
    {methods : List Method} (h : Reached t ids) (hid : (t.structDef id).complete = false)
    (hlayout : t.layoutStruct id bases fields methods = .ok t')
    (hids : ids' = ids ∨ ids' = id :: ids ∧ id.index < t.structs.size ∧ (∀ b ∈ bases, b ∈ ids) ∧
      t.Countable (t'.structDef id)) : Reached t' ids'

/-! ## Placing -/

lemma placeBases_ids (h : t.placeBases id offset bases = .ok (placed, size)) : placed.map (·.id) = bases := by
  induction bases generalizing offset placed with
  | nil =>
    cases h
    rfl
  | cons b bases ih =>
    obtain ⟨_, -, rfl, hrest⟩ := placeBases_cons_eq_ok h
    exact congrArg _ (ih hrest)

lemma Placed.consecutive (h : t.Placed offset placed size) : Consecutive offset (placed.map t.basePart) size := by
  induction h with
  | nil => rfl
  | cons _ _ ih => exact ⟨rfl, ih⟩

lemma placeFields_spec (h : t.placeFields name isUnion size fields = .ok (placedFields, words)) :
    placedFields.map ({ · with offset := 0 }) = fields.map ({ · with offset := 0 }) ∧
    (∀ f ∈ placedFields, (t.sizeOf f.type).isSome) ∧
    (isUnion = false → size + total ((placedFields.map t.fieldPart).map (·.words)) < 2 ^ 32 →
      Consecutive size (placedFields.map t.fieldPart) words) ∧
    (isUnion → size ≤ words ∧ ∀ f ∈ placedFields, f.offset = 0 ∧ (t.fieldPart f).words ≤ words) := by
  induction fields generalizing size placedFields with
  | nil =>
    cases h
    exact ⟨rfl, fun _ hf ↦ (by cases hf), fun _ _ ↦ rfl, fun _ ↦ ⟨Nat.le_refl _, fun _ hf ↦ by cases hf⟩⟩
  | cons f fields ih =>
    obtain ⟨n, _, hn, rfl, -, hrest⟩ := placeFields_cons_eq_ok h
    obtain ⟨hnames, hsized, htiled, hunion⟩ := ih hrest
    have hpart : ∀ offset, t.fieldPart { f with offset } = ⟨offset, n⟩ := fun _ ↦ by simp [fieldPart, hn]
    refine ⟨by rw [map_cons, hnames, map_cons], forall_mem_cons.mpr ⟨by simp [hn], hsized⟩, ?_, ?_⟩
    · rintro rfl hwords
      have htiled := htiled rfl
      simp only [Bool.false_eq_true, if_false, map_cons, hpart] at htiled hwords ⊢
      change size + (n + total _) < 2 ^ 32 at hwords
      rw [addWords_eq (by omega)] at htiled
      exact ⟨rfl, htiled (by omega)⟩
    · rintro rfl
      obtain ⟨hle, hrest⟩ := hunion rfl
      have hmax : max size n ≤ words := hle
      refine ⟨by omega, forall_mem_cons.mpr ⟨⟨rfl, ?_⟩, hrest⟩⟩
      simp only [if_true, hpart]
      omega

lemma placePointer_cases (h : t.placePointer placed methods words = (pointer, offset)) :
    (t.ownPointer placed pointer = none ∧ offset = words ∧ ∀ p, pointer = some p →
      ∃ b ∈ placed, ∃ q ∈ pointers (t.structDef b.id), p = addWords q b.offset) ∨
    t.ownPointer placed pointer = some words ∧ pointer = some words ∧ offset = addWords words 1 := by
  rw [placePointer] at h
  cases hprimary : t.primaryBase placed with
  | none =>
    simp only [hprimary, bind_none] at h
    split at h <;> cases h <;> simp [ownPointer, hprimary]
  | some k =>
    obtain ⟨pre, b, _, rfl, rfl, hb, -⟩ := primaryBase_eq_some hprimary
    obtain ⟨q, hq⟩ := isSome_iff_exists.mp hb
    simp only [hprimary, bind_some, getElem?_append_right (Nat.le_refl _), Nat.sub_self, getElem?_cons_zero, hq,
      map_some] at h
    cases h
    refine .inl ⟨by simp [ownPointer, hprimary], rfl, fun p hp ↦ ⟨b, mem_append_right pre mem_cons_self, q, ?_, ?_⟩⟩
    · simp [pointers, hq]
    · exact (some.inj hp).symm

/-! ## Bodies -/

lemma mem_pointers_body (h : t.placePointer placed methods words = (pointer, offset))
    (hp : p ∈ pointers (t.body placed methods pointer fields size d)) :
    t.ownPointer placed pointer = some p ∨ ∃ b ∈ placed, ∃ q ∈ pointers (t.structDef b.id), p = addWords q b.offset := by
  by_cases hfirst : pointer = some p
  · rcases placePointer_cases h with ⟨-, -, hbase⟩ | ⟨hown, heq, -⟩
    · exact .inr (hbase p hfirst)
    · exact .inl (hown.trans (heq.symm.trans hfirst))
  rcases mem_append.mp hp with hp | hp
  · exact (hfirst (mem_toList.mp hp)).elim
  · obtain ⟨table, htable, rfl⟩ := mem_map.mp hp
    cases pointer with
    | none => cases htable
    | some q =>
      rcases mem_buildTables.mp htable with rfl | ⟨i, hi, rfl⟩
      · exact (hfirst rfl).elim
      · obtain ⟨hb, hin⟩ := mem_inheritedTables hi
        exact .inr ⟨i.base, hb, i.table.pointerOffset, mem_append_right _ (mem_map_of_mem hin), rfl⟩

lemma layoutStruct_union (h : t.layoutStruct id bases fields methods = .ok t') (hunion : (t.structDef id).isUnion) :
    bases = [] := by
  simp only [layoutStruct] at h
  split at h
  · cases h
  rename_i hbases
  simpa [hunion] using hbases

lemma members_layout (hid : id.index < t.structs.size) (h : t.layoutStruct id bases fields methods = .ok t') :
    (t'.structDef id).complete ∧ (t'.structDef id).bases.map (·.id) = bases ∧
      (t'.structDef id).fields.map ({ · with offset := 0 }) = fields.map ({ · with offset := 0 }) := by
  obtain ⟨_, _, _, _, _, _, hbases, -, hfields, rfl⟩ := layoutStruct_eq_ok h
  rw [structDef_modifyStruct_self hid]
  exact ⟨rfl, placeBases_ids hbases, (placeFields_spec hfields).1⟩

lemma tiled_layout (hpointers : ∀ b ∈ bases, ∀ p ∈ pointers (t.structDef b), p < (t.structDef b).size)
    (hid : id.index < t.structs.size) (h : t.layoutStruct id bases fields methods = .ok t')
    (hcount : t.Countable (t'.structDef id)) : t.Tiled (t'.structDef id) := by
  obtain ⟨placed, words, pointer, offset, placedFields, size, hbases, hpointer, hfields, rfl⟩ := layoutStruct_eq_ok h
  obtain rfl := placeBases_ids hbases
  obtain ⟨-, hsized, htiled, hoverlaid⟩ := placeFields_spec hfields
  rw [structDef_modifyStruct_self hid] at hcount ⊢
  have hwords : (t.structDef id).isUnion = false → t.baseWords (placed.map (·.id)) +
      (t.ownPointer placed pointer).toList.length + total ((placedFields.map t.fieldPart).map (·.words)) < 2 ^ 32 := by
    intro hu
    have hlt := hcount hu
    have hcons : ∀ n counts, total (n :: counts) = n + total counts := fun _ _ ↦ rfl
    cases hown : t.ownPointer placed pointer <;>
      simpa [parts, body, hown, total_append, hcons, baseWords, basePart, Function.comp_def, add_assoc] using hlt
  have hfront : t.baseWords (placed.map (·.id)) + (t.ownPointer placed pointer).toList.length < 2 ^ 32 := by
    cases hu : (t.structDef id).isUnion with
    | true =>
      rw [layoutStruct_union h hu]
      cases t.ownPointer placed pointer <;> simp [baseWords, total]
    | false => exact Nat.lt_of_le_of_lt (Nat.le_add_right _ _) (hwords hu)
  obtain ⟨hplaced, _⟩ := placed_of_placeBases hbases (by omega)
  have hown : Consecutive words ((t.ownPointer placed pointer).toList.map (⟨·, 1⟩)) offset ∧
      offset = words + (t.ownPointer placed pointer).toList.length := by
    rcases placePointer_cases hpointer with ⟨hown, rfl, -⟩ | ⟨hown, -, rfl⟩
    · rw [hown]
      exact ⟨rfl, rfl⟩
    · rw [hown] at hfront ⊢
      have hadd : addWords words 1 = words + 1 := addWords_eq (by simp at hfront; omega)
      exact ⟨⟨rfl, hadd.symm⟩, hadd⟩
  have hall : (t.structDef id).isUnion = false → Consecutive 0
      (t.parts (t.body placed (t.overriding placed methods) pointer placedFields size (t.structDef id))) size := by
    intro hu
    have hlt := hwords hu
    exact (hplaced.consecutive.append hown.1).append (htiled hu (by omega))
  have hle : offset ≤ size := by
    cases hu : (t.structDef id).isUnion with
    | true => exact (hoverlaid hu).1
    | false =>
      have hlt := hwords hu
      exact (htiled hu (by omega)).stop_eq ▸ Nat.le_add_right _ _
  refine ⟨hall, fun hu w ↦ ?_, hsized, fun hu ↦ (hoverlaid hu).2, fun p hp ↦ ?_⟩
  · have hone := (hall hu).count w
    simp only [Nat.zero_le, true_and] at hone
    exact hone
  · change p < size ∧ _
    rcases mem_pointers_body hpointer hp with hp | ⟨b, hb, q, hq, rfl⟩
    · refine ⟨?_, .inl hp⟩
      rcases placePointer_cases hpointer with ⟨hnone, -⟩ | ⟨hsome, -⟩
      · cases hnone.symm.trans hp
      · cases hsome.symm.trans hp
        rw [hp] at hown
        exact Nat.lt_of_lt_of_le (hown.2 ▸ Nat.lt_succ_self _) hle
    · have hlt := hpointers b.id (mem_map_of_mem hb) q hq
      have hin := hplaced.lt hb hlt
      rw [addWords_eq (by omega), add_comm]
      exact ⟨by omega, .inr ⟨b, hb, Part.has_iff.mpr ⟨Nat.le_add_right _ _, Nat.add_lt_add_left hlt _⟩, q, hq, rfl⟩⟩

lemma Reached.pointers_lt (h : t.Reached ids) :
    ∀ q ∈ ids, (t.structDef q).complete ∧ ∀ p ∈ pointers (t.structDef q), p < (t.structDef q).size := by
  induction h with
  | empty => exact fun q hq ↦ by cases hq
  | other _ hsame ih =>
    intro q hq
    obtain ⟨hcomplete, hlt⟩ := ih q hq
    rw [pointers, (hsame q).complete, (hsame q).pointer hcomplete, (hsame q).tables hcomplete, (hsame q).size hcomplete]
    exact ⟨hcomplete, hlt⟩
  | @layout _ t' ids _ _ _ _ _ _ hid hlayout hids ih =>
    have hold : ∀ q ∈ ids, (t'.structDef q).complete ∧ ∀ p ∈ pointers (t'.structDef q), p < (t'.structDef q).size := by
      intro q hq
      obtain ⟨_, _, _, _, _, _, -, -, -, rfl⟩ := layoutStruct_eq_ok hlayout
      rw [structDef_modifyStruct_of_complete hid (ih q hq).1]
      exact ih q hq
    rcases hids with rfl | ⟨rfl, hin, hbases, hcount⟩
    · exact hold
    · have htiled := tiled_layout (fun b hb ↦ (ih b (hbases b hb)).2) hin hlayout hcount
      exact forall_mem_cons.mpr ⟨⟨(members_layout hin hlayout).1, fun p hp ↦ (htiled.pointers p hp).1⟩, hold⟩

lemma get_bind (k : State → ReadM Unit) (s : State) : (MonadState.get >>= k : ReadM Unit) s = k s s := rfl

/-- A struct that is completed has the bases and fields that were read, and they tile it, with their sizes before. The
bases are to have words that can be counted. A struct that cannot be laid out leaves everything as it was. -/
theorem Reached.tiled_completeStruct {s s' : State} {ids : List StructId} {ms : Members} {loc : Location}
    {r : Except Diagnostic Unit} (h : s.types.Reached ids) (hid : id.index < s.types.structs.size)
    (hrun : completeStruct id bases ms loc s = (r, s')) :
    (∀ fault, r = .error fault → s' = s) ∧
    (r = .ok () → (s'.types.structDef id).bases.map (·.id) = bases ∧
      (s'.types.structDef id).fields.map ({ · with offset := 0 }) = ms.fields.toList.map ({ · with offset := 0 }) ∧
      ((∀ b ∈ bases, b ∈ ids) → s.types.Countable (s'.types.structDef id) →
        s.types.Tiled (s'.types.structDef id))) := by
  rw [completeStruct, get_bind] at hrun
  cases hlayout : s.types.layoutStruct id bases ms.fields.toList ms.methods.toList with
  | error f =>
    rw [hlayout] at hrun
    cases hrun
    exact ⟨fun _ _ ↦ rfl, fun hr ↦ by cases hr⟩
  | ok t =>
    rw [hlayout] at hrun
    cases hrun
    obtain ⟨-, hids, hnames⟩ := members_layout hid hlayout
    exact ⟨fun _ hr ↦ (by cases hr), fun _ ↦ ⟨hids, hnames, fun hbases hcount ↦
      tiled_layout (fun b hb ↦ (h.pointers_lt b (hbases b hb)).2) hid hlayout hcount⟩⟩

lemma not_has_of_tiled (h : t.Tiled d) (hunion : d.isUnion = false) (hp : p ∈ pointers d)
    (hf : f ∈ d.fields) : ¬ (t.fieldPart f).has p := by
  intro hin
  have hone := h.covered hunion p
  rw [parts, countP_append] at hone
  have hfield : 0 < (d.fields.map t.fieldPart).countP (·.has p) := countP_pos_iff.mpr ⟨_, mem_map_of_mem hf, hin⟩
  have hfront : 0 < (d.bases.map t.basePart ++
      (t.ownPointer d.bases d.tablePointer).toList.map (Part.mk · 1)).countP (·.has p) := by
    rw [countP_pos_iff]
    rcases (h.pointers p hp).2 with hown | ⟨b, hb, hbase, -⟩
    · exact ⟨⟨p, 1⟩, by simp [hown], by simp [Part.has]⟩
    · exact ⟨_, mem_append_left _ (mem_map_of_mem hb), hbase⟩
  split_ifs at hone <;> omega

/-- Whether the struct brings a pointer to a table or a base does, no field of the struct shares its word. -/
theorem Reached.not_has_pointer {ids : List StructId} (h : t.Reached ids) (hid : id.index < t.structs.size)
    (hbases : ∀ b ∈ bases, b ∈ ids) (hlayout : t.layoutStruct id bases fields methods = .ok t')
    (hcount : t.Countable (t'.structDef id)) (hunion : (t'.structDef id).isUnion = false) :
    ∀ p ∈ pointers (t'.structDef id), ∀ f ∈ (t'.structDef id).fields, ¬ (t.fieldPart f).has p := by
  have htiled := tiled_layout (fun b hb ↦ (h.pointers_lt b (hbases b hb)).2) hid hlayout hcount
  exact fun p hp f hf ↦ not_has_of_tiled htiled hunion hp hf

namespace Example

lemma reached_second : second.Reached [⟨1⟩, ⟨0⟩] := by
  have hnames : names.Reached [] := .empty fun id ↦ by
    match id with
    | ⟨0⟩ | ⟨1⟩ | ⟨2⟩ => rfl
    | ⟨_ + 3⟩ => rfl
  have hfirst : first.Reached [⟨0⟩] :=
    .layout hnames rfl (show names.layoutStruct ⟨0⟩ [] [] [method "A" "f" 0] = .ok first from rfl)
      (.inr ⟨rfl, by decide, by simp, fun _ ↦ by decide⟩)
  exact .layout hfirst rfl (show first.layoutStruct ⟨1⟩ [] [] [method "B" "g" 1] = .ok second from rfl)
    (.inr ⟨rfl, by decide, by simp, fun _ ↦ by decide⟩)

/-- A struct with two bases that bring pointers, and a field behind them. -/
def members : Members := { fields := #[⟨"x", .int, 0, none, .builtin⟩], methods := #[method "C" "g" 2] }

def laid : Except LayoutFault TypeTable :=
  second.layoutStruct ⟨2⟩ [⟨0⟩, ⟨1⟩] members.fields.toList members.methods.toList

def third : TypeTable := laid.toOption.getD second

lemma laid_eq : laid = .ok third := by
  have hok : laid.toBool := by decide +kernel
  rw [third]
  cases hlaid : laid with
  | error f =>
    rw [hlaid] at hok
    cases hok
  | ok t => rfl

lemma countable_third : second.Countable (third.structDef ⟨2⟩) := fun _ ↦ by decide +kernel

def reading : State := { tokens := { rest := [], endLoc := .builtin }, types := second }

theorem tiled_completeStruct_second : second.Reached [⟨1⟩, ⟨0⟩] ∧
    completeStruct ⟨2⟩ [⟨0⟩, ⟨1⟩] members .builtin reading = (.ok (), { reading with types := third }) ∧
    second.Countable (third.structDef ⟨2⟩) ∧ second.Tiled (third.structDef ⟨2⟩) := by
  have hlaid : reading.types.layoutStruct ⟨2⟩ [⟨0⟩, ⟨1⟩] members.fields.toList members.methods.toList = .ok third := laid_eq
  have hrun : completeStruct ⟨2⟩ [⟨0⟩, ⟨1⟩] members .builtin reading = (.ok (), { reading with types := third }) := by
    rw [completeStruct, get_bind, hlaid]
    rfl
  obtain ⟨-, hok⟩ := reached_second.tiled_completeStruct (by decide) hrun
  exact ⟨reached_second, hrun, countable_third, (hok rfl).2.2 (by decide) countable_third⟩

theorem not_has_pointer_second : second.Reached [⟨1⟩, ⟨0⟩] ∧ 1 ∈ pointers (third.structDef ⟨2⟩) ∧
    ∃ f ∈ (third.structDef ⟨2⟩).fields, f.name = "x" ∧ ¬ (second.fieldPart f).has 1 := by
  have hpointer : 1 ∈ pointers (third.structDef ⟨2⟩) := by decide +kernel
  have hfield : ∃ f ∈ (third.structDef ⟨2⟩).fields, f.name = "x" := by decide +kernel
  obtain ⟨f, hf, hname⟩ := hfield
  exact ⟨reached_second, hpointer, f, hf, hname, reached_second.not_has_pointer (by decide) (by decide) laid_eq
    countable_third (by decide +kernel) 1 hpointer f hf⟩

end Example

end TypeTable

end W16Compiler
