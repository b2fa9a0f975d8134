import W16Compiler.Machine.Thunk
import W16Compiler.Proofs.Machine.Knowledge
import W16Compiler.Proofs.Machine.Straight
import W16Compiler.Proofs.Types.Layout

/-!
# Virtual calls

A call through a table is made with the object pointer at the pointer to the table. An entry of the table
is a function, or a thunk that moves the object pointer on the stack and goes on to the function. Inside a
struct the table of any of its bases, at any depth, has for each function the declaration of the most
derived struct on the way down to the base, and the function gets the object of the struct that declares
it.
-/

namespace W16Compiler

open List Function MachineState BitVec AdjustThunk

/-! ## Entries of tables -/

/-- Control goes from a label to another one, directly or through one of the thunks. -/
inductive AdjustThunk.Leads (thunks : List AdjustThunk) (E : Surroundings) :
    String → MachineState → String → MachineState → Prop where
  | direct (label : String) (ms : MachineState) : Leads thunks E label ms label ms
  | through {thunk : AdjustThunk} {ms ms' : MachineState} {past past' : List MachineEvent} {target : String}
    (h : thunk ∈ thunks)
    (hrun : (thunk.function.code.process E fun _ ↦ true).Reaches
      ⟨.running (thunk.function.code, ms), past⟩ ⟨.ended (.left target ms'.regs ms'.mem), past'⟩) :
    Leads thunks E thunk.function.label ms target ms'

def VirtualSlot.objectAt (t : TypeTable) (s : VirtualSlot) (ms : MachineState) : Word :=
  ms.sp + .ofInt 16 (AdjustThunk.objectOffset t s.fnType)

/-- A call of an entry, made with the object pointer at the pointer to the table of an object, comes to a
function with another object pointer. Nothing else on the stack has changed. -/
def VirtualTable.Calls (t : TypeTable) (table : VirtualTable) (s : VirtualSlot) (object : Word)
    (label : String) (this : Word) : Prop :=
  ∀ (E : Surroundings) (ms : MachineState),
    ms.mem (s.objectAt t ms) = object + .ofNat 16 table.pointerOffset →
      ∃ ms', AdjustThunk.Leads (AdjustThunk.ofTable t table) E (table.entryLabel s) ms label ms' ∧
        ms'.sp = ms.sp ∧ ms'.mem = Function.update ms.mem (s.objectAt t ms) this

lemma AdjustThunk.leads_code (thunk : AdjustThunk) (E : Surroundings) (ms : MachineState) :
    W16Compiler.Leads E [] ms thunk.code fun m ↦ ∃ ms' : MachineState,
      m = .finish (.left thunk.target ms'.regs ms'.mem) ∧ ms'.sp = ms.sp ∧
        ms'.mem = update ms.mem (ms.sp + .ofInt 16 thunk.objectAt)
          (ms.mem (ms.sp + .ofInt 16 thunk.objectAt) + .ofInt 16 thunk.adjust) := by
  unfold code
  split
  · refine .cons_result rfl (.cons_result rfl (.cons_store (.singleton ⟨_, rfl, rfl, ?_⟩)))
    simp [Instr.value, address, sp, Surroundings.displacement]
  · refine .cons_result rfl (.cons_result rfl (.cons_result rfl (.cons_store (.singleton ⟨_, rfl, rfl, ?_⟩))))
    simp [Instr.value, address, sp, Surroundings.displacement, AluOp.apply]

lemma AdjustThunk.reaches (thunk : AdjustThunk) (E : Surroundings) (ms : MachineState) :
    ∃ (ms' : MachineState) (past : List MachineEvent),
      (thunk.function.code.process E fun _ ↦ true).Reaches ⟨.running (thunk.function.code, ms), []⟩
        ⟨.ended (.left thunk.target ms'.regs ms'.mem), past⟩ ∧
      ms'.sp = ms.sp ∧ ms'.mem = update ms.mem (ms.sp + .ofInt 16 thunk.objectAt)
        (ms.mem (ms.sp + .ofInt 16 thunk.objectAt) + .ofInt 16 thunk.adjust) := by
  obtain ⟨ms', hfinish, hsp, hmem⟩ := thunk.leads_code E ms
  have hcode : thunk.function.code.map (·.value) = thunk.code := by
    simp [function, comp_def]
  have hperform : perform E [] ms (thunk.function.code.map (·.value)) =
      ((perform E [] ms thunk.code).1, .finish (.left thunk.target ms'.regs ms'.mem)) := by
    rw [hcode, ← hfinish]
  have hreach := Code.process_reaches_perform thunk.function.code thunk.function.code [] hperform
  rw [append_nil] at hreach
  exact ⟨ms', _, hreach, hsp, hmem⟩

lemma VirtualTable.entryLabel_of_isPure (table : VirtualTable) {s : VirtualSlot} (h : s.isPure) :
    table.entryLabel s = s.label := by
  simp [entryLabel, h]

lemma VirtualTable.add_adjust (table : VirtualTable) (s : VirtualSlot) :
    BitVec.ofNat 16 table.pointerOffset + BitVec.ofInt 16 (table.adjust s) = .ofNat 16 s.implOffset := by
  calc
    _ = BitVec.ofNat 16 table.pointerOffset + (.ofNat 16 s.implOffset - .ofNat 16 table.pointerOffset) := by
      rw [VirtualTable.adjust, ofInt_wrap32, Int.sub_eq_add_neg, ofInt_add, ofInt_neg,
        ofInt_wrap32, ofInt_wrap32, ofInt_natCast, ofInt_natCast, BitVec.sub_eq_add_neg]
    _ = .ofNat 16 s.implOffset := by rw [BitVec.add_comm, BitVec.sub_add_cancel]

lemma VirtualTable.calls_label (t : TypeTable) {table : VirtualTable} {s : VirtualSlot} (hs : s ∈ table.slots)
    (himpl : s.isPure = false) (object : Word) : table.Calls t s object s.label (object + .ofNat 16 s.implOffset) := by
  intro E ms hobject
  by_cases hadjust : table.adjust s = 0
  · have hentry : table.entryLabel s = s.label := by simp [entryLabel, hadjust]
    rw [hentry]
    refine ⟨ms, .direct s.label ms, rfl, ?_⟩
    have hsame : BitVec.ofNat 16 s.implOffset = BitVec.ofNat 16 table.pointerOffset := by
      rw [← table.add_adjust s, hadjust]
      exact BitVec.add_zero _
    rw [hsame, ← hobject, update_eq_self]
  · let thunk : AdjustThunk := ⟨table.adjust s, s.label, objectOffset t s.fnType⟩
    have hthunk : thunk ∈ ofTable t table := mem_filterMap.mpr ⟨s, hs, by simp [hadjust, himpl, thunk]⟩
    have hentry : table.entryLabel s = thunk.function.label := by
      simp [entryLabel, hadjust, himpl, thunk, function]
    obtain ⟨ms', _, hreach, hsp, hmem⟩ := thunk.reaches E ms
    rw [hentry]
    refine ⟨ms', .through hthunk hreach, hsp, ?_⟩
    have hpointer : ms.mem (ms.sp + .ofInt 16 thunk.objectAt) = object + .ofNat 16 table.pointerOffset := hobject
    rw [hmem, hpointer, BitVec.add_assoc, table.add_adjust s]
    rfl

/-- A subobject, seen from a struct that has the one that it is in as a base. -/
def Base.shift (b : Base) (offset : Nat) : Base := ⟨b.id, offset + b.offset⟩

namespace TypeTable

variable {t : TypeTable} {methods : List Method} {s : VirtualSlot} {id : StructId}

/-! ## Ways to a base -/

/-- The subobjects on a way from a struct down to one of its bases, the struct and the base among them,
with their offsets in the struct. -/
inductive Way (t : TypeTable) : StructId → List Base → Base → Prop where
  | here (id : StructId) : Way t id [⟨id, 0⟩] ⟨id, 0⟩
  | base {id : StructId} {b last : Base} {subs : List Base} (hb : b ∈ (t.structDef id).bases)
    (h : Way t b.id subs last) :
    Way t id (⟨id, 0⟩ :: subs.map (·.shift b.offset)) (last.shift b.offset)

/-- The first declaration of a function by the structs of some subobjects. -/
def declaration (t : TypeTable) (subs : List Base) (name : String) : Option (Base × Method) :=
  subs.findSome? fun sub ↦ ((t.structDef sub.id).methods.find? (·.name == name)).map (sub, ·)

def implemented (name : String) (sub : Base) (m : Method) : VirtualSlot :=
  if m.isPure then ⟨name, none, pureVirtual, sub.offset, m.fnType⟩
  else ⟨name, some m.decl, m.label, sub.offset, m.fnType⟩

def resolved (t : TypeTable) (subs : List Base) (offset : Nat) (s : VirtualSlot) : VirtualSlot :=
  match t.declaration subs s.name with
  | some (sub, m) => implemented s.name sub m
  | none => s.shift offset

lemma resolved_name (t : TypeTable) (subs : List Base) (offset : Nat) (s : VirtualSlot) :
    (t.resolved subs offset s).name = s.name := by
  unfold resolved
  split
  · unfold implemented
    split <;> rfl
  · rfl

lemma implemented_shift (name : String) (sub : Base) (m : Method) (offset : Nat) :
    (implemented name sub m).shift offset = implemented name (sub.shift offset) m := by
  unfold implemented
  split <;> rfl

lemma override_of_find (id : StructId)
    (h : methods.find? (·.name == s.name) = some m) : override methods s = implemented s.name ⟨id, 0⟩ m := by
  simp [override, h, implemented]

lemma override_of_none (h : methods.find? (·.name == s.name) = none) : override methods s = s := by
  simp [override, h]

lemma declaration_shift (t : TypeTable) (subs : List Base) (offset : Nat) (name : String) :
    t.declaration (subs.map (·.shift offset)) name =
      (t.declaration subs name).map fun (sub, m) ↦ (sub.shift offset, m) := by
  induction subs with
  | nil => rfl
  | cons sub subs ih =>
    unfold declaration at ih ⊢
    rw [map_cons, findSome?_cons, findSome?_cons]
    simp only [Base.shift] at ih ⊢
    cases (t.structDef sub.id).methods.find? (·.name == name) with
    | some m => rfl
    | none => exact ih

lemma override_resolved (t : TypeTable) (id : StructId) (b : Base) (subs : List Base) (offset : Nat)
    (s : VirtualSlot) : override (t.structDef id).methods ((t.resolved subs offset s).shift b.offset) =
      t.resolved (⟨id, 0⟩ :: subs.map (·.shift b.offset)) (b.offset + offset) s := by
  have hname : ((t.resolved subs offset s).shift b.offset).name = s.name := t.resolved_name subs offset s
  cases hm : (t.structDef id).methods.find? (·.name == s.name) with
  | some m =>
    have hdecl : t.declaration (⟨id, 0⟩ :: subs.map (·.shift b.offset)) s.name = some (⟨id, 0⟩, m) := by
      rw [declaration, findSome?_cons, hm]
      rfl
    rw [override_of_find id (by rw [hname, hm]), hname, resolved, hdecl]
  | none =>
    have hdecl : t.declaration (⟨id, 0⟩ :: subs.map (·.shift b.offset)) s.name =
        (t.declaration subs s.name).map fun (sub, m) ↦ (sub.shift b.offset, m) := by
      rw [← declaration_shift, declaration, findSome?_cons, hm]
      rfl
    rw [override_of_none (by rw [hname, hm]), resolved, resolved, hdecl]
    cases t.declaration subs s.name with
    | some found => exact implemented_shift s.name found.1 found.2 b.offset
    | none => simp [Option.map_none, VirtualSlot.shift, add_assoc]

lemma LaidOut.table_of_way (h : t.LaidOut) (hid : (t.structDef id).complete) (hway : t.Way id subs last)
    (htable : table ∈ (t.structDef last.id).tables) :
    ∃ table' ∈ (t.structDef id).tables, table'.pointerOffset = last.offset + table.pointerOffset ∧
      ∃ more, table'.slots = table.slots.map (t.resolved subs last.offset) ++ more := by
  induction hway with
  | here id =>
    refine ⟨table, htable, (zero_add _).symm, [], ?_⟩
    have hown : ∀ s ∈ table.slots, t.resolved [⟨id, 0⟩] 0 s = s := by
      intro s hs
      have hover := (h.formed hid).own table htable s hs
      cases hm : (t.structDef id).methods.find? (·.name == s.name) with
      | some m =>
        rw [override_of_find id hm] at hover
        simp [resolved, declaration, hm, Option.map_some, hover]
      | none =>
        simp [resolved, declaration, findSome?_nil, hm, Option.map_none, VirtualSlot.shift, zero_add]
    rw [append_nil]
    exact ((map_congr_left hown).trans (map_id' _)).symm
  | @base id b last subs hb _ ih =>
    have hformed := h.formed hid
    obtain ⟨table1, htable1, hpointer1, more1, hslots1⟩ := ih (hformed.bases b hb).1 htable
    obtain ⟨table', htable', hcontinues⟩ := hformed.continued b hb table1 htable1
    obtain ⟨more, hslots⟩ := hcontinues.slots
    refine ⟨table', htable', ?_, (more1.map (·.shift b.offset) ++ more).map (override (t.structDef id).methods), ?_⟩
    · rw [hcontinues.pointer, hpointer1]
      exact (add_assoc _ _ _).symm
    · simp only [hslots, hslots1, map_append, map_map, List.append_assoc]
      refine congr_arg (· ++ _) (map_congr_left fun s _ ↦ ?_)
      exact t.override_resolved id b subs last.offset s

lemma implemented_isPure (name : String) (sub : Base) (m : Method) : (implemented name sub m).isPure = m.isPure := by
  unfold implemented
  split <;> simp_all [VirtualSlot.isPure]

/-- A virtual call reaches the final override. In a struct the tables have pointers of their own, and the
table of a base at any depth is at its place there, with the functions of the base first. The entry of a
function runs the declaration of the most derived struct on the way to the base, with the object of that
struct, or traps if that declaration is pure. A function that no struct on the way declares is the one
of the base, for the same object. -/
theorem LaidOut.calls_declaration (h : t.LaidOut) {id : StructId} (hid : (t.structDef id).complete)
    {subs : List Base} {last : Base} (hway : t.Way id subs last) :
    ((t.structDef id).tables.map (·.pointerOffset)).Nodup ∧
    ∀ table ∈ (t.structDef last.id).tables, ∃ table' ∈ (t.structDef id).tables,
      table'.pointerOffset = last.offset + table.pointerOffset ∧
      table.slots.map (·.name) <+: table'.slots.map (·.name) ∧
      ∀ (i : Nat) (s : VirtualSlot), table.slots[i]? = some s → ∃ s', table'.slots[i]? = some s' ∧
        match t.declaration subs s.name with
        | some (sub, m) =>
          if m.isPure then table'.entryLabel s' = pureVirtual
          else ∀ object, table'.Calls t s' object m.label (object + .ofNat 16 sub.offset)
        | none =>
          s' = s.shift last.offset ∧ (s.isPure → table'.entryLabel s' = table.entryLabel s) ∧
          (s.isPure = false → ∀ object this, this = object + .ofNat 16 last.offset + .ofNat 16 s.implOffset →
            table.Calls t s (object + .ofNat 16 last.offset) s.label this ∧
              table'.Calls t s' object s.label this) := by
  refine ⟨(h.formed hid).apart, fun table htable ↦ ?_⟩
  obtain ⟨table', htable', hpointer, more, hslots⟩ := h.table_of_way hid hway htable
  refine ⟨table', htable', hpointer, ?_, fun i s hs ↦ ?_⟩
  · rw [hslots, List.map_append, List.map_map]
    have hnames : table.slots.map ((·.name) ∘ t.resolved subs last.offset) = table.slots.map (·.name) :=
      List.map_congr_left fun s _ ↦ t.resolved_name subs last.offset s
    rw [hnames]
    exact List.prefix_append _ _
  · have hs' : table'.slots[i]? = some (t.resolved subs last.offset s) := by
      have hi := (List.getElem?_eq_some_iff.mp hs).1
      rw [hslots, List.getElem?_append_left (by rwa [List.length_map]), List.getElem?_map, hs]
      rfl
    have hmem : s ∈ table.slots := List.mem_of_getElem? hs
    have hmem' := List.mem_of_getElem? hs'
    refine ⟨_, hs', ?_⟩
    cases hdecl : t.declaration subs s.name with
    | some found =>
      obtain ⟨sub, m⟩ := found
      have hresolved : t.resolved subs last.offset s = implemented s.name sub m := by
        simp only [resolved, hdecl]
      rw [hresolved] at hmem' ⊢
      have hpure := implemented_isPure s.name sub m
      cases hm : m.isPure with
      | true =>
        rw [hm] at hpure
        simp only
        rw [if_pos hm, table'.entryLabel_of_isPure hpure]
        simp only [implemented, hm, if_true]
      | false =>
        rw [hm] at hpure
        have hcalls := VirtualTable.calls_label t hmem' hpure
        simpa [implemented, hm] using hcalls
    | none =>
      have hresolved : t.resolved subs last.offset s = s.shift last.offset := by simp only [resolved, hdecl]
      rw [hresolved] at hmem' ⊢
      refine ⟨rfl, fun hpure ↦ ?_, fun hpure object this hthis ↦ ⟨?_, ?_⟩⟩
      · have hpure' : (s.shift last.offset).isPure := hpure
        rw [table'.entryLabel_of_isPure hpure', table.entryLabel_of_isPure hpure]
        rfl
      · rw [hthis]
        exact VirtualTable.calls_label t hmem hpure _
      · have hobject : this = object + .ofNat 16 (s.shift last.offset).implOffset := by
          rw [hthis, VirtualSlot.shift, BitVec.ofNat_add, BitVec.add_assoc]
        rw [hobject]
        exact VirtualTable.calls_label t hmem' hpure object

/-! ## An override behind the first base -/

namespace Example

def method (owner name : String) (decl : Nat) : Method :=
  { name, decl := ⟨decl⟩, label := owner ++ "__" ++ name, fnType := .void, isVirtual := true, isPure := false }

/-- Three structs without bodies. -/
def names : TypeTable :=
  let named (name : String) : StructDef := { name, isUnion := false, loc := .builtin }
  { TypeTable.initial with structs := #[named "A", named "B", named "C"] }

def layout (t : TypeTable) (id : StructId) (bases : List StructId) (methods : List Method) : TypeTable :=
  match t.layoutStruct id bases [] methods with
  | .ok t' => t'
  | .error _ => t

def first : TypeTable := layout names ⟨0⟩ [] [method "A" "f" 0]

def second : TypeTable := layout first ⟨1⟩ [] [method "B" "g" 1]

/-- A struct with two bases that overrides the function of the second. -/
def classes : TypeTable := layout second ⟨2⟩ [⟨0⟩, ⟨1⟩] [method "C" "g" 2]

lemma laidOut_layout {t : TypeTable} {bases : List StructId}
    (h : t.LaidOut) (hid : (t.structDef id).complete = false) (hbases : t.baseWords bases < 2 ^ 31) :
    (layout t id bases methods).LaidOut := by
  unfold layout
  split
  · exact .layout h hid ‹_› hbases fun _ hf ↦ by cases hf
  · exact h

lemma laidOut_classes : classes.LaidOut := by
  have hnames : names.LaidOut := .empty fun id ↦ by
    match id with
    | ⟨0⟩ | ⟨1⟩ | ⟨2⟩ => rfl
    | ⟨_ + 3⟩ => rfl
  have hfirst : first.LaidOut := laidOut_layout hnames rfl (by decide)
  have hsecond : second.LaidOut := laidOut_layout hfirst rfl (by decide)
  exact laidOut_layout hsecond rfl (by decide)

lemma way_classes : classes.Way ⟨2⟩ [⟨⟨2⟩, 0⟩, ⟨⟨1⟩, 1⟩] ⟨⟨1⟩, 1⟩ :=
  .base (b := ⟨⟨1⟩, 1⟩) (mem_of_getElem? (i := 1) rfl) (.here ⟨1⟩)

end Example

/-- The function of the second base is called with the object of the struct that overrides it. -/
theorem LaidOut.calls_declaration_second : Example.classes.LaidOut ∧
    (Example.classes.structDef ⟨2⟩).complete ∧
    Example.classes.Way ⟨2⟩ [⟨⟨2⟩, 0⟩, ⟨⟨1⟩, 1⟩] ⟨⟨1⟩, 1⟩ ∧
    ∃ table ∈ (Example.classes.structDef ⟨2⟩).tables, table.pointerOffset = 1 ∧
      ∃ s, table.slots[0]? = some s ∧ ∀ object, table.Calls Example.classes s object "C__g" object := by
  have hcomplete : (Example.classes.structDef ⟨2⟩).complete := rfl
  refine ⟨Example.laidOut_classes, hcomplete, Example.way_classes, ?_⟩
  obtain ⟨-, hcalls⟩ := LaidOut.calls_declaration Example.laidOut_classes hcomplete Example.way_classes
  obtain ⟨table, htable, hpointer, -, hslots⟩ := hcalls _ List.mem_cons_self
  obtain ⟨s, hs, hentry⟩ := hslots 0 _ rfl
  refine ⟨table, htable, hpointer, s, hs, fun object ↦ ?_⟩
  have hthis : table.Calls Example.classes s object "C__g" (object + .ofNat 16 0) := hentry object
  rwa [BitVec.add_zero] at hthis

end TypeTable

end W16Compiler
