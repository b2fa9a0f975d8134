import W16Compiler.Grammar.Typing
import W16Compiler.Proofs.Types.Lookup

/-!
# Calls that need no table

For an object whose own type is known, a virtual function is called directly. The call goes to the function
that is found as a member, with the object that declares it, and that is where a call through the tables of
the object comes to: the slot of the function is in the first table, and its entry is the function itself
or the thunk that moves the object pointer.
-/

namespace W16Compiler

open TypeTable List

/-! ## Calls of member functions -/

namespace Grammar

lemma run_bind {α β : Type} (x : TypingM α) (k : α → TypingM β) (symbols : Symbols) (t : TypeTable) :
    (x >>= k) symbols t = match x symbols t with
      | (.error e, t') => (.error e, t')
      | (.ok a, t') => k a symbols t' := by
  change (match x symbols t with | (r, t') => ExceptT.bindCont (fun a ↦ k a symbols) r t') = _
  rcases x symbols t with ⟨_ | _, _⟩ <;> rfl

lemma methodCall_virtual {t : TypeTable} {id owner : StructId} {name : String} {offset : Nat} {m : Method}
    {ref : SlotRef} (hmember : t.findMember id name = some (.method owner offset m)) (hvirtual : m.isVirtual)
    (hslot : t.findSlot id name = some ref) (symbols : Symbols) (this : Expr) (args : List Expr) (loc : Location)
    (isObject : Bool) :
    methodCall this id name isObject args loc symbols t = match checkArgs ref.entry.fnType args loc symbols t with
      | (.error e, t') => (.error e, t')
      | (.ok args', t') =>
        let info : ExprInfo := ⟨resultType t' ref.entry.fnType, loc⟩
        if isObject then
          if ref.entry.isPure then (.error (.semantic loc (.pureCall name)), t')
          else (.ok (.call info (.direct ref.entry.label)
            (adjustPointer this (wrap32 ref.entry.implOffset) loc :: args')), t')
        else (.ok (.call info (.virtualSlot (adjustPointer this (wrap32 ref.pointerOffset) loc) ref.slot) args'),
          t') := by
  have hget : ∀ k : TypeTable → TypingM Expr, (get >>= k : TypingM Expr) symbols t = k t symbols t := fun _ ↦ rfl
  unfold methodCall
  rw [hget, hmember]
  simp only [hvirtual, Bool.not_true, Bool.false_eq_true, if_false]
  change (get >>= _ : TypingM Expr) symbols t = _
  rw [hget, hslot]
  change (checkArgs _ _ _ >>= _ : TypingM Expr) symbols t = _
  rw [run_bind]
  rcases checkArgs ref.entry.fnType args loc symbols t with ⟨_ | _, _⟩
  · rfl
  · cases isObject with
    | false => rfl
    | true => cases ref.entry.isPure <;> rfl

end Grammar

namespace TypeTable

variable {t : TypeTable} {id owner : StructId} {name : String} {offset : Nat} {m : Method}

/-! ## Slots and objects in memory -/

lemma findSlot_of_firstEntry {s : VirtualSlot} (h : (t.structDef id).firstEntry name = some s) :
    ∃ table j, (t.structDef id).tables[0]? = some table ∧ table.slots[j]? = some s ∧
      t.findSlot id name = some ⟨0, table.pointerOffset, j, s⟩ := by
  obtain ⟨table, htable, _⟩ := Option.bind_eq_some_iff.mp h
  obtain ⟨_, hrest⟩ := head?_eq_some_iff.mp htable
  have hzip : (table.slots.zipIdx.map (·.1)).find? (·.name == name) = some s := by
    rwa [zipIdx_map_fst]
  rw [find?_map] at hzip
  obtain ⟨⟨s', j⟩, hfind, rfl⟩ := Option.map_eq_some_iff.mp hzip
  have hj : table.slots[j]? = some s' := mem_zipIdx_iff_getElem?.mp (mem_of_find?_eq_some hfind)
  refine ⟨table, j, by rw [hrest]; rfl, hj, ?_⟩
  have hfind' : (table.slots.zipIdx.find? fun x ↦ x.1.name == name) = some (s', j) := hfind
  simp [findSlot, hrest, zipIdx_cons, hfind', Option.map_some]

/-- An object of a struct in memory: the pointers in it are to its tables, and these are filled with the
addresses of their entries. -/
def InMemory (t : TypeTable) (id : StructId) (addressOf : String → Word) (mem : Word → Word) (object : Word) :
    Prop :=
  ∀ table ∈ (t.structDef id).tables, mem (object + .ofNat 16 table.pointerOffset) = addressOf table.label ∧
    ∀ j s, table.slots[j]? = some s → mem (addressOf table.label + .ofNat 16 j) = addressOf (table.entryLabel s)

lemma ofInt_wrap32_natCast (n : Nat) : BitVec.ofInt 16 (wrap32 n) = BitVec.ofNat 16 n := by
  rw [ofInt_wrap32, BitVec.ofInt_natCast]

open Grammar in
/-- A virtual function that is found as a member of a struct has a slot in the tables of the struct, with the
same implementation for the same object. So the direct call that is made for an object, and the call through
a slot that is made for a pointer to one, come to the same function with the same object: the second one
loads the pointer to the table and the entry, which moves the object pointer. A pure function is not called
for an object, and its entry is the trap. -/
theorem LaidOut.methodCall_agrees (h : t.LaidOut) (hid : (t.structDef id).complete)
    (hmember : t.findMember id name = some (.method owner offset m)) (hvirtual : m.isVirtual) :
    ∃ ref table, t.findSlot id name = some ref ∧ (t.structDef id).tables[ref.table]? = some table ∧
      table.pointerOffset = ref.pointerOffset ∧ table.slots[ref.slot]? = some ref.entry ∧
      ref.entry.isPure = m.isPure ∧ (m.isPure = false → ref.entry.label = m.label) ∧
      ref.entry.implOffset = offset ∧
      (∀ symbols this args loc, match checkArgs m.fnType args loc symbols t with
        | (.error e, t') => ∀ isObject, methodCall this id name isObject args loc symbols t = (.error e, t')
        | (.ok args', t') =>
          let info : ExprInfo := ⟨resultType t' m.fnType, loc⟩
          methodCall this id name false args loc symbols t = (.ok (.call info
            (.virtualSlot (adjustPointer this (wrap32 ref.pointerOffset) loc) ref.slot) args'), t') ∧
          methodCall this id name true args loc symbols t =
            if m.isPure then (.error (.semantic loc (.pureCall name)), t')
            else (.ok (.call info (.direct m.label) (adjustPointer this (wrap32 offset) loc :: args')), t')) ∧
      ∀ addressOf mem object, t.InMemory id addressOf mem object →
        mem (mem (object + .ofInt 16 (wrap32 ref.pointerOffset)) + .ofNat 16 ref.slot) =
          addressOf (table.entryLabel ref.entry) ∧
        if m.isPure then table.entryLabel ref.entry = pureVirtual
        else table.Calls t ref.entry object m.label (object + .ofInt 16 (wrap32 offset)) := by
  obtain ⟨table, j, htable, hj, hslot⟩ := findSlot_of_firstEntry (h.firstEntry_of_findMember hid hmember hvirtual)
  have hpure := implemented_isPure name ⟨owner, offset⟩ m
  have hoffset : (implemented name ⟨owner, offset⟩ m).implOffset = offset := by
    unfold implemented
    split <;> rfl
  have htype : (implemented name ⟨owner, offset⟩ m).fnType = m.fnType := by
    unfold implemented
    split <;> rfl
  have hlabel : m.isPure = false → (implemented name ⟨owner, offset⟩ m).label = m.label := by
    intro hm
    simp only [implemented, hm, Bool.false_eq_true, if_false]
  refine ⟨_, table, hslot, htable, rfl, hj, hpure, hlabel, hoffset, fun symbols this args loc ↦ ?_,
    fun addressOf mem object hmem ↦ ⟨?_, ?_⟩⟩
  · have hcall := methodCall_virtual hmember hvirtual hslot symbols this args loc
    simp only [htype, hpure, hoffset] at hcall
    generalize checkArgs m.fnType args loc symbols t = checked at hcall ⊢
    rcases checked with ⟨e | args', t'⟩
    · exact hcall
    · refine ⟨hcall false, (hcall true).trans ?_⟩
      cases hm : m.isPure with
      | true => rfl
      | false => simp only [if_true, Bool.false_eq_true, if_false, hlabel hm]
  · obtain ⟨hpointer, hentries⟩ := hmem table (List.mem_of_getElem? htable)
    rw [ofInt_wrap32_natCast, hpointer]
    exact hentries j _ hj
  · cases hm : m.isPure with
    | true =>
      rw [hm] at hpure
      rw [if_pos rfl, table.entryLabel_of_isPure hpure, implemented, if_pos hm]
    | false =>
      rw [hm] at hpure
      have hcalls := VirtualTable.calls_label t (List.mem_of_getElem? hj) hpure object
      rw [hlabel hm, hoffset] at hcalls
      rw [if_neg Bool.false_ne_true, ofInt_wrap32_natCast]
      exact hcalls

/-! ## A function of the second base with a table -/

namespace Example

/-- Four structs without bodies, and the type of a function without parameters. -/
def unlaid : TypeTable :=
  let named (name : String) : StructDef := { name, isUnion := false, loc := .builtin }
  { types := TypeTable.initial.types.push (.function .void [] false)
    structs := #[named "N", named "A", named "B", named "D"] }

def typed (owner name : String) (decl : Nat) : Method := { method owner name decl with fnType := ⟨11⟩ }

/-- A struct without virtual functions and two with one. -/
def bases : TypeTable :=
  layout (layout (layout unlaid ⟨0⟩ [] [{ typed "N" "h" 0 with isVirtual := false }]) ⟨1⟩ [] [typed "A" "f" 1])
    ⟨2⟩ [] [typed "B" "g" 2]

/-- A struct with all three as bases. -/
def joined : TypeTable := layout bases ⟨3⟩ [⟨0⟩, ⟨1⟩, ⟨2⟩] []

lemma laidOut_joined : joined.LaidOut := by
  have hunlaid : unlaid.LaidOut := .empty fun id ↦ by
    match id with
    | ⟨0⟩ | ⟨1⟩ | ⟨2⟩ | ⟨3⟩ => rfl
    | ⟨_ + 4⟩ => rfl
  have hbases : bases.LaidOut :=
    laidOut_layout (laidOut_layout (laidOut_layout hunlaid rfl (by decide)) rfl (by decide)) rfl (by decide)
  exact laidOut_layout hbases rfl (by decide)

end Example

open Example Grammar in
/-- The function stands behind the one of the first base with a table, and its object behind that base. -/
theorem LaidOut.methodCall_agrees_joined : joined.LaidOut ∧ (joined.structDef ⟨3⟩).complete ∧
    joined.findMember ⟨3⟩ "g" = some (.method ⟨2⟩ 1 (typed "B" "g" 2)) ∧ (typed "B" "g" 2).isVirtual ∧
    ∃ ref table, joined.findSlot ⟨3⟩ "g" = some ref ∧ (joined.structDef ⟨3⟩).tables[ref.table]? = some table ∧
      (∀ symbols this loc,
        methodCall this ⟨3⟩ "g" false [] loc symbols joined =
          (.ok (.call ⟨.void, loc⟩ (.virtualSlot this 1) []), joined) ∧
        methodCall this ⟨3⟩ "g" true [] loc symbols joined =
          (.ok (.call ⟨.void, loc⟩ (.direct "B__g") [adjustPointer this 1 loc]), joined)) ∧
      ∀ addressOf mem object, joined.InMemory ⟨3⟩ addressOf mem object →
        mem (mem object + 1) = addressOf (table.entryLabel ref.entry) ∧
        table.Calls joined ref.entry object "B__g" (object + 1) := by
  have hcomplete : (joined.structDef ⟨3⟩).complete := rfl
  have hmember : joined.findMember ⟨3⟩ "g" = some (.method ⟨2⟩ 1 (typed "B" "g" 2)) := rfl
  have hvirtual : (typed "B" "g" 2).isVirtual := rfl
  obtain ⟨ref, table, hslot, htable, -, -, -, -, -, hcalls, hmemory⟩ :=
    LaidOut.methodCall_agrees laidOut_joined hcomplete hmember hvirtual
  have href : joined.findSlot ⟨3⟩ "g" = some ⟨0, 0, 1, implemented "g" ⟨⟨2⟩, 1⟩ (typed "B" "g" 2)⟩ := rfl
  have hargs : ∀ symbols loc, checkArgs ⟨11⟩ [] loc symbols joined = (.ok [], joined) := fun _ _ ↦ rfl
  obtain rfl := Option.some.inj (hslot.symm.trans href)
  refine ⟨laidOut_joined, hcomplete, hmember, hvirtual, _, table, hslot, htable, fun symbols this loc ↦ ?_,
    fun addressOf mem object hmem ↦ ?_⟩
  · have hcall := hcalls symbols this [] loc
    rw [show (typed "B" "g" 2).fnType = ⟨11⟩ from rfl, hargs] at hcall
    exact hcall
  · have hentry := hmemory addressOf mem object hmem
    rw [show wrap32 ((0 : Nat) : Int) = 0 from rfl, BitVec.ofInt_ofNat, BitVec.add_zero] at hentry
    exact hentry

end TypeTable

end W16Compiler
