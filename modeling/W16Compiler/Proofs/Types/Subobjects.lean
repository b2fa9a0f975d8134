import W16Compiler.Proofs.Types.Canonical
import W16Compiler.Types.Conversion

/-!
# Members and the subobjects that declare them

A member is found in the first subobject that declares the name, bases searched in order and in depth. That is
also the first subobject of its struct, the one to which a pointer is converted. So a member can be selected
after the conversion as well, and a field lies inside of the object.
-/

namespace W16Compiler

open List Option

/-- By how many words a conversion moves a pointer that is not null. -/
def Conversion.moves : Conversion → Option Int
  | .identity | .reinterpret => some 0
  | .adjust offset => some offset
  | _ => none

namespace TypeTable

variable {t t' : TypeTable} {id owner : StructId} {name : String} {m own : Member} {offset : Nat} {ty : TypeId}

def ownMember (t : TypeTable) (id : StructId) (name : String) : Option Member :=
  (((t.structDef id).fields.find? (·.name == name)).map fun f ↦ .field f.type f.offset).or
    (((t.structDef id).methods.find? (·.name == name)).map (.method id 0))

/-- The member of a subobject, seen from the whole. -/
def Member.inside (offset : Nat) : Member → Member
  | .field type k => .field type (offset + k)
  | .method owner k m => .method owner (offset + k) m

/-- A pointer to one struct is converted to a pointer to the other by a move of so many words, if no qualifier is lost. -/
def Converts (t : TypeTable) (id owner : StructId) (offset : Nat) : Prop :=
  ∀ source target p q hint, t.kind source = .pointer p → t.kind target = .pointer q → t.asStruct p = some id →
    t.asStruct q = some owner → (t.isConst p → t.isConst q) → (t.isVolatile p → t.isVolatile q) →
    (t.assignConversion source target hint).moves = some (offset : Int)

/-- Tables that come up when each struct gets one body at most. Neither the bases of a struct together nor any of
its fields nor the whole have two to the power of thirty-one words. -/
inductive Once : TypeTable → Prop where
  | initial : Once initial
  | enters {t t' : TypeTable} (h : Once t) (hstep : t.Enters t') : Once t'
  | layout {t t' : TypeTable} {id : StructId} {bases : List StructId} {fields : List Field} {methods : List Method}
    (h : Once t) (hid : (t.structDef id).complete = false)
    (hlayout : t.layoutStruct id bases fields methods = .ok t') (hbases : t.baseWords bases < 2 ^ 31)
    (hfields : ∀ f ∈ fields, ∀ n, t.sizeOf f.type = some n → n < 2 ^ 31) (hsize : (t'.structDef id).size < 2 ^ 31) :
    Once t'

/-! ## Bodies -/

lemma structDef_intern (t : TypeTable) (x : Ty) (q : StructId) : (t.intern x).2.structDef q = t.structDef q := by
  rw [intern]
  split <;> rfl

lemma Enters.structDef_eq (h : t.Enters t') (q : StructId) : t'.structDef q = t.structDef q ∨
    (t.structDef q).complete = false ∧ (t'.structDef q).complete = false := by
  cases h with
  | newStruct name isUnion loc =>
    have hintern := structDef_intern { t with structs := t.structs.push { name, isUnion, loc } } (.struct ⟨t.structs.size⟩) q
    rcases t.structDef_push { name, isUnion, loc } q with hq | ⟨hold, hq⟩
    · exact .inl (hintern.trans hq)
    · exact .inr ⟨hold, congrArg _ (hintern.trans hq)⟩
  | qualified =>
    rw [TypeTable.qualified]
    split
    · exact .inl rfl
    · split <;> exact .inl (structDef_intern _ _ q)
  | _ => exact .inl (structDef_intern _ _ q)

/-- The fields of a struct are inside of it, and its words can be counted. -/
structure Bounded (t : TypeTable) (d : StructDef) : Prop where
  size : d.size < 2 ^ 31
  fields : ∀ f ∈ d.fields, ∃ n, t.sizeOf f.type = some n ∧ f.offset + n ≤ d.size

lemma Bounded.keep {d : StructDef} (h : t.Bounded d) (hkeeps : t.Keeps t') : t'.Bounded d := by
  refine ⟨h.size, fun f hf ↦ ?_⟩
  obtain ⟨n, hn, hle⟩ := h.fields f hf
  exact ⟨n, hkeeps.sizeOf hn, hle⟩

namespace Once

lemma canonical (h : t.Once) : t.Canonical := by
  induction h with
  | initial => exact .initial
  | enters _ hstep ih => exact ih.enters hstep
  | layout _ _ hlayout _ _ _ ih => exact ih.layout hlayout

lemma laidOut (h : t.Once) : t.LaidOut := by
  induction h with
  | initial => exact .empty fun _ ↦ rfl
  | enters _ hstep ih =>
    refine .other ih fun q ↦ ?_
    rcases hstep.structDef_eq q with hq | ⟨hold, hnew⟩
    · exact hq ▸ .refl _
    · constructor <;> simp [hold, hnew]
  | layout _ hid hlayout hbases hfields _ ih => exact .layout ih hid hlayout hbases hfields

lemma bounded (h : t.Once) (hid : (t.structDef id).complete) : t.Bounded (t.structDef id) := by
  induction h generalizing id with
  | initial => cases hid
  | @enters t t' _ hstep ih =>
    have hkeeps : t.Keeps t' := by
      refine ⟨(Changes.enters hstep).extends, fun q hq ↦ ?_⟩
      rw [(hstep.structDef_eq q).resolve_right fun hnot ↦ by simp [hq] at hnot]
      exact ⟨hq, rfl⟩
    rcases hstep.structDef_eq id with hsame | ⟨-, hnot⟩
    · rw [hsame] at hid ⊢
      exact (ih hid).keep hkeeps
    · rw [hnot] at hid
      cases hid
  | @layout t t' new _ _ _ _ hnew hlayout hbases hfields hlt ih =>
    obtain ⟨_, words, _, offset, _, _, hplaced, hpointer, hsize, rfl⟩ := layoutStruct_eq_ok hlayout
    obtain ⟨-, hwords⟩ := placed_of_placeBases hplaced (by omega)
    have hoffset := le_of_placePointer hpointer (by omega)
    obtain ⟨-, hinside⟩ := placeFields_within hsize (by omega) hfields
    have hkeeps : ∀ f, t.Keeps (t.modifyStruct new f) := fun f ↦ ⟨.refl t, fun q hq ↦ by
      rw [structDef_modifyStruct_of_complete hnew hq f]
      exact ⟨hq, rfl⟩⟩
    rcases structDef_modifyStruct t new _ id with hsame | ⟨rfl, hbody⟩
    · rw [hsame] at hid ⊢
      exact (ih hid).keep (hkeeps _)
    · rw [hbody]
      exact Bounded.keep ⟨hbody ▸ hlt, hinside⟩ (hkeeps _)

end Once

/-! ## The two searches -/

lemma baseOffset_self (t : TypeTable) (id : StructId) : t.baseOffset id id = some 0 := by
  rw [baseOffset, baseOffsetWithin, if_pos rfl]

lemma Grounded.findMember_own (h : t.Grounded) (hid : (t.structDef id).complete) (name : String) :
    t.findMember id name = (t.ownMember id name).or
      ((t.structDef id).bases.findSome? fun b ↦ (t.findMember b.id name).map (·.shift b.offset)) := by
  rw [h.findMember_eq hid, ownMember]
  cases (t.structDef id).fields.find? (·.name == name) <;>
    cases (t.structDef id).methods.find? (·.name == name) <;> rfl

lemma Grounded.findMember_isSome (h : t.Grounded) (hid : (t.structDef id).complete)
    (hown : (t.ownMember owner name).isSome) (hbase : (t.baseOffset id owner).isSome) : (t.findMember id name).isSome := by
  refine h.induction (P := fun id ↦ (t.baseOffset id owner).isSome → (t.findMember id name).isSome)
    (fun id hid ih hbase ↦ ?_) hid hbase
  rw [h.findMember_own hid, isSome_or, Bool.or_eq_true]
  rw [h.baseOffset_eq hid] at hbase
  split at hbase
  · rename_i heq
    exact .inl (heq ▸ hown)
  · obtain ⟨b, hb, hsome⟩ := findSome?_isSome_iff.mp hbase
    rw [isSome_map] at hsome
    exact .inr (findSome?_isSome_iff.mpr ⟨b, hb, by rw [isSome_map]; exact ih b hb hsome⟩)

lemma Once.ownMember_cases (h : t.Once) (hown : t.ownMember owner name = some own) (howner : (t.structDef owner).complete) :
    (∃ m, own = .method owner 0 m) ∨ ∃ f ∈ (t.structDef owner).fields, f.name = name ∧ own = .field f.type f.offset ∧
      ∃ n, t.sizeOf f.type = some n ∧ f.offset + n ≤ (t.structDef owner).size := by
  rw [ownMember, or_eq_some_iff] at hown
  rcases hown with hf | ⟨-, hm⟩
  · obtain ⟨f, hfind, rfl⟩ := map_eq_some_iff.mp hf
    have hmem := mem_of_find?_eq_some hfind
    exact .inr ⟨f, hmem, by simpa using find?_some hfind, rfl, (h.bounded howner).fields f hmem⟩
  · obtain ⟨m, -, rfl⟩ := map_eq_some_iff.mp hm
    exact .inl ⟨m, rfl⟩

lemma Once.findMember_subobject (h : t.Once) (hid : (t.structDef id).complete) (hmember : t.findMember id name = some m) :
    ∃ owner offset own, (t.structDef owner).complete ∧ t.ownMember owner name = some own ∧ m = own.inside offset ∧
      t.baseOffset id owner = some offset ∧ offset + (t.structDef owner).size ≤ (t.structDef id).size := by
  have hgrounded := h.canonical.grounded
  refine hgrounded.induction (P := fun id ↦ ∀ m, t.findMember id name = some m → ∃ owner offset own,
    (t.structDef owner).complete ∧ t.ownMember owner name = some own ∧ m = own.inside offset ∧
      t.baseOffset id owner = some offset ∧ offset + (t.structDef owner).size ≤ (t.structDef id).size)
    (fun id hid ih m hmember ↦ ?_) hid m hmember
  rw [hgrounded.findMember_own hid] at hmember
  cases hown : t.ownMember id name with
  | some own =>
    rw [hown, some_or] at hmember
    cases hmember
    refine ⟨id, 0, m, hid, hown, ?_, t.baseOffset_self id, by omega⟩
    cases m <;> simp [Member.inside]
  | none =>
    -- The bases before have no subobject of the struct, which would declare the name.
    rw [hown, none_or] at hmember
    obtain ⟨before, b, after, hbases, hb, hbefore⟩ := findSome?_eq_some_iff.mp hmember
    obtain ⟨found, hfound, rfl⟩ := map_eq_some_iff.mp hb
    have hin : ∀ c ∈ before ++ b :: after, (t.structDef c.id).complete ∧ c.offset + (t.structDef c.id).size ≤ (t.structDef id).size :=
      hbases ▸ (h.laidOut.formed hid).bases
    obtain ⟨owner, k, own, howner, hdeclared, rfl, hoffset, hsize⟩ := ih b (by simp [hbases]) found hfound
    have hle := (hin b (by simp)).2
    have hbound := (h.bounded hid).size
    have hsome : (t.ownMember owner name).isSome := by simp [hdeclared]
    have hnone : (before.findSome? fun c ↦ (t.baseOffset c.id owner).map (addWords · c.offset)) = none := by
      refine findSome?_eq_none_iff.mpr fun c hc ↦ ?_
      rw [map_eq_none_iff, ← not_isSome_iff_eq_none]
      intro hbase
      have hmem := hgrounded.findMember_isSome (hin c (by simp [hc])).1 hsome hbase
      rw [map_eq_none_iff.mp (hbefore c hc)] at hmem
      cases hmem
    have hne : id ≠ owner := by
      rintro rfl
      cases hown.symm.trans hdeclared
    refine ⟨owner, k + b.offset, own, howner, hdeclared, ?_, ?_, by omega⟩
    · rcases h.ownMember_cases hdeclared howner with ⟨m, rfl⟩ | ⟨f, -, -, rfl, n, -, hn⟩
      · simp only [Member.inside, Member.shift, Nat.add_zero, addWords_eq (show k + b.offset < 2 ^ 32 by omega)]
      · simp only [Member.inside, Member.shift, addWords_eq (show k + f.offset + b.offset < 2 ^ 32 by omega)]
        congr 1
        omega
    · rw [hgrounded.baseOffset_eq hid, if_neg hne, hbases, findSome?_append, hnone, none_or, findSome?_cons, hoffset,
        map_some, addWords_eq (by omega)]

/-! ## Conversions -/

lemma converts (hoffset : t.baseOffset id owner = some offset) (hlt : offset < 2 ^ 31) : t.Converts id owner offset := by
  intro source target p q hint hsource htarget hp hq hconst hvolatile
  have hstruct : ∀ {r s}, t.asStruct r = some s → t.kind r = .struct s := by
    intro r s hr
    unfold asStruct at hr
    split at hr
    · rename_i hkind
      cases hr
      exact hkind
    · cases hr
  have hp' := hstruct hp
  have hq' := hstruct hq
  have hzero : id = owner → offset = 0 := by
    rintro rfl
    rw [baseOffset_self] at hoffset
    exact (some.inj hoffset).symm
  have hsource' : t.get (t.unqualified source) = .pointer p := hsource
  have htarget' : t.get (t.unqualified target) = .pointer q := htarget
  have hbare : ∀ {r s}, t.kind r = .struct s → t.kind (t.unqualified r) = .struct s := fun hr ↦
    (kind_unqualified (by simp [hr])).trans hr
  unfold assignConversion
  simp only [hsource', htarget']
  split
  · rename_i hsame
    rw [hsame, htarget'] at hsource'
    cases hsource'
    rw [hzero (some.inj (hp.symm.trans hq))]
    rfl
  unfold pointerConversion
  have hkept : ((t.isConst p && !t.isConst q) || (t.isVolatile p && !t.isVolatile q)) = false := by
    cases hc : t.isConst p <;> cases hv : t.isVolatile p <;> simp_all
  have hvoid : ((t.isVoid (t.unqualified p) || t.isVoid (t.unqualified q)) &&
      !(t.isFunction (t.unqualified p) || t.isFunction (t.unqualified q))) = false := by
    simp [isVoid, hbare hp', hbare hq']
  have hfind : (do t.baseOffset (← t.asStruct (t.unqualified p)) (← t.asStruct (t.unqualified q))) = some offset := by
    simp [asStruct, hbare hp', hbare hq', hoffset]
  simp only [hkept, hvoid, hfind, Bool.false_eq_true, if_false]
  split
  · rename_i hsame
    rw [kind, hsame, ← kind, hq'] at hp'
    cases hp'
    rw [hzero rfl]
    rfl
  · cases offset with
    | zero => rfl
    | succ n =>
      refine congrArg some (Int.bmod_eq_of_le ?_ ?_) <;> simp [twoTo] <;> omega

/-- A member is found in the first subobject of the struct that declares it. A field is inside of the whole, at its place
in the subobject. To select the member of the subobject, to which a pointer is converted by a move to where it stands,
is to select the same member at the same place. -/
theorem Once.findMember_agrees (h : t.Once) (hmember : t.findMember id name = some m) :
    ∃ owner offset own, t.baseOffset id owner = some offset ∧ t.findMember owner name = some own ∧
      m = own.inside offset ∧ t.Converts id owner offset ∧
      match m with
      | .method o k _ => o = owner ∧ k = offset
      | .field type k => ∃ f ∈ (t.structDef owner).fields, f.name = name ∧ f.type = type ∧ k = offset + f.offset ∧
        ∃ n, t.sizeOf type = some n ∧ k + n ≤ (t.structDef id).size := by
  have hid : (t.structDef id).complete := by
    by_contra hid
    rw [← h.canonical.findMember_settled (Nat.lt_succ_self _)] at hmember
    obtain ⟨hbases, hfields, hmethods⟩ := h.canonical.bare id (by simpa using hid)
    simp [findMemberWithin, hbases, hfields, hmethods] at hmember
  obtain ⟨owner, offset, own, howner, hdeclared, rfl, hoffset, hsize⟩ := h.findMember_subobject hid hmember
  have hbound := (h.bounded hid).size
  have hfound : t.findMember owner name = some own := by
    rw [h.canonical.grounded.findMember_own howner, hdeclared, some_or]
  refine ⟨owner, offset, own, hoffset, hfound, rfl, converts hoffset ?_, ?_⟩
  · omega
  · rcases h.ownMember_cases hdeclared howner with ⟨m, rfl⟩ | ⟨f, hf, hname, rfl, n, hn, hle⟩
    · exact ⟨rfl, rfl⟩
    · exact ⟨f, hf, hname, rfl, rfl, n, hn, by omega⟩

namespace Example

lemma once_layout {bases : List StructId} {methods : List Method} (h : t.Once) (hid : (t.structDef id).complete = false)
    (hbases : t.baseWords bases < 2 ^ 31)
    (hsize : (((t.layoutStruct id bases [] methods).toOption.getD t).structDef id).size < 2 ^ 31) :
    ((t.layoutStruct id bases [] methods).toOption.getD t).Once := by
  cases hlayout : t.layoutStruct id bases [] methods with
  | error => exact h
  | ok t' =>
    rw [hlayout] at hsize
    exact .layout h hid hlayout hbases (fun _ hf ↦ by cases hf) hsize

def named : TypeTable :=
  ((initial.newStruct "A" false .builtin).2.2.newStruct "B" false .builtin).2.2

def single : TypeTable :=
  (named.layoutStruct ⟨0⟩ [] [] [⟨"f", ⟨0⟩, "A__f", .void, true, false⟩]).toOption.getD named

def twice : TypeTable := (single.layoutStruct ⟨1⟩ [⟨0⟩, ⟨0⟩] [] []).toOption.getD single

/-- The function is that of the first of the two objects. -/
theorem findMember_agrees_twice : twice.Once ∧
    twice.findMember ⟨1⟩ "f" = some (.method ⟨0⟩ 0 ⟨"f", ⟨0⟩, "A__f", .void, true, false⟩) ∧
    twice.Converts ⟨1⟩ ⟨0⟩ 0 := by
  have hfacts : (named.structDef ⟨0⟩).complete = false ∧ (single.structDef ⟨0⟩).size < 2 ^ 31 ∧
      (single.structDef ⟨1⟩).complete = false ∧ single.baseWords [⟨0⟩, ⟨0⟩] < 2 ^ 31 ∧
      (twice.structDef ⟨1⟩).size < 2 ^ 31 := by decide +kernel
  obtain ⟨hfirst, hsize, hsecond, hbases, hwhole⟩ := hfacts
  have honce : twice.Once :=
    once_layout (once_layout (.enters (.enters .initial (.newStruct ..)) (.newStruct ..)) hfirst (by decide) hsize)
      hsecond hbases hwhole
  have hmember : twice.findMember ⟨1⟩ "f" = some (.method ⟨0⟩ 0 ⟨"f", ⟨0⟩, "A__f", .void, true, false⟩) := by
    with_unfolding_all rfl
  obtain ⟨_, _, _, -, -, -, hconverts, rfl, rfl⟩ := honce.findMember_agrees hmember
  exact ⟨honce, hmember, hconverts⟩

end Example

end TypeTable

end W16Compiler
