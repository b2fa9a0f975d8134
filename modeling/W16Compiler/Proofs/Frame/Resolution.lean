import W16Compiler.Proofs.Frame.Levels

/-!
# Layout of selected code

The code that is selected for a function is orderly, so its layout resolves every displacement for the
depth that the stack has there. Together with the levels of the stack this says where all accesses to
the frame, the incoming arguments and the outgoing ones go, on every path.
-/

namespace W16Compiler.Frame

open Select List Option Instr MachineState

/-! ## Orderly code -/

lemma orderly_append {code rest : List Instr} (hcode : code.all fun i ↦ staysInFrame i && tracksStack i)
    (h : Orderly rest) : Orderly (code ++ rest) := by
  induction code with
  | nil => exact h
  | cons i code ih =>
    rw [all_cons, Bool.and_eq_true, Bool.and_eq_true] at hcode
    exact ⟨hcode.1.1, .inl hcode.1.2, ih hcode.2⟩

lemma orderly_inner {args : Int → Prop} {code : Instrs} {rest : List Instr} (hcode : Inner args code)
    (h : Orderly rest) : Orderly (code ++ rest) := by
  refine orderly_append (all_eq_true.mpr fun i hi ↦ ?_) h
  have hinner := (hcode i hi).1
  cases i with
  | load rd base d | addImm rd base d | store rs base d =>
    simp only [isInner, Bool.and_eq_true, bne_iff_ne] at hinner
    cases d <;> simp_all [staysInFrame, tracksStack, leavesScratch, access, Disp.isSymbolic, Disp.isFrom]
  | _ => simp_all [isInner, staysInFrame, tracksStack, leavesScratch, access]

lemma orderly_selectPrim {code : Instrs} {rest : List Instr}
    (h : selectPrim p slots = .ok (code, slots')) (hrest : Orderly rest) : Orderly (code ++ rest) := by
  cases selectPrim_shape h p.touches_all with
  | entry | label | cleanupEntry | jump | tryBegin | tryEnd | cleanupCall | cleanupReturn =>
    exact orderly_append rfl hrest
  | callStart n => split <;> exact orderly_append rfl hrest
  | compare hpre | test hpre =>
    rw [append_assoc]
    exact orderly_inner hpre (orderly_append rfl hrest)
  | call hpre hstore =>
    rw [append_assoc, append_assoc]
    refine orderly_inner hpre ?_
    split <;> exact orderly_append rfl (orderly_inner hstore hrest)
  | pure _ hcode => exact orderly_inner hcode hrest
  | ret hload =>
    rw [append_assoc]
    exact orderly_inner hload (orderly_append rfl hrest)
  | throwValue hpre =>
    rw [append_assoc]
    refine orderly_inner hpre ⟨rfl, .inr (.load _), orderly_append rfl hrest⟩
  | catchEntry hstore => exact ⟨rfl, .inl rfl, orderly_inner hstore hrest⟩

variable {tags : List (Prim × Instr)} {d : Int} {flow : Flow} {code : Code} {base : Reg}

lemma orderly_of_tagged (h : Tagged flow tags) : Orderly (tags.map (·.2)) := by
  induction h with
  | nil => trivial
  | cons h _ ih =>
    rw [List.map_append, List.map_map]
    simpa [Function.comp_def] using orderly_selectPrim h ih

/-! ## Pieces -/

lemma exists_laid {offsets : List (Option Nat)} {frame : Nat} {items : List (Item Instr × Option Int)}
    (h : resolveAll offsets frame items = (none, code)) (htags : tags.map (·.2) = items.map (·.1.value)) :
    ∃ laid : List Laid, laid.map Laid.tag = tags ∧ laid.flatMap (·.code) = (expandAll code).map (·.value) ∧
      ∀ (k : Nat) (i : Laid), laid[k]? = some i → ∃ item d j, items[k]? = some (item, d) ∧
        resolveInstr offsets frame (d.getD 0) i.instr = .ok j ∧ i.code = expand j := by
  induction items generalizing code tags with
  | nil =>
    cases h
    rw [map_nil, map_eq_nil_iff] at htags
    subst htags
    exact ⟨[], rfl, rfl, fun k i hi ↦ by simp at hi⟩
  | cons entry items ih =>
    obtain ⟨item, d⟩ := entry
    cases tags with
    | nil => cases htags
    | cons tag tags =>
      obtain ⟨p, i⟩ := tag
      rw [map_cons, map_cons, cons.injEq] at htags
      obtain ⟨hi, htags⟩ := htags
      rw [resolveAll] at h
      split at h
      · rename_i j hj
        obtain ⟨hfault, hcode⟩ := Prod.mk.inj h
        obtain ⟨laid, hmap, hflat, hpieces⟩ := ih (Prod.ext hfault rfl) htags
        refine ⟨⟨p, i, expand j⟩ :: laid, by rw [map_cons, hmap]; rfl, ?_, ?_⟩
        · rw [flatMap_cons, hflat, ← hcode]
          simp [expandAll, Function.comp_def]
        · intro k piece hk
          cases k with
          | zero =>
            cases hk
            exact ⟨item, d, j, rfl, by rw [show i = item.value from hi]; exact hj, rfl⟩
          | succ k => exact hpieces k piece hk
      · cases h

variable {offsets : List (Option Nat)} {frame : Nat} {ds : Array (Option Int)} {whole rest : List Laid} {i : Laid}

section

variable {found : List Laid} {l : Label}

lemma resolveInstr_of_label {i : Instr} (h : resolveInstr offsets frame d i = .ok j)
    (hi : i.definedLabel ≠ none) : j = i := by
  cases i with
  | label =>
    cases h
    rfl
  | _ => exact (hi rfl).elim

lemma unlabelled_expand {i j : Instr} (h : resolveInstr offsets frame d i = .ok j)
    (hi : i.definedLabel = none) : Unlabelled (expand j) := by
  have hj : j.definedLabel = none := by
    cases i with
    | addImm | load | store =>
      obtain ⟨_, -, hd'⟩ := bind_eq_ok.mp h
      cases hd'
      rfl
    | _ =>
      cases h
      exact hi
  cases j with
  | addImm rd base d | load rd base d | store rs base d =>
    cases d with
    | num v => rw [expand]; split <;> first | simp [definedLabel] | (split <;> simp [definedLabel])
    | _ => simp [expand, definedLabel]
  | _ => simp [expand, hj]

lemma seekLabel_append_none {α : Type} {defines : α → Option Label} {front back : List α}
    (h : ∀ a ∈ front, defines a ≠ some l) : seekLabel defines l (front ++ back) = seekLabel defines l back := by
  induction front with
  | nil => rfl
  | cons a front ih =>
    rw [cons_append, seekLabel_cons, ih fun b hb ↦ h b (mem_cons_of_mem a hb), if_neg (h a mem_cons_self), or_none]

lemma seekLabel_pieces
    (h : ∀ i ∈ whole, ∃ d j, resolveInstr offsets frame d i.instr = .ok j ∧ i.code = expand j) (l : Label) :
    seekLabel definedLabel l (whole.flatMap (·.code)) =
      (seekLabel (·.instr.definedLabel) l whole).map (flatMap (·.code)) := by
  induction whole with
  | nil => rfl
  | cons i whole ih =>
    have hrest := ih fun j hj ↦ h j (mem_cons_of_mem i hj)
    obtain ⟨d, j, hj, hexpand⟩ := h i mem_cons_self
    rw [flatMap_cons, seekLabel_cons]
    cases hlabel : i.instr.definedLabel with
    | none =>
      have hfree : ∀ a ∈ i.code, a.definedLabel ≠ some l := by
        intro a ha
        rw [hexpand] at ha
        simp [unlabelled_expand hj hlabel a ha]
      rw [seekLabel_append_none hfree, hrest, if_neg (by simp), or_none]
    | some l' =>
      have hsingle : i.code = [i.instr] := by
        rw [hexpand, resolveInstr_of_label hj (by simp [hlabel])]
        cases hinstr : i.instr <;> simp_all [definedLabel, expand]
      rw [hsingle, singleton_append, seekLabel_cons, hlabel, hrest]
      cases seekLabel (·.instr.definedLabel) l whole with
      | some found => rfl
      | none =>
        rw [map_none, none_or, none_or]
        split
        · rw [map_some, flatMap_cons, hsingle, singleton_append]
        · rfl

lemma Visits.reaches {E : Surroundings} {start : MachineState} {v : Visit} (h : Visits E whole start rest v)
    (hpieces : ∀ i ∈ whole, ∃ d j, resolveInstr offsets frame d i.instr = .ok j ∧ i.code = expand j)
    (hcode : whole.flatMap (·.code) = code.map (·.value)) :
    ∃ behind : Code, rest.flatMap (·.code) = behind.map (·.value) ∧
      (code.process E fun _ ↦ true).Reaches ⟨.running (code, start), []⟩ ⟨.running (behind, v.state), v.past⟩ := by
  induction h with
  | entry => exact ⟨code, hcode, 0, rfl⟩
  | next _ hrun ih =>
    obtain ⟨_, hbehind, hreach⟩ := ih
    rw [flatMap_cons] at hbehind
    obtain ⟨front, back, rfl, hfront, hback⟩ := map_eq_append_iff.mp hbehind.symm
    rw [← hfront] at hrun
    exact ⟨back, hback.symm, hreach.trans (Code.process_reaches_perform code front back hrun)⟩
  | @goto _ _ _ _ _ l ms _ hrun _ hfound ih =>
    obtain ⟨_, hbehind, hreach⟩ := ih
    rw [flatMap_cons] at hbehind
    obtain ⟨front, back, rfl, hfront, -⟩ := map_eq_append_iff.mp hbehind.symm
    rw [← hfront] at hrun
    have hseek := seekLabel_pieces hpieces l
    have hmap : seekLabel definedLabel l (code.map (·.value)) =
      (code.seek l).map (map (·.value)) := seekLabel_map (·.value) code
    rw [hfound, hcode, hmap, map_some] at hseek
    obtain ⟨target, htarget, hvalues⟩ := map_eq_some_iff.mp hseek
    have hfollow : code.follow back (.goto l ms) = .running (target, ms) := by
      rw [Code.follow, htarget]
    exact ⟨target, hvalues.symm, hfollow ▸ hreach.trans (Code.process_reaches_perform code front back hrun)⟩

end

/-! ## Layout -/

/-- What holds where a path gets to a piece: its accesses go where the symbolic displacements of its
instruction say, to words of the frame, of the incoming arguments and of those reserved for a call. -/
structure Resolved (E : Surroundings) (offset : SlotId → Option Nat) (frame : Nat) (top : Word) (i : Laid)
    (v : Visit) : Prop where
  /-- The piece does what the instruction means, and changes no other register than `r6`. -/
  effect : SameEffect (perform E v.past v.state i.code)
    (perform (framed E offset frame top) v.past v.state [i.instr])
  slot : ∀ base s o, i.instr.access = some (base, .slot s o) → ∃ w, offset s = some w ∧
    v.state.address (framed E offset frame top) base (.slot s o) =
      top - .ofNat 16 frame + .ofNat 16 w + .ofInt 16 o
  param : ∀ base o, i.instr.access = some (base, .param o) →
    v.state.address (framed E offset frame top) base (.param o) = top + 1 + .ofInt 16 o
  argument : ∀ base k, i.instr.access = some (base, .num k) → base = .sp → i.instr.result ≠ some .sp →
    ∃ rep w src j start n, i.node = .assign rep (.arg w) src ∧ j < rep.words ∧ v.area = some (start, n) ∧
      w + j < n ∧ v.state.address (framed E offset frame top) base (.num k) = start + .ofNat 16 (w + j)
  ret : ∀ wide, i.instr = .ret wide → v.state.sp = top

lemma argWord_of_access {i : Instr} (h : i.access = some (.sp, .num k)) : i.argWord = some k := by
  cases i with
  | addImm | load | store =>
    cases h
    rfl
  | _ => cases h

lemma placed_of_resolveInstr {offsets : List (Option Nat)} {frame : Nat} {i j : Instr}
    (h : resolveInstr offsets frame d i = .ok j) (hi : i.access = some (base, .slot s o)) :
    ∃ w, offsetIn offsets s = some w := by
  have hresolve : ∃ d', resolveDisp offsets frame d (.slot s o) = .ok d' := by
    cases i with
    | addImm | load | store =>
      cases hi
      obtain ⟨d', hd', -⟩ := bind_eq_ok.mp h
      exact ⟨d', hd'⟩
    | _ => cases hi
  obtain ⟨_, hd'⟩ := hresolve
  rw [resolveDisp] at hd'
  split at hd'
  · exact ⟨_, ‹_›⟩
  · cases hd'

section

variable {E : Surroundings} {v : Visit} {start : MachineState}

lemma Visits.mem (h : Visits E whole start (i :: rest) v) (hlaid : LaidAt offsets frame ds whole) :
    ∃ d j, staysInFrame i.instr ∧ resolveInstr offsets frame d i.instr = .ok j := by
  obtain ⟨⟨k, hk, -⟩, -⟩ := h.tracked hlaid
  obtain ⟨j, hj, -⟩ := hlaid.pieces k i (getElem?_of_drop_eq_cons hk).1
  exact ⟨_, j, (hlaid.orderly_cons hk).1, hj⟩

lemma base_of_staysInFrame {i : Instr} (h : staysInFrame i) {d : Disp}
    (hi : i.access = some (base, d)) (hd : d.isSymbolic) : base = .sp := by
  rw [staysInFrame, Bool.and_eq_true, hi] at h
  simpa [hd] using h.2

lemma Visits.resolved (h : Visits E whole start (i :: rest) v) (hlaid : LaidAt offsets frame ds whole)
    (hlevels : Levels .outer (whole.map Laid.tag)) (hentered : Entered (whole.map Laid.tag)) :
    Resolved E (offsetIn offsets) frame start.sp i v := by
  obtain ⟨d, j, hstays, hj⟩ := h.mem hlaid
  obtain ⟨⟨_, hlevel, hfits, -⟩, -⟩ := h.levelled hlaid hlevels hentered
  have hback : ∀ a b : Word, a + (b - a) = b := by grind
  refine ⟨(h.tracked hlaid).sameEffect hlaid, ?_, ?_, ?_, ?_⟩
  · intro _ s o haccess
    obtain ⟨w, hw⟩ := placed_of_resolveInstr hj haccess
    refine ⟨w, hw, ?_⟩
    rw [base_of_staysInFrame hstays haccess rfl, address, displacement_framed, meaning, hw, getD_some]
    exact hback _ _
  · intro _ o haccess
    rw [base_of_staysInFrame hstays haccess rfl, address, displacement_framed, meaning]
    exact hback _ _
  · rintro _ k haccess rfl hresult
    obtain ⟨n, rep, w, src, m, rfl, hnode, hm, _, hk⟩ := hfits.argument k hresult (argWord_of_access haccess)
    obtain ⟨-, harea⟩ := hlevel
    refine ⟨rep, w, src, m, _, n, hnode, hm, harea, by omega, ?_⟩
    rw [address, displacement_framed, meaning, hk, ofInt_wrap32, BitVec.ofInt_add, ofInt_wrap32,
      BitVec.ofInt_natCast, BitVec.ofInt_natCast, BitVec.ofNat_add]
    rfl
  · intro wide hret
    have houter := hfits.ret wide hret
    subst houter
    exact hlevel

end

lemma layout_eq_none {g g' : MachineFunction} (h : g.layout = (none, g')) : ∃ offsets ds code,
      placeSlots (g.code.filterMap fun i ↦ slotUse i.value) 0 0 g.slots.toList = (offsets, g'.frame) ∧
      depths { g with frame := g'.frame } = .ok ds ∧
      resolveAll offsets g'.frame (g.code.zip ds.toList) = (none, code) ∧ g'.code = expandAll code := by
  simp only [MachineFunction.layout] at h
  split at h
  · cases h
  · rename_i ds hds
    split at h
    · cases h
    · rename_i code hcode
      cases h
      exact ⟨_, ds, code, rfl, hds, hcode, rfl⟩

lemma exists_laidAt {g g' : MachineFunction} (h : g.layout = (none, g')) (htagged : Tagged flow tags)
    (htags : tags.map (·.2) = g.code.map (·.value)) :
    ∃ offsets ds laid, placeSlots (g.code.filterMap fun i ↦ slotUse i.value) 0 0 g.slots.toList = (offsets, g'.frame) ∧
      laid.map Laid.tag = tags ∧ laid.flatMap (·.code) = g'.code.map (·.value) ∧ LaidAt offsets g'.frame ds laid := by
  obtain ⟨offsets, ds, code, hplace, hds, hresolve, hcode⟩ := layout_eq_none h
  obtain ⟨hexplored, hstart⟩ := explored_depths hds
  have hsize : ds.toList.length = g.code.length := by
    simpa using hexplored.size
  have hitems : (g.code.zip ds.toList).map (·.1.value) = g.code.map (·.value) := by
    have hfst : (g.code.zip ds.toList).map Prod.fst = g.code := List.map_fst_zip (by omega)
    calc (g.code.zip ds.toList).map (·.1.value) = ((g.code.zip ds.toList).map Prod.fst).map (·.value) := by
          rw [List.map_map]
          rfl
      _ = g.code.map (·.value) := by rw [hfst]
  obtain ⟨laid, hmap, hflat, hpieces⟩ := exists_laid hresolve (htags.trans hitems.symm)
  have hinstrs : laid.map (·.instr) = g.code.map (·.value) := by
    rw [← htags, ← hmap, List.map_map]
    rfl
  refine ⟨offsets, ds, laid, hplace, hmap, by rw [hflat, hcode], ?_, ?_, ?_, ?_⟩
  · intro k i hi
    obtain ⟨_, d, j, hitem, hj, hexpand⟩ := hpieces k i hi
    have hd : ds[k]? = some d := by
      have := (getElem?_zip_eq_some.mp hitem).2
      simpa using this
    exact ⟨j, by rw [hd, join_some]; exact hj, hexpand⟩
  · exact ⟨g.label, by rw [hinstrs]; exact hexplored⟩
  · intro hne
    refine hstart fun hnil ↦ hne ?_
    rw [← map_eq_nil_iff, hinstrs]
    exact map_eq_nil_iff.mpr hnil
  · rw [hinstrs, ← htags]
    exact orderly_of_tagged htagged

end W16Compiler.Frame
