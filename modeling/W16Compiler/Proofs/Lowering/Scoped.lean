import W16Compiler.Lowering.Function
import W16Compiler.Proofs.Lowering.Tree
import W16Compiler.Proofs.Lowering.Tries

/-!
# Functions whose jumps agree with their scopes

A statement carries the scope that it was read in, and what a jump leaves is found from scopes. In a scoped
function this agrees with where the jump stands in the body, every try statement is written once, and no jump
leads into a clause. The nodes that are written for a scoped function are nested.
-/

namespace W16Compiler

open Lowering List

namespace Lowering

lemma Books.unique (h : Books K scopes g s) (hx : x ∈ s.tries) (hy : y ∈ s.tries) (heq : x.1 = y.1) : x = y := by
  have hkeys : s.tries.map (·.1) = g.tries.map (·.1) := by
    have hall := h.tries
    generalize s.tries = tries, g.tries = noted at hall
    induction hall with
    | nil => rfl
    | cons hxy _ ih => rw [map_cons, map_cons, hxy.id, ih]
  exact inj_on_of_nodup_map (hkeys ▸ h.coherent.nodup) hx hy heq

lemma Listed.resolved (h : Listed s [])
    (hbooks : Books K scopes g s) : ∀ p ∈ s.resolved, ∀ q ∈ s.resolved, ∀ start link resume resumes,
    p.value = .cleanupCall start link resume → q.value = .cleanupReturn link resumes → resume ∈ resumes := by
  intro p hp q hq start link resume resumes hpvalue hqvalue
  obtain ⟨p', hp', rfl⟩ := mem_map.mp hp
  obtain ⟨q', hq', rfl⟩ := mem_map.mp hq
  have hcall : p'.value = .cleanupCall start link resume := by
    split at hpvalue
    · cases hpvalue
    · exact hpvalue
  obtain ⟨id, t, ht, hcleanup, hresume⟩ := h p' hp' start link resume hcall
  split at hqvalue
  · rename_i link' resumes' hreturn
    cases hqvalue
    have hlink : t.cleanup.any (·.2 = link) := by simp [hcleanup]
    have hfound : ∃ x, s.tries.find? (fun x ↦ x.2.cleanup.any (·.2 = link)) = some x :=
      Option.isSome_iff_exists.mp (find?_isSome.mpr ⟨(id, t), ht, hlink⟩)
    obtain ⟨⟨id', t'⟩, hfind⟩ := hfound
    have ht' := mem_of_find?_eq_some hfind
    have hlink' : t'.cleanup.any (·.2 = link) := by simpa using find?_some hfind
    obtain ⟨start', hcleanup'⟩ : ∃ start', t'.cleanup = some (start', link) := by
      cases hsome : t'.cleanup with
      | none => simp [hsome] at hlink'
      | some x =>
        rw [hsome] at hlink'
        exact ⟨x.1, congrArg some (Prod.ext rfl (of_decide_eq_true hlink'))⟩
    -- Only one statement has the link.
    obtain ⟨y, hy, hagrees⟩ := hbooks.noted ht
    obtain ⟨y', hy', hagrees'⟩ := hbooks.noted ht'
    have heq := hbooks.coherent.links y hy y' hy' start start' link (hagrees.cleanup.symm.trans hcleanup)
      (hagrees'.cleanup.symm.trans hcleanup')
    have hid : id = id' := hagrees.id.trans (heq ▸ hagrees'.id.symm)
    cases hbooks.unique ht ht' hid
    rw [hfind]
    exact hresume.resolve_right not_mem_nil
  · rename_i hother
    exact (hother _ _ hqvalue).elim

end Lowering

namespace FunctionDef

variable (f : FunctionDef) (n : Names)

/-- The places in the body where control leaves its order or is expected from elsewhere. -/
def sites : List Site := f.body.sites [] []

def tryScope (id : TryId) : ScopeId := ((f.sites.find? (·.tryId = some id)).map (·.scope)).getD .global

def labelPath (name : String) : Path := ((f.sites.find? (·.kind = .named name)).map (·.path)).getD []

def markerPath (marker : Nat) : Path := ((f.sites.find? (·.kind = .marked marker)).map (·.path)).getD []

/-- What is fixed when the body is lowered with labels from some number on. -/
def context (label : Nat) : Context where
  types := n.types
  symbols := n.symbols
  result := if n.types.isVoid f.result || f.hiddenResult then none else some (.ofType n.types f.result)
  hiddenResult := f.hiddenResult
  paramScope := f.paramScope
  tries := f.tries
  cases := (List.range f.cases).map fun k ↦ ⟨label + k⟩
  labels := (f.body.namedLabels.zipIdx.map fun ((name, scope), k) ↦ (name, ⟨label + f.cases + k⟩, scope)).reverse

def jumps (label : Nat) : Discipline :=
  nested (f.context n label) f.tryScope
    (fun name ↦ (f.body.namedLabels.reverse.lookup name).map fun scope ↦ (f.labelPath name, scope))
    fun marker ↦ some (f.markerPath marker)

/-- Every try statement is written once, and jumps agree with scopes. -/
structure Scoped : Prop where
  nodup : (tryIds f.sites).Nodup
  allows : ∀ x ∈ f.sites, (f.jumps n 0).Allows x

variable {f n} {label : Nat} {l : Label} {scope : ScopeId} {name : String}

lemma lower_eq : f.lower n label = written (f.context n label) f.label f.exported f.loc f.body.lowered.run
      (label + f.cases + f.body.namedLabels.length) := rfl

lemma allows_jumps (h : (f.jumps n 0).Allows x) : (f.jumps n label).Allows x := by
  have hlayer : (f.context n label).layer = (f.context n 0).layer := Context.layer_congr rfl
  have hleaves : ∀ scopes target e source, (f.context n label).leaves scopes target e source =
      (f.context n 0).leaves scopes target e source := fun _ _ _ _ ↦ Context.leaves_congr rfl rfl
  have hjumps : f.jumps n label = f.jumps n 0 := by
    simp only [jumps, nested, Context.standing, hlayer, hleaves]
    rfl
  rwa [hjumps]

/-! ## The start of a body -/

def notes (f : FunctionDef) (n : Names) (label : Nat) : Notes where
  labels l :=
    if l.index < label then none
    else if l.index < label + f.cases then some ((f.context n label).standing (f.markerPath (l.index - label)))
    else (f.body.namedLabels[l.index - (label + f.cases)]?).map fun x ↦ (f.context n label).standing (f.labelPath x.1)
  tries := []
  slots := 0

lemma labels_lt (h : (f.notes n label).labels l = some X) :
    l.index < label + f.cases + f.body.namedLabels.length := by
  simp only [notes] at h
  split at h
  · cases h
  · split at h
    · omega
    · obtain ⟨x, hx, -⟩ := Option.map_eq_some_iff.mp h
      obtain ⟨_, -⟩ := List.getElem?_eq_some_iff.mp hx
      omega

lemma labels_case (h : (f.context n label).cases[marker]? = some l) :
    (f.notes n label).labels l = some ((f.context n label).standing (f.markerPath marker)) := by
  rw [context, List.getElem?_map, Option.map_eq_some_iff] at h
  obtain ⟨k, hk, rfl⟩ := h
  obtain ⟨hlt, hk⟩ := List.getElem?_eq_some_iff.mp hk
  rw [List.getElem_range] at hk
  rw [List.length_range] at hlt
  subst hk
  simp only [notes]
  rw [if_neg (by omega), if_pos (by omega), Nat.add_sub_cancel_left]

lemma lookup_numbered {entries : List ((String × ScopeId) × Nat)} (number : Nat → Label)
    (h : (entries.map fun ((name, scope), k) ↦ (name, number k, scope)).lookup name = some (l, scope)) :
    (entries.map (·.1)).lookup name = some scope ∧ ∃ k, ((name, scope), k) ∈ entries ∧ number k = l := by
  induction entries with
  | nil => cases h
  | cons x entries ih =>
    obtain ⟨⟨name', _⟩, k⟩ := x
    rw [map_cons, lookup_cons] at h ⊢
    by_cases hname : name = name'
    · subst hname
      rw [beq_self_eq_true] at h ⊢
      cases h
      exact ⟨rfl, k, mem_cons_self, rfl⟩
    · rw [beq_false_of_ne hname] at h ⊢
      obtain ⟨hlookup, k', hk', hl⟩ := ih h
      exact ⟨hlookup, k', mem_cons_of_mem _ hk', hl⟩

lemma labels_named (h : (f.context n label).labels.lookup name = some (l, scope)) :
    f.body.namedLabels.reverse.lookup name = some scope ∧
      (f.notes n label).labels l = some ((f.context n label).standing (f.labelPath name)) := by
  have hreverse : (f.body.namedLabels.zipIdx.reverse.map (·.1)) = f.body.namedLabels.reverse := by
    rw [map_reverse, zipIdx_map_fst]
  rw [context, ← map_reverse] at h
  obtain ⟨hlookup, k, hk, rfl⟩ := lookup_numbered (fun k ↦ ⟨label + f.cases + k⟩) h
  rw [hreverse] at hlookup
  have hget : f.body.namedLabels[k]? = some (name, scope) := mem_zipIdx_iff_getElem?.mp (mem_reverse.mp hk)
  refine ⟨hlookup, ?_⟩
  simp only [notes]
  rw [if_neg (by omega), if_neg (by omega), Nat.add_sub_cancel_left, hget]
  rfl

lemma coherent_notes : (f.notes n label).Coherent (f.context n label) f.tryScope where
  nodup := .nil
  records _ hx := (not_mem_nil hx).elim
  links _ hx := (not_mem_nil hx).elim
  record_lt _ hx := (not_mem_nil hx).elim
  link_lt _ hx := (not_mem_nil hx).elim
  outer _ hx := (not_mem_nil hx).elim
  around _ hx := (not_mem_nil hx).elim
  apart _ hx := (not_mem_nil hx).elim
  scope _ hx := (not_mem_nil hx).elim
  cleanup _ hx := (not_mem_nil hx).elim
  start _ hx := (not_mem_nil hx).elim

lemma follows_notes : Follows (nesting (f.context n label) f.tryScope) (f.jumps n label) (f.context n label) []
    (f.notes n label) where
  fits := rfl
  breakables := .nil
  labels name l scope hl := by
    obtain ⟨hlookup, hlabel⟩ := labels_named hl
    refine ⟨f.labelPath name, ?_, hlabel⟩
    simp [jumps, nested, hlookup, Option.map_some]
  cases marker l hl := ⟨f.markerPath marker, rfl, labels_case hl⟩

lemma holds_notes (loc : Location) : (nesting (f.context n label) f.tryScope).Holds (f.notes n label) ([], some [])
    { nextLabel := label + f.cases + f.body.namedLabels.length, loc } := by
  refine ⟨⟨⟨fun l X hl ↦ labels_lt hl, Nat.zero_le _, coherent_notes, .nil, ?_, ?_, ?_⟩, Nesting.around_nil _,
    fun _ ↦ rfl,
    fun Y hY ↦ ?_⟩, ?_⟩
  · exact fun _ he ↦ (not_mem_nil he).elim
  · exact fun _ hx ↦ (not_mem_nil hx).elim
  · exact fun _ hl ↦ by cases hl
  · cases hY rfl
    exact .nil
  · exact fun _ hp ↦ (not_mem_nil hp).elim

/-! ## Functions -/

/-- The nodes of a function are nested, and a cleanup knows all labels where it may have to go on. -/
structure IsNested (f : FunctionDef) (n : Names) (label : Nat) (g : Notes) (flow : Flow) : Prop where
  notes_le : f.notes n label ≤ g
  coherent : g.Coherent (f.context n label) f.tryScope
  leads : ∃ Z, g.Leads [] flow Z
  resumes : ∀ p ∈ flow, ∀ q ∈ flow, ∀ start link resume resumes, p.value = .cleanupCall start link resume →
    q.value = .cleanupReturn link resumes → resume ∈ resumes

lemma Scoped.exists_isNested (hf : f.Scoped n) {p : PrimFunction} {next : Nat} (h : f.lower n label = .ok (p, next)) :
    ∃ g, f.IsNested n label g p.prims := by
  rw [lower_eq] at h
  obtain ⟨⟨u, s⟩, hrun, hp⟩ := bind_eq_ok.mp h
  cases hp
  have hlawful : (nesting (f.context n label) f.tryScope).Lawful (f.jumps n label) := lawful_nesting _ _ _ _
  have hsound := f.body.sound (c := []) hlawful follows_notes fun x hx ↦ allows_jumps (hf.allows x hx)
  have hcode : (nesting (f.context n label) f.tryScope).Yields (f.context n label) (f.notes n label) ([], some [])
      (tryIds f.sites ++ []) (do emit .entry; f.body.lowered.run; close) ([], none) [] fun _ _ ↦ True :=
    (Nesting.emits (.steady rfl) rfl).bind fun g1 _ hle _ ↦ (hsound.run g1 [] hle).bind fun g2 _ _ _ ↦
      Nesting.closes rfl
  have hfresh : (nesting (f.context n label) f.tryScope).Fresh (f.notes n label) (tryIds f.sites ++ []) := by
    rw [append_nil]
    exact ⟨hf.nodup, fun _ _ _ ↦ not_mem_nil⟩
  obtain ⟨g, hle, -, ⟨hkeeps, hlisted⟩, -⟩ := hcode _ u s hfresh (holds_notes f.loc) hrun
  have hleads : g.Leads [] s.prims.toList [] := hkeeps.written [] fun hreach ↦ by cases hkeeps.reachable hreach
  refine ⟨g, hle, hkeeps.books.coherent, ⟨[], hleads.map fun x ↦ ?_⟩, hlisted.resolved hkeeps.books⟩
  split
  · exact .inr ⟨_, _, _, ‹_›, rfl⟩
  · exact .inl rfl

end FunctionDef

end W16Compiler
