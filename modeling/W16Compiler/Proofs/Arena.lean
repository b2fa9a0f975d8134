import W16Compiler.Arena
import Mathlib.Data.List.Induction
import Mathlib.Data.List.Nodup
import Mathlib.Data.List.Perm.Subperm
import Mathlib.Tactic.Lemma

/-!
# Linked lists are sequences

A list behaves like the sequence of its handles, values and locations, whatever is inserted, replaced or removed.
A check of the links finds no fault exactly if they go along a sequence, forth and back.
-/

namespace W16Compiler.Arena

open List

variable {α : Type}

/-- A place of a sequence. -/
structure Entry (α : Type) where
  id : NodeId
  value : α
  loc : Option Location

abbrev Entries (α : Type) := List (Entry α)

/-- Puts others in the place of an entry. -/
def Entries.edit (es : Entries α) (id : NodeId) (f : Entry α → Entries α) : Entries α :=
  es.flatMap fun e ↦ if e.id = id then f e else [e]

/-- The first handle, or what comes behind. -/
def first : Entries α → Option NodeId → Option NodeId
  | [], after => after
  | e :: _, _ => some e.id

/-- The last handle, or what comes before. -/
def last (before : Option NodeId) (es : Entries α) : Option NodeId := es.foldl (fun _ e ↦ some e.id) before

/-- The nodes are those of some entries, linked in both directions. -/
def Linked (a : Arena α) (before : Option NodeId) : Entries α → Option NodeId → Prop
  | [], _ => True
  | e :: es, after => a.node? e.id = some ⟨e.value, e.loc, before, first es after, true⟩ ∧ a.Linked (some e.id) es after

/-- The links go along a sequence, forth and back, from the head to the tail. -/
structure Runs (a : Arena α) (es : Entries α) : Prop where
  linked : a.Linked none es none
  head : a.head = first es none
  tail : a.tail = last none es
  length : a.length = es.length

/-! ## Operations -/

inductive Op (α : Type) where
  | pushBack (value : α) (loc : Option Location)
  | insertBefore (id : NodeId) (value : α) (loc : Option Location)
  | insertAfter (id : NodeId) (value : α)
  | replace (id : NodeId) (value : α)
  | remove (id : NodeId)

namespace Op

def perform (a : Arena α) : Op α → Arena α
  | pushBack value loc => (a.pushBack value loc).2
  | insertBefore id value loc => (a.insertBefore id value loc).2
  | insertAfter id value => (a.insertAfter id value).2
  | replace id value => (a.replace id value).2
  | remove id => (a.remove id).2

/-- What an operation does to a sequence. New places have the handles that the list answers. -/
def on (a : Arena α) (es : Entries α) : Op α → Entries α
  | pushBack value loc => es ++ [⟨(a.pushBack value loc).1, value, loc⟩]
  | insertBefore id value loc => es.edit id fun e ↦ [⟨(a.insertBefore id value loc).1, value, loc <|> e.loc⟩, e]
  | insertAfter id value => es.edit id fun e ↦ [e, ⟨(a.insertAfter id value).1, value, e.loc⟩]
  | replace id value => es.edit id fun e ↦ [{ e with value }]
  | remove id => es.edit id fun _ ↦ []

/-- The handle is that of a linked node. One that has been removed may be removed again. -/
def Valid (a : Arena α) : Op α → Prop
  | insertBefore id .. | insertAfter id _ | replace id _ => a.contains id
  | _ => True

end Op

/-- Lists that come up after others, with the sequences that the same operations make. -/
inductive Builds (a : Arena α) (es : Entries α) : Arena α → Entries α → Prop where
  | refl : Builds a es a es
  | step {b : Arena α} {fs : Entries α} (h : Builds a es b fs) (op : Op α) (hop : op.Valid b) :
    Builds a es (op.perform b) (op.on b fs)

/-! ## Links -/

variable {a : Arena α} {b after n p : Option NodeId} {xs ys es : Entries α} {e : Entry α} {id q : NodeId}

lemma first_append (xs ys : Entries α) (after : Option NodeId) : first (xs ++ ys) after = first xs (first ys after) := by
  cases xs <;> rfl

lemma last_append (b : Option NodeId) (xs ys : Entries α) : last b (xs ++ ys) = last (last b xs) ys := foldl_append

lemma first_eq (es : Entries α) (after : Option NodeId) : first es after = (es.map (·.id)).head?.or after := by
  cases es <;> rfl

lemma last_eq (b : Option NodeId) (es : Entries α) : last b es = (es.map (·.id)).getLast?.or b := by
  rcases eq_nil_or_concat es with rfl | ⟨es, e, rfl⟩
  · rfl
  · simp [last]

lemma linked_append : a.Linked b (xs ++ ys) after ↔ a.Linked b xs (first ys after) ∧ a.Linked (last b xs) ys after := by
  induction xs generalizing b with
  | nil => simp [Linked, last]
  | cons x xs ih => rw [cons_append, Linked, Linked, ih, first_append, and_assoc]; rfl

lemma Linked.congr {a' : Arena α} (h : a.Linked b es after) (hsame : ∀ e ∈ es, a'.node? e.id = a.node? e.id) :
    a'.Linked b es after := by
  induction es generalizing b with
  | nil => trivial
  | cons e es ih =>
    obtain ⟨he, hes⟩ := forall_mem_cons.mp hsame
    exact ⟨he.trans h.1, ih h.2 hes⟩

lemma node?_modify (a : Arena α) (id q : NodeId) (f : Node α → Node α) :
    (a.modify id f).node? q = if id = q then (a.node? q).map f else a.node? q := by
  have hindex : id.index = q.index ↔ id = q := by cases id; cases q; simp
  simp [node?, modify, Array.getElem?_modify, hindex]

lemma node?_linkNext (a : Arena α) (b n : Option NodeId) (q : NodeId) :
    (a.linkNext b n).node? q = if b = some q then (a.node? q).map ({ · with next := n }) else a.node? q := by
  cases b with
  | none => rfl
  | some id => simp [linkNext, node?_modify]

lemma node?_linkPrev (a : Arena α) (after p : Option NodeId) (q : NodeId) :
    (a.linkPrev after p).node? q = if after = some q then (a.node? q).map ({ · with prev := p }) else a.node? q := by
  cases after with
  | none => rfl
  | some id => simp [linkPrev, node?_modify]

lemma mem_of_first (h : first es none = some q) : q ∈ es.map (·.id) := by
  rw [first_eq, Option.or_none] at h
  exact mem_of_head? h

lemma mem_of_last (h : last none es = some q) : q ∈ es.map (·.id) := by
  rw [last_eq, Option.or_none] at h
  exact mem_of_getLast? h

/-- Two pieces of a list are linked anew where they meet. -/
def join (a : Arena α) (xs ys : Entries α) (n p : Option NodeId) : Arena α :=
  (a.linkNext (last none xs) n).linkPrev (first ys none) p

lemma node?_join_of_notMem (hq : q ∉ (xs ++ ys).map (·.id)) : (a.join xs ys n p).node? q = a.node? q := by
  rw [map_append, mem_append, not_or] at hq
  rw [join, node?_linkPrev, if_neg fun h ↦ hq.2 (mem_of_first h), node?_linkNext, if_neg fun h ↦ hq.1 (mem_of_last h)]

lemma contains_join (a : Arena α) (xs ys : Entries α) (n p : Option NodeId) (q : NodeId) :
    (a.join xs ys n p).contains q = a.contains q := by
  rw [join, contains, node?_linkPrev, node?_linkNext, contains]
  split_ifs <;> simp [Function.comp_def]

lemma size_link (a : Arena α) (b after n p : Option NodeId) :
    ((a.linkNext b n).linkPrev after p).nodes.size = a.nodes.size ∧
      ((a.linkNext b n).linkPrev after p).length = a.length := by
  unfold linkPrev linkNext modify
  split <;> split <;> simp

lemma head_join (h : a.head = first xs after) : (a.join xs ys n p).head = first xs n := by
  have hhead : (a.join xs ys n p).head = if (last none xs).isSome then a.head else n := by
    unfold join linkPrev linkNext modify
    split <;> split <;> simp_all
  rw [hhead, h, last_eq]
  cases xs <;> simp [first]

lemma tail_join (h : a.tail = last b ys) : (a.join xs ys n p).tail = last p ys := by
  have htail : (a.join xs ys n p).tail = if (first ys none).isSome then a.tail else p := by
    unfold join linkPrev linkNext modify
    split <;> split <;> simp_all
  rw [htail, h]
  cases ys <;> rfl

lemma Linked.join (hx : a.Linked none xs after) (hy : a.Linked b ys none) (hnodup : ((xs ++ ys).map (·.id)).Nodup)
    (n p : Option NodeId) : (a.join xs ys n p).Linked none xs n ∧ (a.join xs ys n p).Linked p ys none := by
  rw [map_append, nodup_append] at hnodup
  obtain ⟨hxs, hys, hdisjoint⟩ := hnodup
  constructor
  · rcases eq_nil_or_concat xs with rfl | ⟨xs, x, rfl⟩
    · trivial
    rw [concat_eq_append] at *
    have hlast : last none (xs ++ [x]) = some x.id := by simp [last]
    have hne : ∀ e ∈ xs ++ [x], first ys none ≠ some e.id := fun e he h ↦
      hdisjoint e.id (mem_map_of_mem he) e.id (mem_of_first h) rfl
    rw [linked_append] at hx ⊢
    simp only [map_append, nodup_append] at hxs
    refine ⟨hx.1.congr fun e he ↦ ?_, ?_, trivial⟩
    · rw [Arena.join, hlast, node?_linkPrev, if_neg (hne e (mem_append_left _ he)), node?_linkNext, if_neg]
      intro heq
      exact hxs.2.2 e.id (mem_map_of_mem he) x.id (by simp) (Option.some.inj heq).symm
    · rw [Arena.join, hlast, node?_linkPrev, if_neg (hne x (by simp)), node?_linkNext, if_pos rfl, hx.2.1]
      rfl
  · cases ys with
    | nil => trivial
    | cons y ys =>
      have hne : ∀ e ∈ y :: ys, last none xs ≠ some e.id := fun e he h ↦
        hdisjoint e.id (mem_of_last h) e.id (mem_map_of_mem he) rfl
      rw [map_cons, nodup_cons] at hys
      refine ⟨?_, hy.2.congr fun e he ↦ ?_⟩
      · rw [Arena.join, first, node?_linkPrev, if_pos rfl, node?_linkNext, if_neg (hne y mem_cons_self), hy.1]
        rfl
      · rw [Arena.join, first, node?_linkPrev, if_neg, node?_linkNext, if_neg (hne e (mem_cons_of_mem _ he))]
        intro heq
        exact hys.1 (Option.some.inj heq ▸ mem_map_of_mem he)

lemma Linked.node (h : a.Linked b es after) (he : e ∈ es) :
    ∃ p n, a.node? e.id = some ⟨e.value, e.loc, p, n, true⟩ := by
  obtain ⟨xs, ys, rfl⟩ := append_of_mem he
  exact ⟨_, _, (linked_append.mp h).2.1⟩

/-- Two equal handles have one predecessor, and so has each place before them, down to the first, which has none. -/
lemma Linked.nodup (h : a.Linked none es after) : (es.map (·.id)).Nodup := by
  induction es using reverseRecOn generalizing after with
  | nil => exact nodup_nil
  | append_singleton es e ih =>
    obtain ⟨hes, he, -⟩ := linked_append.mp h
    rw [map_append, map_singleton, ← concat_eq_append, nodup_concat]
    refine ⟨fun hmem ↦ ?_, ih hes⟩
    obtain ⟨d, hd, heq⟩ := mem_map.mp hmem
    obtain ⟨us, vs, rfl⟩ := append_of_mem hd
    have hd := (linked_append.mp hes).2.1
    rw [heq, he, Option.some.injEq, Node.mk.injEq, last_append, last_eq, map_cons] at hd
    obtain ⟨q, hq⟩ : ∃ q, (d.id :: vs.map (·.id)).getLast? = some q := ⟨_, getLast?_eq_some_getLast (cons_ne_nil _ _)⟩
    have hus : q ∈ us.map (·.id) := mem_of_last (hd.2.2.1.symm.trans (by rw [hq]; rfl))
    have hnodup := ih hes
    rw [map_append, nodup_append] at hnodup
    exact hnodup.2.2 q hus q (mem_of_getLast? hq) rfl

lemma index_lt {node : Node α} (h : a.node? q = some node) : q.index < a.nodes.size :=
  (Array.getElem?_eq_some_iff.mp h).1

/-! ## Lists as sequences -/

/-- A list holds a sequence and nothing else. -/
structure Holds (a : Arena α) (es : Entries α) : Prop extends Runs a es where
  live : ∀ id, a.contains id → id ∈ es.map (·.id)

namespace Holds

lemma insertBetween (h : a.Holds (xs ++ ys)) (value : α) (loc : Option Location) :
    (a.insertBetween (last none xs) (first ys none) value loc).2.Holds (xs ++ ⟨⟨a.nodes.size⟩, value, loc⟩ :: ys) := by
  let new : NodeId := ⟨a.nodes.size⟩
  let node : Node α := { value, loc, prev := last none xs, next := first ys none }
  let a' : Arena α := { a with nodes := a.nodes.push node, length := a.length + 1 }
  have hresult : (a.insertBetween (last none xs) (first ys none) value loc).2 = a'.join xs ys (some new) (some new) := rfl
  have hnode : ∀ q, a'.node? q = if q = new then some node else a.node? q := by
    intro q
    have hindex : q.index = a.nodes.size ↔ q = new := by cases q; simp [new]
    simp [node?, a', Array.getElem?_push, hindex]
  have hnew : new ∉ (xs ++ ys).map (·.id) := by
    intro hmem
    obtain ⟨e, he, heq⟩ := mem_map.mp hmem
    obtain ⟨_, _, hnode⟩ := h.linked.node he
    have hlt := index_lt (heq ▸ hnode)
    exact Nat.lt_irrefl _ hlt
  have hold : ∀ e ∈ xs ++ ys, a'.node? e.id = a.node? e.id := fun e he ↦ by
    rw [hnode, if_neg]
    exact fun heq ↦ hnew (heq ▸ mem_map_of_mem he)
  obtain ⟨hx, hy⟩ := linked_append.mp (h.linked.congr hold)
  obtain ⟨hx, hy⟩ := hx.join hy h.linked.nodup (some new) (some new)
  rw [hresult]
  refine ⟨⟨linked_append.mpr ⟨hx, ?_, hy⟩, ?_, ?_, ?_⟩, fun q hq ↦ ?_⟩
  · rw [node?_join_of_notMem hnew, hnode, if_pos rfl]
  · have hhead : a'.head = first xs (first ys none) := h.head.trans (first_append xs ys none)
    rw [head_join hhead, first_append]
    rfl
  · have htail : a'.tail = last (last none xs) ys := h.tail.trans (last_append none xs ys)
    rw [tail_join htail, last_append]
    rfl
  · rw [join, (size_link ..).2]
    simp [a', h.length]
    omega
  · rw [contains_join, contains, hnode] at hq
    rw [map_append, map_cons, mem_append, mem_cons]
    split at hq
    · exact .inr (.inl ‹_›)
    · exact (mem_append.mp (map_append ▸ h.live q hq)).imp_right .inr

lemma contains (h : a.Holds (xs ++ e :: ys)) : a.contains e.id ∧ a.get? e.id = some e.value ∧ a.loc e.id = e.loc ∧
    a.prev e.id = last none xs ∧ a.next e.id = first ys none := by
  have hnode := (linked_append.mp h.linked).2.1
  simp [Arena.contains, get?, loc, prev, next, hnode]

lemma contains_iff (h : a.Holds es) (id : NodeId) : a.contains id ↔ id ∈ es.map (·.id) := by
  refine ⟨h.live id, fun hid ↦ ?_⟩
  obtain ⟨e, he, rfl⟩ := mem_map.mp hid
  obtain ⟨xs, ys, rfl⟩ := append_of_mem he
  exact h.contains.1

lemma replace (h : a.Holds (xs ++ e :: ys)) (value : α) :
    (a.replace e.id value).2.Holds (xs ++ { e with value } :: ys) := by
  have hnodup := h.linked.nodup
  rw [map_append, map_cons, nodup_middle, nodup_cons, ← map_append] at hnodup
  have hother : ∀ d ∈ xs ++ ys, (a.replace e.id value).2.node? d.id = a.node? d.id := fun d hd ↦ by
    rw [Arena.replace, node?_modify, if_neg fun heq : e.id = d.id ↦ hnodup.1 (heq ▸ mem_map_of_mem hd)]
  obtain ⟨hx, he, hy⟩ := linked_append.mp h.linked
  refine ⟨⟨linked_append.mpr ⟨hx.congr fun d hd ↦ hother d (mem_append_left _ hd), ?_,
    hy.congr fun d hd ↦ hother d (mem_append_right _ hd)⟩, h.head.trans (by simp [first_eq]),
    h.tail.trans (by simp [last]), h.length.trans (by simp)⟩, fun q hq ↦ ?_⟩
  · rw [Arena.replace, node?_modify, if_pos rfl, he]
    rfl
  · have hlive : a.contains q := by
      rw [Arena.replace, Arena.contains, node?_modify] at hq
      split at hq <;> simpa [Arena.contains, Function.comp_def] using hq
    simpa using h.live q hlive

lemma remove (h : a.Holds (xs ++ e :: ys)) : (a.remove e.id).2.Holds (xs ++ ys) := by
  have hnodup := h.linked.nodup
  rw [map_append, map_cons, nodup_middle, nodup_cons, ← map_append] at hnodup
  obtain ⟨hlive, -, -, hprev, hnext⟩ := h.contains
  let a' := a.modify e.id fun n ↦ { n with live := false }
  have hother : ∀ d ∈ xs ++ ys, a'.node? d.id = a.node? d.id := fun d hd ↦ by
    rw [node?_modify, if_neg fun heq : e.id = d.id ↦ hnodup.1 (heq ▸ mem_map_of_mem hd)]
  have hresult : (a.remove e.id).2 =
      { a'.join xs ys (first ys none) (last none xs) with length := a.length - 1 } := by
    simp only [Arena.remove, hlive, hprev, hnext]
    exact congrArg (fun n ↦ { a'.join xs ys (first ys none) (last none xs) with length := n - 1 }) (size_link ..).2
  obtain ⟨hx, -, hy⟩ := linked_append.mp h.linked
  obtain ⟨hx, hy⟩ := (hx.congr fun d hd ↦ hother d (mem_append_left _ hd)).join
    (hy.congr fun d hd ↦ hother d (mem_append_right _ hd)) hnodup.2 (first ys none) (last none xs)
  rw [hresult]
  refine ⟨⟨linked_append.mpr ⟨hx.congr fun _ _ ↦ rfl, hy.congr fun _ _ ↦ rfl⟩, ?_, ?_, by simp [h.length]⟩, fun q hq ↦ ?_⟩
  · have hhead : a'.head = first xs (some e.id) := h.head.trans (first_append xs (e :: ys) none)
    exact (head_join hhead).trans (first_append xs ys none).symm
  · have htail : a'.tail = last (some e.id) ys := h.tail.trans (last_append none xs (e :: ys))
    exact (tail_join htail).trans (last_append none xs ys).symm
  · replace hq : (a'.join xs ys (first ys none) (last none xs)).contains q := hq
    rw [contains_join, Arena.contains, node?_modify] at hq
    split at hq
    · cases hnode : a.node? q <;> simp [hnode] at hq
    · have hmem := h.live q hq
      rw [map_append, map_cons, mem_append, mem_cons] at hmem
      rw [map_append, mem_append]
      exact hmem.imp_right (·.resolve_left (Ne.symm ‹_›))

end Holds

lemma Entries.edit_of_notMem (h : id ∉ es.map (·.id)) : es.edit id f = es := by
  induction es with
  | nil => rfl
  | cons e es ih =>
    rw [map_cons, mem_cons, not_or] at h
    rw [edit, flatMap_cons, if_neg (Ne.symm h.1), ← edit, ih h.2]
    rfl

lemma Entries.edit_of_nodup (h : ((xs ++ e :: ys).map (·.id)).Nodup) :
    edit (xs ++ e :: ys) e.id f = xs ++ f e ++ ys := by
  rw [map_append, map_cons, nodup_middle, nodup_cons, mem_append, not_or] at h
  have hx : edit xs e.id f = xs := edit_of_notMem h.1.1
  have hy : edit ys e.id f = ys := edit_of_notMem h.1.2
  unfold edit at *
  rw [flatMap_append, flatMap_cons, hx, hy, if_pos rfl, append_assoc]

lemma Holds.perform (h : a.Holds es) {op : Op α} (hop : op.Valid a) : (op.perform a).Holds (op.on a es) := by
  have hsplit : ∀ id, a.contains id → ∃ xs e ys, es = xs ++ e :: ys ∧ e.id = id := fun id hid ↦ by
    obtain ⟨e, he, rfl⟩ := mem_map.mp (h.live id hid)
    obtain ⟨xs, ys, rfl⟩ := append_of_mem he
    exact ⟨xs, e, ys, rfl, rfl⟩
  cases op with
  | pushBack value loc =>
    rw [Op.perform, pushBack, h.tail]
    exact insertBetween ((append_nil es).symm ▸ h) value loc
  | insertBefore id value loc =>
    obtain ⟨xs, e, ys, rfl, rfl⟩ := hsplit id hop
    obtain ⟨-, -, hloc, hprev, -⟩ := h.contains
    rw [Op.on, Entries.edit_of_nodup h.linked.nodup, append_assoc, Op.perform, Arena.insertBefore, hprev, hloc]
    exact h.insertBetween value (loc <|> e.loc)
  | insertAfter id value =>
    obtain ⟨xs, e, ys, rfl, rfl⟩ := hsplit id hop
    obtain ⟨-, -, hloc, -, hnext⟩ := h.contains
    rw [Op.on, Entries.edit_of_nodup h.linked.nodup, Op.perform, Arena.insertAfter, hnext, hloc]
    rw [append_cons] at h
    have hafter := h.insertBetween value e.loc
    rw [last_append, append_assoc] at hafter
    rw [append_assoc]
    exact hafter
  | replace id value =>
    obtain ⟨xs, e, ys, rfl, rfl⟩ := hsplit id hop
    rw [Op.on, Entries.edit_of_nodup h.linked.nodup, append_assoc]
    exact h.replace value
  | remove id =>
    by_cases hid : a.contains id
    · obtain ⟨xs, e, ys, rfl, rfl⟩ := hsplit id hid
      rw [Op.on, Entries.edit_of_nodup h.linked.nodup, append_nil]
      exact h.remove
    · rw [Op.on, Entries.edit_of_notMem fun hmem ↦ hid ((h.contains_iff id).mpr hmem), Op.perform, Arena.remove, if_pos (by simp [hid])]
      exact h

/-! ## Walks along the links -/

lemma exists_linked {count : Nat} {cur : Option NodeId} (h : a.verifyFrom count b cur = none) :
    ∃ es, a.Linked b es none ∧ first es none = cur ∧ last b es = a.tail ∧ count + es.length = a.length := by
  fun_induction a.verifyFrom count b cur with
  | case1 | case2 | case4 | case5 | case6 | case7 => cases h
  | case3 count b htail hlength => exact ⟨[], trivial, rfl, not_not.mp htail, not_not.mp hlength⟩
  | case8 count b id node hnode hlive hprev hcount ih =>
    obtain ⟨es, hes, hfirst, hlast, hlength⟩ := ih h
    refine ⟨⟨id, node.value, node.loc⟩ :: es, ⟨?_, hes⟩, rfl, hlast, ?_⟩
    · rw [hnode, hfirst, ← not_not.mp hprev]
      cases node
      simp_all
    · rw [length_cons]
      omega

lemma Linked.verifyFrom {count : Nat} (h : a.Linked b es none) (htail : a.tail = last b es)
    (hlength : a.length = count + es.length) (hsize : count + es.length ≤ a.nodes.size) :
    a.verifyFrom count b (first es none) = none := by
  induction es generalizing b count with
  | nil => rw [first, Arena.verifyFrom, htail, hlength]; simp [last]
  | cons e es ih =>
    rw [length_cons, Nat.add_comm es.length, ← Nat.add_assoc] at hlength hsize
    have hrest := ih h.2 htail hlength hsize
    have hcount : ¬ count + 1 > a.nodes.size := by omega
    rw [first, Arena.verifyFrom, h.1]
    simpa [hcount] using hrest

lemma Runs.length_le (h : a.Runs es) : es.length ≤ a.nodes.size := by
  have hsub : (es.map (·.id)).map (·.index) ⊆ range a.nodes.size := by
    simp only [map_map, subset_def, mem_map, mem_range]
    rintro _ ⟨e, he, rfl⟩
    obtain ⟨_, _, hnode⟩ := h.linked.node he
    exact index_lt hnode
  have hinj : Function.Injective NodeId.index := fun id q h ↦ by
    cases id
    exact congrArg NodeId.mk h
  simpa using ((h.linked.nodup.map hinj).subperm hsub).length_le

lemma verify_eq_none_iff : a.verify = none ↔ ∃ es, a.Runs es := by
  constructor
  · intro h
    obtain ⟨es, hes, hfirst, hlast, hlength⟩ := exists_linked h
    exact ⟨es, hes, hfirst.symm, hlast.symm, by omega⟩
  · rintro ⟨es, h⟩
    have hle := h.length_le
    rw [verify, h.head]
    exact h.linked.verifyFrom h.tail (by simp [h.length]) (by omega)

lemma Linked.follow (fuel : Nat) (h : a.Linked b es none) (hfuel : es.length ≤ fuel) :
    a.follow fuel (first es none) = es.map (·.id) := by
  induction es generalizing b fuel with
  | nil => cases fuel <;> rfl
  | cons e es ih =>
    cases fuel with
    | zero => cases hfuel
    | succ fuel =>
      have hnext : a.next e.id = first es none := by rw [next, h.1]; rfl
      rw [first, Arena.follow, hnext, ih fuel h.2 (Nat.le_of_succ_le_succ hfuel), map_cons]

lemma Runs.ids_eq (h : a.Runs es) : a.ids = es.map (·.id) := by
  rw [ids, h.head, h.linked.follow _ h.length_le]

lemma Builds.holds (hb : Builds a es a' fs) (h : a.Holds es) : a'.Holds fs := by
  induction hb with
  | refl => exact h
  | step _ op hop ih => exact ih.perform hop

lemma Entries.mem_of_edit (h : q ∈ (es.edit id f).map (·.id))
    (hf : ∀ e, q ∈ (f e).map (·.id) → q = e.id) : q ∈ es.map (·.id) := by
  obtain ⟨d, hd, rfl⟩ := mem_map.mp h
  obtain ⟨e, he, hde⟩ := mem_flatMap.mp hd
  split at hde
  · exact hf e (mem_map_of_mem hde) ▸ mem_map_of_mem he
  · exact mem_singleton.mp hde ▸ mem_map_of_mem he

lemma Op.mem_of_on {op : Op α} (h : q ∈ (op.on a es).map (·.id)) (hq : q.index < a.nodes.size) : q ∈ es.map (·.id) := by
  have hnew : q ≠ ⟨a.nodes.size⟩ := by
    rintro rfl
    exact Nat.lt_irrefl _ hq
  cases op with
  | pushBack value loc =>
    rw [on, map_append, mem_append] at h
    exact h.resolve_right fun h ↦ hnew (mem_singleton.mp h)
  | insertBefore id value loc =>
    exact Entries.mem_of_edit h fun e he ↦ mem_singleton.mp ((mem_cons.mp he).resolve_left hnew)
  | insertAfter id value =>
    exact Entries.mem_of_edit h fun e he ↦ (mem_cons.mp he).resolve_right fun h ↦ hnew (mem_singleton.mp h)
  | replace id value => exact Entries.mem_of_edit h fun e he ↦ mem_singleton.mp he
  | remove id => exact Entries.mem_of_edit h fun e he ↦ absurd he not_mem_nil

lemma size_insertBetween (a : Arena α) (b after : Option NodeId) (value : α) (loc : Option Location) :
    (a.insertBetween b after value loc).2.nodes.size = a.nodes.size + 1 :=
  (size_link ..).1.trans (Array.size_push ..)

lemma Op.size_le (op : Op α) (a : Arena α) : a.nodes.size ≤ (op.perform a).nodes.size := by
  cases op with
  | pushBack | insertBefore | insertAfter => exact Nat.le_of_succ_le (Nat.le_of_eq (size_insertBetween ..).symm)
  | replace => simp [perform, Arena.replace, modify]
  | remove id =>
    rw [perform, Arena.remove]
    split
    · exact Nat.le_refl _
    · simp [size_link, modify]

lemma Builds.dead (hb : Builds a es a' fs) (hq : q.index < a.nodes.size)
    (hdead : q ∉ es.map (·.id)) : q.index < a'.nodes.size ∧ q ∉ fs.map (·.id) := by
  induction hb with
  | refl => exact ⟨hq, hdead⟩
  | step _ op _ ih => exact ⟨Nat.lt_of_lt_of_le ih.1 (op.size_le _), fun hmem ↦ ih.2 (Op.mem_of_on hmem ih.1)⟩

/-- A list is the sequence that the same operations make: its handles in order, with their values and locations.
What is removed stays so, and a list has no fault exactly if its links go along a sequence. -/
theorem refines_sequence (α : Type) :
    (∀ (a : Arena α) (es : Entries α), Builds {} [] a es →
      a.Runs es ∧ (es.map (·.id)).Nodup ∧ a.ids = es.map (·.id) ∧
      (a.ids.map fun id ↦ (id, a.get? id, a.loc id)) = es.map (fun e ↦ (e.id, some e.value, e.loc)) ∧
      (∀ id, a.contains id ↔ id ∈ a.ids) ∧ a.verify = none ∧
      (∀ xs e ys, es = xs ++ e :: ys → a.prev e.id = (xs.map (·.id)).getLast? ∧ a.next e.id = (ys.map (·.id)).head?) ∧
      (∀ id, a.contains id = false → a.remove id = (a.next id, a)) ∧
      ∀ b fs, Builds a es b fs → ∀ id, id.index < a.nodes.size → a.contains id = false → b.contains id = false) ∧
    ∀ a : Arena α, a.verify = none ↔ ∃ es, a.Runs es ∧ (es.map (·.id)).Nodup := by
  refine ⟨fun a es hb ↦ ?_, fun a ↦ verify_eq_none_iff.trans (exists_congr fun es ↦ ⟨fun h ↦ ⟨h, h.linked.nodup⟩, (·.1)⟩)⟩
  have h : a.Holds es := hb.holds ⟨⟨trivial, rfl, rfl, rfl⟩, fun id hid ↦ by simp [contains, node?] at hid⟩
  refine ⟨h.toRuns, h.linked.nodup, h.ids_eq, ?_, h.ids_eq ▸ h.contains_iff, verify_eq_none_iff.mpr ⟨es, h.toRuns⟩,
    fun xs e ys heq ↦ ?_, fun id hid ↦ ?_, fun b fs hbs id hid hdead ↦ ?_⟩
  · rw [h.ids_eq, map_map]
    refine map_congr_left fun e he ↦ ?_
    obtain ⟨xs, ys, rfl⟩ := append_of_mem he
    obtain ⟨-, hget, hloc, -⟩ := h.contains
    simp [hget, hloc]
  · subst heq
    obtain ⟨-, -, -, hprev, hnext⟩ := h.contains
    rw [hprev, hnext, last_eq, first_eq, Option.or_none, Option.or_none]
    exact ⟨rfl, rfl⟩
  · rw [remove, if_pos (by simp [hid])]
  · rw [← Bool.not_eq_true, h.contains_iff] at hdead
    exact Bool.eq_false_iff.mpr fun hlive ↦ (hbs.dead hid hdead).2 ((hbs.holds h).live id hlive)

/-- Something is put before the first node, which then goes. -/
def Example.edited : Arena Nat :=
  Op.perform (Op.perform (Op.perform {} (.pushBack 1 none)) (.insertBefore ⟨0⟩ 2 none)) (.remove ⟨0⟩)

theorem refines_sequence_edited : Example.edited.ids = [⟨1⟩] ∧ Example.edited.verify = none := by
  have h := (refines_sequence Nat).1 Example.edited _ ((((@Builds.refl Nat {} []).step (.pushBack 1 none) trivial).step
    (.insertBefore ⟨0⟩ 2 none) rfl).step (.remove ⟨0⟩) trivial)
  exact ⟨h.2.2.1, h.2.2.2.2.2.1⟩

end W16Compiler.Arena
