import PathCensus.Proofs.Tables
import PathCensus.Proofs.Tree.Children
import PathCensus.Proofs.Tree.Replacing
import PathCensus.Tree.Indexed

/-!
# Indexes that are in step

An index is in step with a list if it gives the place of every item under its key and nothing else.
Then no two items share a key, and the index is determined by the list. All operations keep an index
in step, and so does a change of an item in its place that leaves its key. A node that keeps one
child per label can therefore be kept with an index, which is the same whatever made it, and through
which children are found and added as they are without it.
-/

namespace PathCensus

namespace Indexed

variable {κ α : Type} [Ord κ] {keyOf : α → κ} {kept : Indexed κ α}

/-- The index gives the place of every item under its key, and nothing else. -/
def InStep (keyOf : α → κ) (kept : Indexed κ α) : Prop :=
  ∀ key i, kept.index.find? key = some i ↔ kept.items[i]?.map keyOf = some key

theorem inStep_empty : InStep keyOf ∅ := by
  intro key i
  constructor <;> intro h <;> cases h

/-- Two items with one key are in one place. -/
theorem InStep.nodup (h : kept.InStep keyOf) : (kept.items.map keyOf).Nodup := by
  refine List.nodup_iff_injective_getElem.2 fun i j he => Fin.ext ?_
  have hplace : ∀ k : Fin (kept.items.map keyOf).length,
      kept.index.find? (kept.items.map keyOf)[k] = some k.val := by
    intro k
    rw [h, ← List.getElem?_map]
    exact List.getElem?_eq_getElem k.isLt
  have hi := hplace i
  have hsame : (kept.items.map keyOf)[i] = (kept.items.map keyOf)[j] := he
  rw [hsame, hplace j, Option.some.injEq] at hi
  exact hi.symm

/-- The index gives no place behind the list. -/
theorem InStep.lt_length (h : kept.InStep keyOf) {key : κ} {i : Nat}
    (hf : kept.index.find? key = some i) : i < kept.items.length := by
  obtain ⟨item, hitem, -⟩ := Option.map_eq_some_iff.1 ((h key i).1 hf)
  exact (List.getElem?_eq_some_iff.1 hitem).1

/-- The index gives the place of the first item under a key, which is the only one. -/
theorem InStep.find?_eq_place? [DecidableEq κ] (h : kept.InStep keyOf) (key : κ) :
    kept.index.find? key = Replacing.place? keyOf key kept.items := by
  cases hp : Replacing.place? keyOf key kept.items with
  | some i =>
    obtain ⟨hi, hkey, -⟩ := List.findIdx?_eq_some_iff_getElem.1 hp
    rw [h, List.getElem?_eq_getElem hi, Option.map_some, of_decide_eq_true hkey]
  | none =>
    cases hf : kept.index.find? key with
    | none => rfl
    | some i =>
      obtain ⟨item, hitem, rfl⟩ := Option.map_eq_some_iff.1 ((h key i).1 hf)
      have hno := List.findIdx?_eq_none_iff.1 hp item (List.mem_of_getElem? hitem)
      simp at hno

/-- The index is determined by the list. -/
theorem InStep.index_eq [Std.TransOrd κ] [Std.LawfulEqOrd κ] {other : Indexed κ α}
    (h : kept.InStep keyOf) (ho : other.InStep keyOf) (hitems : other.items = kept.items) :
    other.index = kept.index := by
  refine SortedTable.ext_find? fun key => Option.ext fun i => ?_
  rw [ho, h, hitems]

/-- Looking up an item finds the first one under the key, which is the only one. -/
theorem InStep.get?_eq [DecidableEq κ] (h : kept.InStep keyOf) (key : κ) :
    kept.get? key = kept.items.find? fun a => keyOf a = key := by
  rw [get?, place?, h.find?_eq_place?]
  exact List.find?_eq_bind_findIdx?_getElem?.symm

/-- The index gives no place exactly for the keys that no item has. -/
theorem InStep.find?_eq_none_iff (h : kept.InStep keyOf) {key : κ} :
    kept.index.find? key = none ↔ key ∉ kept.items.map keyOf := by
  rw [Option.eq_none_iff_forall_ne_some, List.mem_iff_getElem?, not_exists]
  refine forall_congr' fun i => ?_
  rw [List.getElem?_map, ne_eq, h]

/-- An index is in step with other items exactly if they have the old keys in the old places. -/
theorem InStep.inStep_iff (h : kept.InStep keyOf) {items : List α} :
    InStep keyOf ⟨items, kept.index⟩ ↔ items.map keyOf = kept.items.map keyOf := by
  constructor
  · intro hother
    apply List.ext_getElem?
    intro i
    apply Option.ext
    intro key
    rw [List.getElem?_map, List.getElem?_map, ← hother key i, ← h key i]
  · intro hkeys key i
    rw [h, ← List.getElem?_map, ← List.getElem?_map, hkeys]

/-! ## Operations -/

/-- A change of an item that leaves its key leaves the index in step. -/
theorem InStep.modify (h : kept.InStep keyOf) (i : Nat) {f : α → α}
    (hf : ∀ a, keyOf (f a) = keyOf a) : (kept.modify i f).InStep keyOf := by
  apply h.inStep_iff.2
  apply List.ext_getElem?
  intro j
  rw [List.getElem?_map, List.getElem?_map, List.getElem?_modify]
  cases kept.items[j]? with
  | none => rfl
  | some a =>
    apply congrArg some
    split
    · exact hf a
    · rfl

/-- An item with the key that the index has for a place can be put there. -/
theorem InStep.set (h : kept.InStep keyOf) {item : α} {i : Nat}
    (hf : kept.index.find? (keyOf item) = some i) :
    InStep keyOf ⟨kept.items.set i item, kept.index⟩ := by
  have hi := (h _ i).1 hf
  apply h.inStep_iff.2
  apply List.ext_getElem?
  intro j
  rw [List.getElem?_map, List.getElem?_map]
  by_cases hij : i = j
  · subst hij
    rw [List.getElem?_set_self (h.lt_length hf), hi, Option.map_some]
  · rw [List.getElem?_set_ne hij]

variable [Std.TransOrd κ] [Std.LawfulEqOrd κ]

/-- What adding an item does: it takes the place under its key, or a new one at the end. -/
theorem put_cases (keyOf : α → κ) (kept : Indexed κ α) (item : α) :
    (∃ i, kept.index.find? (keyOf item) = some i ∧
        kept.put keyOf item = (i, ⟨kept.items.set i item, kept.index⟩)) ∨
      kept.index.find? (keyOf item) = none ∧
        kept.put keyOf item = (kept.items.length, ⟨kept.items ++ [item],
          kept.index.alter (keyOf item) fun _ => kept.items.length⟩) := by
  cases hf : kept.index.find? (keyOf item) with
  | some i => exact .inl ⟨i, rfl, by simp only [put, hf]⟩
  | none => exact .inr ⟨rfl, by simp only [put, hf]⟩

/-- An item with a key that the index does not have can be put last under a new entry. -/
theorem InStep.concat (h : kept.InStep keyOf) {item : α}
    (hf : kept.index.find? (keyOf item) = none) :
    InStep keyOf ⟨kept.items ++ [item],
      kept.index.alter (keyOf item) fun _ => kept.items.length⟩ := by
  intro key j
  by_cases hk : key = keyOf item
  · subst hk
    rw [SortedTable.find?_alter_self, Option.some.injEq]
    constructor
    · rintro rfl
      rw [List.getElem?_concat_length, Option.map_some]
    · intro hj
      rcases Nat.lt_trichotomy kept.items.length j with hlt | heq | hgt
      · have hlength : (kept.items ++ [item]).length ≤ j := by
          rw [List.length_append, List.length_singleton]
          omega
        rw [List.getElem?_eq_none hlength] at hj
        cases hj
      · exact heq
      · rw [List.getElem?_append_left hgt, ← h, hf] at hj
        cases hj
  · rw [SortedTable.find?_alter_of_ne _ hk, h, List.getElem?_append]
    split
    · exact Iff.rfl
    · next hge =>
      rw [List.getElem?_eq_none (Nat.le_of_not_lt hge), List.getElem?_singleton]
      split
      · simp [Ne.symm hk]
      · exact Iff.rfl

/-- Adding an item keeps the index in step. -/
theorem InStep.put (h : kept.InStep keyOf) (item : α) :
    (kept.put keyOf item).2.InStep keyOf := by
  rcases put_cases keyOf kept item with ⟨i, hf, hput⟩ | ⟨hf, hput⟩
  · rw [hput]
    exact h.set hf
  · rw [hput]
    exact h.concat hf

/-- An item that is added takes the place of one with its key, or comes last. -/
theorem InStep.items_put [DecidableEq κ] (h : kept.InStep keyOf) (item : α) :
    (kept.put keyOf item).2.items = Replacing.put keyOf kept.items item := by
  rw [Replacing.put, ← h.find?_eq_place?, Indexed.put]
  cases kept.index.find? (keyOf item) <;> rfl

/-- Making sure of a key keeps the index in step. -/
theorem InStep.ensure (h : kept.InStep keyOf) (key : κ) (fresh : α) :
    (kept.ensure keyOf key fresh).2.InStep keyOf := by
  rw [Indexed.ensure]
  split
  · exact h
  · exact h.put fresh

theorem InStep.foldl_put (h : kept.InStep keyOf) (items : List α) :
    (items.foldl (fun fresh item => (fresh.put keyOf item).2) kept).InStep keyOf := by
  induction items generalizing kept with
  | nil => exact h
  | cons item rest ih => exact ih (h.put item)

theorem InStep.items_foldl_put [DecidableEq κ] (h : kept.InStep keyOf) (items : List α) :
    (items.foldl (fun fresh item => (fresh.put keyOf item).2) kept).items =
      items.foldl (Replacing.put keyOf) kept.items := by
  induction items generalizing kept with
  | nil => rfl
  | cons item rest ih => rw [List.foldl_cons, List.foldl_cons, ← h.items_put, ih (h.put item)]

/-- An index that is made anew is in step. -/
theorem inStep_reindex (kept : Indexed κ α) : (kept.reindex keyOf).InStep keyOf :=
  inStep_empty.foldl_put kept.items

/-- When the index is made anew, each key keeps its first place and its last item. -/
theorem items_reindex [DecidableEq κ] (kept : Indexed κ α) :
    (kept.reindex keyOf).items = Replacing.ofList keyOf kept.items :=
  inStep_empty.items_foldl_put kept.items

/-- The lists that come of the operations, in any order. An item may be changed in its place if it
keeps its key, and any list may be indexed anew. -/
inductive Kept (keyOf : α → κ) : Indexed κ α → Prop
  | empty : Kept keyOf ∅
  | put {kept : Indexed κ α} (item : α) : Kept keyOf kept → Kept keyOf (kept.put keyOf item).2
  | ensure {kept : Indexed κ α} (key : κ) (fresh : α) :
      Kept keyOf kept → Kept keyOf (kept.ensure keyOf key fresh).2
  | modify {kept : Indexed κ α} (i : Nat) {f : α → α} (hf : ∀ a, keyOf (f a) = keyOf a) :
      Kept keyOf kept → Kept keyOf (kept.modify i f)
  | reindex (kept : Indexed κ α) : Kept keyOf (kept.reindex keyOf)

/-- The index is in step whatever was done. -/
theorem Kept.inStep (h : kept.Kept keyOf) : kept.InStep keyOf := by
  induction h with
  | empty => exact inStep_empty
  | put item _ ih => exact ih.put item
  | ensure key fresh _ ih => exact ih.ensure key fresh
  | modify i hf _ ih => exact ih.modify i hf
  | reindex kept => exact inStep_reindex kept

end Indexed

namespace Node

variable {V : Type} {node : Node V} {index : SortedTable String Nat}

/-- The children are kept with an index. -/
structure IndexedBy (node : Node V) (index : SortedTable String Nat) : Prop where
  /-- The index comes of the operations on the children. -/
  kept : Indexed.Kept label ⟨node.children, index⟩
  /-- It is the only one, whichever operations there were. -/
  unique : ∀ other, Indexed.Kept label ⟨node.children, other⟩ → other = index
  /-- It gives the place of every child under its label, and nothing else. -/
  exact : ∀ name i, index.find? name = some i ↔ ∃ c, node.children[i]? = some c ∧ c.label = name

/-- An index that comes of the operations is the only one, and it is exact. -/
theorem IndexedBy.of_kept (h : Indexed.Kept label ⟨node.children, index⟩) :
    node.IndexedBy index := by
  refine ⟨h, fun other ho => h.inStep.index_eq ho.inStep rfl, fun name i => ?_⟩
  rw [← Option.map_eq_some_iff]
  exact h.inStep name i

/-- The children can be kept with an index exactly if no two of them share a label. -/
theorem exists_index_iff : (∃ index, node.IndexedBy index) ↔ (node.children.map label).Nodup := by
  constructor
  · rintro ⟨index, h⟩
    exact h.kept.inStep.nodup
  · intro hd
    let kept : Indexed String (Node V) := Indexed.reindex label ⟨node.children, ∅⟩
    have hitems : kept.items = node.children :=
      (Indexed.items_reindex _).trans (Replacing.ofList_of_nodup hd)
    refine ⟨kept.index, .of_kept ?_⟩
    rw [← hitems]
    exact .reindex _

/-- Children with the same labels in the same places have the same index. -/
theorem IndexedBy.congr {other : Node V} (h : node.IndexedBy index)
    (hlabels : other.children.map label = node.children.map label) : other.IndexedBy index := by
  have hstep : Indexed.InStep label ⟨other.children, index⟩ := h.kept.inStep.inStep_iff.2 hlabels
  obtain ⟨index', h'⟩ := exists_index_iff.2 hstep.nodup
  have he : index' = index := hstep.index_eq h'.kept.inStep rfl
  exact he ▸ h'

/-! ## Working through an index -/

/-- What is done to the children can be done through the index, which then is the index of the
changed children. -/
structure ServedBy (node : Node V) (index : SortedTable String Nat) : Prop where
  /-- The place of a child is looked up. -/
  place : ∀ name, node.place? name = index.find? name
  /-- The child with a label is in the place that is looked up. -/
  child : ∀ name, node.child? name = (index.find? name).bind fun i => node.children[i]?
  /-- A child is added. -/
  push : ∀ child, ∃ after, (node.push child).IndexedBy after ∧
    Indexed.put label ⟨node.children, index⟩ child =
      (node.pushPlace child, ⟨(node.push child).children, after⟩)
  /-- The child with a label, or a fresh one, is changed and keeps its label. -/
  alterChild : ∀ name fresh f, (∀ c : Node V, (f c).label = c.label) →
    ∃ after, (node.alterChild name fresh f).IndexedBy after ∧
      (Indexed.ensure label ⟨node.children, index⟩ name fresh).2.modify
          (Indexed.ensure label ⟨node.children, index⟩ name fresh).1 f =
        ⟨(node.alterChild name fresh f).children, after⟩

theorem IndexedBy.place?_eq (h : node.IndexedBy index) (name : String) :
    node.place? name = index.find? name :=
  (h.kept.inStep.find?_eq_place? name).symm

theorem IndexedBy.push (h : node.IndexedBy index) (hl : node.layout = .keyed) (child : Node V) :
    ∃ after, (node.push child).IndexedBy after ∧
      Indexed.put label ⟨node.children, index⟩ child =
        (node.pushPlace child, ⟨(node.push child).children, after⟩) := by
  have hitems : (Indexed.put label ⟨node.children, index⟩ child).2.items =
      (node.push child).children := by
    rw [h.kept.inStep.items_put, Node.push, hl]
  have hplace : (Indexed.put label ⟨node.children, index⟩ child).1 = node.pushPlace child := by
    rw [Indexed.put, Node.pushPlace, hl, h.place?_eq]
    cases index.find? child.label <;> rfl
  refine ⟨(Indexed.put label ⟨node.children, index⟩ child).2.index, .of_kept ?_, ?_⟩
  · rw [← hitems]
    exact h.kept.put child
  · rw [← hplace, ← hitems]

theorem IndexedBy.ensureChild (h : node.IndexedBy index) (hl : node.layout = .keyed)
    (name : String) (fresh : Node V) :
    ∃ after, (node.ensureChild name fresh).2.IndexedBy after ∧
      Indexed.ensure label ⟨node.children, index⟩ name fresh =
        ((node.ensureChild name fresh).1, ⟨(node.ensureChild name fresh).2.children, after⟩) := by
  rw [Node.ensureChild, Indexed.ensure, h.place?_eq]
  cases index.find? name with
  | some i => exact ⟨index, h, rfl⟩
  | none => exact h.push hl fresh

/-- The index of a keyed node serves all that is done to its children. -/
theorem IndexedBy.servedBy (h : node.IndexedBy index) (hl : node.layout = .keyed) :
    node.ServedBy index := by
  refine ⟨h.place?_eq, fun name => ?_, h.push hl, fun name fresh f hf => ?_⟩
  · rw [← h.place?_eq, child?_eq_bind_place?]
  · obtain ⟨after, hafter, he⟩ := h.ensureChild hl name fresh
    refine ⟨after, .of_kept ?_, ?_⟩
    · exact hafter.kept.modify _ hf
    · rw [he]
      rfl

end Node

end PathCensus
