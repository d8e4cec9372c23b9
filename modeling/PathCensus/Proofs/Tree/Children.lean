import Mathlib.Data.List.Nodup
import PathCensus.Tree.Node

/-!
# Children by label

A change of the child with a label touches the first child that has it, and makes one at the end if
there is none. So it shows under that label alone, and paths that start with another label lead
where they led before. These laws need no layout and no distinct labels; nodes that are keyed
throughout have both.
-/

namespace PathCensus.Node

variable {V : Type}

/-- A child is smaller than its parent. -/
theorem size_lt_of_mem {node child : Node V} (h : child ∈ node.children) :
    child.size < node.size := by
  obtain ⟨before, after, hsplit⟩ := List.append_of_mem h
  rw [size_eq node, hsplit]
  simp only [sumBy_append, sumBy_cons]
  omega

/-- Induction on a node whose children have the property. -/
@[elab_as_elim]
theorem inductionOn {motive : Node V → Prop} (node : Node V)
    (step : ∀ node, (∀ c ∈ node.children, motive c) → motive node) : motive node := by
  induction hs : node.size using Nat.strongRecOn generalizing node with
  | _ size ih =>
    refine step node fun c hc => ih c.size ?_ c rfl
    rw [← hs]
    exact size_lt_of_mem hc

/-! ## The child with a label -/

/-- What is found has the label and is a child. -/
theorem child?_eq_some {node c : Node V} {label : String} (h : node.child? label = some c) :
    c.label = label ∧ c ∈ node.children :=
  ⟨by simpa using List.find?_some h, List.mem_of_find?_eq_some h⟩

/-- Nothing is found exactly if no child has the label. -/
theorem child?_eq_none_iff {node : Node V} {label : String} :
    node.child? label = none ↔ ∀ c ∈ node.children, c.label ≠ label := by
  simp [child?]

/-- The first child with a label, with the children on both sides of it. -/
theorem child?_eq_some_iff_append {node c : Node V} {label : String} :
    node.child? label = some c ↔ c.label = label ∧ ∃ before after,
      node.children = before ++ c :: after ∧ ∀ b ∈ before, b.label ≠ label := by
  simp [child?, List.find?_eq_some_iff_append]

/-- Among children with distinct labels each is found under its label. -/
theorem child?_of_mem {node c : Node V} (hd : (node.children.map label).Nodup)
    (hc : c ∈ node.children) : node.child? c.label = some c := by
  cases hf : node.child? c.label with
  | none => exact absurd rfl (child?_eq_none_iff.1 hf c hc)
  | some d =>
    obtain ⟨hl, hd'⟩ := child?_eq_some hf
    rw [List.inj_on_of_nodup_map hd hd' hc hl]

/-- The child with a label is the one at its place. -/
theorem child?_eq_bind_place? (node : Node V) (label : String) :
    node.child? label = (node.place? label).bind fun i => node.children[i]? :=
  List.find?_eq_bind_findIdx?_getElem?

private theorem place?_eq_none_iff {node : Node V} {label : String} :
    node.place? label = none ↔ node.child? label = none := by
  simp [place?, Replacing.place?, child?_eq_none_iff]

/-- Adding a child under a new label puts it at the end, whatever the layout. -/
theorem push_of_new {node child : Node V} (h : node.child? child.label = none) :
    node.push child = { node with children := node.children ++ [child] } := by
  have hp : Replacing.place? label child.label node.children = none := place?_eq_none_iff.2 h
  cases hl : node.layout <;> simp [push, hl, Replacing.put, hp]

private theorem pushPlace_of_new {node child : Node V} (h : node.child? child.label = none) :
    node.pushPlace child = node.children.length := by
  have hp := place?_eq_none_iff.2 h
  cases hl : node.layout <;> simp [pushPlace, hl, hp]

/-! ## Changing the child with a label -/

/-- A change at the place between two parts of a list. -/
theorem modify_junction {α : Type} (g : α → α) (a : α) (before after : List α) :
    (before ++ a :: after).modify before.length g = before ++ g a :: after := by
  induction before with
  | nil => rfl
  | cons b before ih => simp [ih]

variable {f : Node V → Node V} {fresh : Node V} {label : String}

/-- A change makes the missing child at the end. -/
theorem alterChild_of_none {node : Node V} (h : node.child? label = none)
    (hfresh : fresh.label = label) :
    node.alterChild label fresh f = { node with children := node.children ++ [f fresh] } := by
  subst hfresh
  have hp := place?_eq_none_iff.2 h
  simp only [alterChild, ensureChild, hp, push_of_new h, pushPlace_of_new h, modify_junction]

/-- A change of a child keeps the children on both sides of it. -/
theorem alterChild_of_append {node c : Node V} {before after : List (Node V)}
    (h : node.children = before ++ c :: after) (hc : c.label = label)
    (hb : ∀ b ∈ before, b.label ≠ label) :
    node.alterChild label fresh f = { node with children := before ++ f c :: after } := by
  have hp : node.place? label = some before.length := by
    rw [place?, Replacing.place?, h, List.findIdx?_append]
    have hnone : before.findIdx? (fun a => decide (a.label = label)) = none := by
      simpa using hb
    rw [hnone, List.findIdx?_cons]
    simp [hc]
  simp only [alterChild, ensureChild, hp, h, modify_junction]

/-- What a change does to the children: one of them is changed in its place, or a new one comes
last. -/
theorem alterChild_cases (node : Node V) (hfresh : fresh.label = label) :
    (∃ c before after, node.child? label = some c ∧ node.children = before ++ c :: after ∧
        (∀ b ∈ before, b.label ≠ label) ∧
        node.alterChild label fresh f = { node with children := before ++ f c :: after }) ∨
      node.child? label = none ∧
        node.alterChild label fresh f = { node with children := node.children ++ [f fresh] } := by
  cases hf : node.child? label with
  | none => exact .inr ⟨rfl, alterChild_of_none hf hfresh⟩
  | some c =>
    obtain ⟨hc, before, after, h, hb⟩ := child?_eq_some_iff_append.1 hf
    exact .inl ⟨c, before, after, rfl, h, hb, alterChild_of_append h hc hb⟩

@[simp] theorem alterChild_label (node : Node V) (name : String) :
    (node.alterChild name fresh f).label = node.label := by
  simp only [alterChild, ensureChild, push]
  split <;> simp only
  split <;> rfl

@[simp] theorem alterChild_value (node : Node V) (name : String) :
    (node.alterChild name fresh f).value = node.value := by
  simp only [alterChild, ensureChild, push]
  split <;> simp only
  split <;> rfl

@[simp] theorem alterChild_layout (node : Node V) (name : String) :
    (node.alterChild name fresh f).layout = node.layout := by
  simp only [alterChild, ensureChild, push]
  split <;> simp only
  split <;> simp_all

/-- A change shows under its label. -/
theorem child?_alterChild_self (node : Node V) (hfresh : fresh.label = label)
    (hf : ∀ c, (f c).label = c.label) :
    (node.alterChild label fresh f).child? label = some (f ((node.child? label).getD fresh)) := by
  rcases alterChild_cases node hfresh with ⟨c, before, after, hc, -, hb, he⟩ | ⟨hnone, he⟩
  · rw [he, hc, child?_eq_some_iff_append]
    exact ⟨(hf c).trans (child?_eq_some hc).1, before, after, rfl, hb⟩
  · rw [he, hnone, child?_eq_some_iff_append]
    exact ⟨(hf fresh).trans hfresh, node.children, [], rfl, child?_eq_none_iff.1 hnone⟩

/-- A change does not show under other labels. -/
theorem child?_alterChild_of_ne (node : Node V) {other : String} (hne : other ≠ label)
    (hfresh : fresh.label = label) (hf : ∀ c, (f c).label = c.label) :
    (node.alterChild label fresh f).child? other = node.child? other := by
  rcases alterChild_cases node hfresh with ⟨c, before, after, hc, h, -, he⟩ | ⟨-, he⟩
  · have hl := (child?_eq_some hc).1
    rw [he, child?, child?, h]
    simp [List.find?_append, hf, hl, hne.symm]
  · rw [he, child?, child?]
    simp [List.find?_append, hf, hfresh, hne.symm]

/-! ## Nodes along paths -/

/-- The value at the end of a path. -/
def valueAt? (node : Node V) (path : List String) : Option V :=
  (node.descend? path).map value

@[simp] theorem descend?_nil (node : Node V) : node.descend? [] = some node := rfl

theorem descend?_cons (node : Node V) (name : String) (path : List String) :
    node.descend? (name :: path) = (node.child? name).bind fun c => c.descend? path := rfl

theorem valueAt?_cons (node : Node V) (name : String) (path : List String) :
    node.valueAt? (name :: path) = (node.child? name).bind fun c => c.valueAt? path := by
  rw [valueAt?, descend?_cons]
  cases node.child? name <;> rfl

/-! ## Properties of all nodes -/

/-- A property of a node and of all that is below it. -/
inductive Everywhere (P : Node V → Prop) : Node V → Prop where
  /-- The node has the property, and so has all that is below each of its children. -/
  | intro {node : Node V} : P node → (∀ c ∈ node.children, Everywhere P c) → Everywhere P node

namespace Everywhere

variable {P Q : Node V → Prop} {node : Node V}

theorem here (h : Everywhere P node) : P node := by
  cases h
  assumption

theorem child (h : Everywhere P node) {c : Node V} (hc : c ∈ node.children) : Everywhere P c := by
  cases h with
  | intro _ hall => exact hall c hc

theorem of_forall (h : ∀ node, P node) (node : Node V) : Everywhere P node := by
  induction node using inductionOn with
  | step node ih => exact .intro (h node) ih

theorem mono (h : Everywhere P node) (himp : ∀ node, P node → Q node) : Everywhere Q node := by
  induction h with
  | intro hp _ ih => exact .intro (himp _ hp) ih

/-- The property holds at the end of every path. -/
theorem descend? (h : Everywhere P node) {path : List String} {found : Node V}
    (hd : node.descend? path = some found) : Everywhere P found := by
  induction path generalizing node with
  | nil =>
    rw [descend?_nil, Option.some.injEq] at hd
    exact hd ▸ h
  | cons name path ih =>
    rw [descend?_cons, Option.bind_eq_some_iff] at hd
    obtain ⟨c, hc, hd⟩ := hd
    exact ih (h.child (child?_eq_some hc).2) hd

/-- A change of the child with a label keeps a property, if the changed node has it at all and the
change of the child keeps it. -/
theorem alterChild (h : Everywhere P node) (hfresh : fresh.label = label)
    (hself : P (node.alterChild label fresh f))
    (hold : ∀ c, node.child? label = some c → Everywhere P c → Everywhere P (f c))
    (hnew : Everywhere P (f fresh)) : Everywhere P (node.alterChild label fresh f) := by
  refine .intro hself fun d hd => ?_
  rcases alterChild_cases (f := f) node hfresh with ⟨c, before, after, hc, hch, -, he⟩ | ⟨-, he⟩
  · rw [he] at hd
    have hall : ∀ b ∈ before ++ c :: after, Everywhere P b := fun b hb => h.child (hch ▸ hb)
    rcases List.mem_append.1 hd with hd | hd
    · exact hall d (List.mem_append_left _ hd)
    · rcases List.mem_cons.1 hd with rfl | hd
      · exact hold c hc (hall c (by simp))
      · exact hall d (by simp [hd])
  · rw [he] at hd
    rcases List.mem_append.1 hd with hd | hd
    · exact h.child hd
    · exact List.mem_singleton.1 hd ▸ hnew

end Everywhere

/-- The node keeps one child per label. -/
structure IsKeyed (node : Node V) : Prop where
  /-- The layout says so. -/
  layout : node.layout = .keyed
  /-- No two children share a label. -/
  distinct : (node.children.map Node.label).Nodup

/-- The node and all that is below it keep one child per label. -/
abbrev Keyed : Node V → Prop := Everywhere IsKeyed

/-- A change of the child with a label leaves one child per label. -/
theorem IsKeyed.alterChild {node : Node V} (h : node.IsKeyed) (hfresh : fresh.label = label)
    (hf : ∀ c, (f c).label = c.label) : (node.alterChild label fresh f).IsKeyed := by
  refine ⟨(alterChild_layout node label).trans h.layout, ?_⟩
  rcases alterChild_cases node hfresh with ⟨c, before, after, -, hch, -, he⟩ | ⟨hnone, he⟩
  · have hd := h.distinct
    rw [hch] at hd
    rw [he]
    simpa [hf] using hd
  · rw [he, List.map_append, List.nodup_append]
    refine ⟨h.distinct, List.nodup_singleton _, ?_⟩
    intro a ha b hb hab
    obtain ⟨c, hc, rfl⟩ := List.mem_map.1 ha
    rw [List.map_singleton, List.mem_singleton, hf, hfresh] at hb
    exact child?_eq_none_iff.1 hnone c hc (hab.trans hb)

end PathCensus.Node
