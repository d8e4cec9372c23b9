import PathCensus.Proofs.Tree.Indexed

/-!
# Insertion order

Calls on an empty list under an index add items one after another. Whatever the calls, the list is
the map of what they added: each key is in the place that it took first, with the item that came
last, and the index finds what going through the items finds. One call puts at most one item in its
place and leaves all other places alone. Items may change under the index, and then share keys;
making the index anew gives what adding them in their order gives, and changes nothing exactly if
all keys are the old ones. The children of a node that keeps one child per label are such a list.
-/

namespace PathCensus

namespace Indexed

variable {κ α : Type} [Ord κ] {keyOf : α → κ} {kept : Indexed κ α}

section Calls

variable [Std.TransOrd κ] [Std.LawfulEqOrd κ]

/-! ## Calls in turn -/

theorem ofCalls_concat (calls : List (Call κ α)) (call : Call κ α) :
    ofCalls keyOf (calls ++ [call]) = ((ofCalls keyOf calls).perform keyOf call).2 :=
  List.foldl_concat _ _ _ _

/-- Calls are operations on the list. -/
theorem kept_ofCalls (calls : List (Call κ α)) : (ofCalls keyOf calls).Kept keyOf := by
  induction calls using List.reverseRecOn with
  | nil => exact .empty
  | append_singleton calls call ih =>
    rw [ofCalls_concat]
    cases call with
    | put item => exact ih.put item
    | ensure key fresh => exact ih.ensure key fresh

/-- A key keeps its place when an item is added. -/
theorem place?_put {key : κ} {i : Nat} (h : kept.place? key = some i) (item : α) :
    (kept.put keyOf item).2.place? key = some i := by
  rcases put_cases keyOf kept item with ⟨j, -, hput⟩ | ⟨hf, hput⟩
  · rw [hput]
    exact h
  · have hne : key ≠ keyOf item := by
      rintro rfl
      rw [place?, hf] at h
      cases h
    rw [hput, place?, SortedTable.find?_alter_of_ne _ hne]
    exact h

/-- A key keeps its place in a call. -/
theorem place?_perform {key : κ} {i : Nat} (h : kept.place? key = some i) (call : Call κ α) :
    (kept.perform keyOf call).2.place? key = some i := by
  cases call with
  | put item => exact place?_put h item
  | ensure name fresh =>
    rw [perform, Indexed.ensure]
    split
    · exact h
    · exact place?_put h fresh

/-- A key keeps its place in all calls that follow. -/
theorem place?_ofCalls_append {calls : List (Call κ α)} {key : κ} {i : Nat}
    (h : (ofCalls keyOf calls).place? key = some i) (more : List (Call κ α)) :
    (ofCalls keyOf (calls ++ more)).place? key = some i := by
  induction more using List.reverseRecOn with
  | nil => rwa [List.append_nil]
  | append_singleton more call ih =>
    rw [← List.append_assoc, ofCalls_concat]
    exact place?_perform ih call

/-! ## Making an index anew -/

/-- The loop adds the items in turn. -/
theorem refill_eq_foldl_put (kept : Indexed κ α) (items : List α) :
    kept.refill keyOf items = items.foldl (fun fresh item => (fresh.put keyOf item).2) kept := by
  induction items generalizing kept with
  | nil => rfl
  | cons item rest ih =>
    rw [List.foldl_cons, ← ih, refill, put]
    cases kept.index.find? (keyOf item) <;> rfl

/-- The loop makes what the same items make when they are put by calls. -/
theorem refill_eq_ofCalls (items : List α) :
    refill keyOf ∅ items = ofCalls keyOf (items.map .put) := by
  rw [refill_eq_foldl_put, ofCalls, List.foldl_map]
  rfl

/-- The stale index is not looked at. -/
theorem reindex_eq_refill (items : List α) (index : SortedTable κ Nat) :
    reindex keyOf ⟨items, index⟩ = refill keyOf ∅ items :=
  (refill_eq_foldl_put ∅ items).symm

/-- Making an index anew changes nothing exactly if all keys are the old ones. -/
theorem InStep.reindex_eq_self_iff [DecidableEq κ] (h : kept.InStep keyOf) {items : List α} :
    reindex keyOf ⟨items, kept.index⟩ = ⟨items, kept.index⟩ ↔
      items.map keyOf = kept.items.map keyOf := by
  rw [← h.inStep_iff]
  constructor
  · intro he
    rw [← he]
    exact inStep_reindex _
  · intro hstale
    have hitems : (reindex keyOf ⟨items, kept.index⟩).items = items :=
      (items_reindex _).trans (Replacing.ofList_of_nodup hstale.nodup)
    have hindex : (reindex keyOf ⟨items, kept.index⟩).index = kept.index :=
      hstale.index_eq (inStep_reindex _) hitems
    exact congrArg₂ Indexed.mk hitems hindex

end Calls

variable [DecidableEq κ]

/-! ## What was added -/

/-- What was added after a call, next to what was added before it. What is made for a key counts if
no item with the key was added. -/
def Call.record (keyOf : α → κ) (added : List α) : Call κ α → List α
  | .put item => added ++ [item]
  | .ensure key fresh => if key ∈ added.map keyOf then added else added ++ [fresh]

/-- What calls add to an empty list, in the order of the calls. -/
def added (keyOf : α → κ) (calls : List (Call κ α)) : List α :=
  calls.foldl (Call.record keyOf) []

omit [Ord κ] in
theorem added_concat (calls : List (Call κ α)) (call : Call κ α) :
    added keyOf (calls ++ [call]) = call.record keyOf (added keyOf calls) :=
  List.foldl_concat _ _ _ _

/-- The list is the map of what was added, in the order in which the keys came first. -/
structure InsertionOrdered (keyOf : α → κ) (added : List α) (kept : Indexed κ α) : Prop where
  /-- No two items share a key. -/
  distinct : (kept.items.map keyOf).Nodup
  /-- The index gives the place of every item under its key, and nothing else. -/
  exact : ∀ key i, kept.index.find? key = some i ↔
    ∃ item, kept.items[i]? = some item ∧ keyOf item = key
  /-- Looking up a place gives what going through the items gives. -/
  place : ∀ key, kept.place? key = kept.items.findIdx? fun a => keyOf a = key
  /-- Looking up an item gives what going through the items gives. -/
  get : ∀ key, kept.get? key = kept.items.find? fun a => keyOf a = key
  /-- Each key is in the place that it took first. -/
  order : kept.items.map keyOf = (added.map keyOf).eraseDups
  /-- Under each key lies the item that was added last. -/
  last : ∀ key, kept.get? key = added.reverse.find? fun a => keyOf a = key

/-- An item takes its place, which is that of its key or else the next one. What lies in all other
places stays there. -/
structure Takes (keyOf : α → κ) (before : Indexed κ α) (item : α) (answer : Nat)
    (after : Indexed κ α) : Prop where
  /-- The place is that of the first item with the key, or the one behind all items. -/
  place : answer =
    (before.items.findIdx? fun a => keyOf a = keyOf item).getD before.items.length
  /-- The item lies there. -/
  here : after.items[answer]? = some item
  /-- Nothing else moves or changes. -/
  others : ∀ i, i ≠ answer → after.items[i]? = before.items[i]?

/-- What a call does: the place that it answers with, and the list after it. -/
inductive Effect (keyOf : α → κ) (before : Indexed κ α) : Call κ α → Nat × Indexed κ α → Prop where
  /-- An item is put in its place. -/
  | put {item : α} {answer : Nat} {after : Indexed κ α} :
      Takes keyOf before item answer after → Effect keyOf before (.put item) (answer, after)
  /-- Nothing is made for a key that an item has, and nothing changes. -/
  | found {key : κ} {fresh : α} {i : Nat} :
      before.items.findIdx? (fun a => keyOf a = key) = some i →
      Effect keyOf before (.ensure key fresh) (i, before)
  /-- What is made for a key that no item has is put in the place of its own key. -/
  | made {key : κ} {fresh : α} {answer : Nat} {after : Indexed κ α} :
      (∀ a ∈ before.items, keyOf a ≠ key) → Takes keyOf before fresh answer after →
      Effect keyOf before (.ensure key fresh) (answer, after)

/-- A list that holds the last item of each key is the map of what was added. -/
theorem InStep.insertionOrdered (h : kept.InStep keyOf) {added : List α}
    (hitems : kept.items = Replacing.ofList keyOf added) : kept.InsertionOrdered keyOf added where
  distinct := h.nodup
  exact key i := by rw [h, Option.map_eq_some_iff]
  place := h.find?_eq_place?
  get := h.get?_eq
  order := by rw [hitems, Replacing.map_keyOf_ofList]
  last key := by rw [h.get?_eq, hitems, Replacing.find?_ofList]

/-! ## What calls come to -/

variable [Std.TransOrd κ] [Std.LawfulEqOrd κ]

/-- An item that is added takes its place. -/
theorem InStep.takes_put (h : kept.InStep keyOf) (item : α) :
    Takes keyOf kept item (kept.put keyOf item).1 (kept.put keyOf item).2 := by
  have hplace := h.find?_eq_place? (keyOf item)
  rcases put_cases keyOf kept item with ⟨i, hf, hput⟩ | ⟨hf, hput⟩
  · rw [hf, Replacing.place?] at hplace
    rw [hput]
    refine ⟨by rw [← hplace, Option.getD_some], ?_, fun j hj => ?_⟩
    · exact List.getElem?_set_self (h.lt_length hf)
    · exact List.getElem?_set_ne (Ne.symm hj)
  · rw [hf, Replacing.place?] at hplace
    rw [hput]
    refine ⟨by rw [← hplace, Option.getD_none], List.getElem?_concat_length, fun j hj => ?_⟩
    rcases Nat.lt_or_gt_of_ne hj with hlt | hgt
    · exact List.getElem?_append_left hlt
    · have hlength : (kept.items ++ [item]).length ≤ j := by
        rw [List.length_append, List.length_singleton]
        omega
      rw [List.getElem?_eq_none hlength, List.getElem?_eq_none (Nat.le_of_lt hgt)]

/-- Every call puts an item in its place or finds its key. -/
theorem InStep.effect (h : kept.InStep keyOf) (call : Call κ α) :
    Effect keyOf kept call (kept.perform keyOf call) := by
  cases call with
  | put item => exact .put (h.takes_put item)
  | ensure key fresh =>
    rw [perform, Indexed.ensure]
    cases hf : kept.index.find? key with
    | some i => exact .found ((h.find?_eq_place? key).symm.trans hf)
    | none =>
      refine .made (fun a ha he => ?_) (h.takes_put fresh)
      exact h.find?_eq_none_iff.1 hf (List.mem_map.2 ⟨a, ha, he⟩)

/-- What a call makes of the items, it makes of what was added. -/
theorem InStep.items_perform (h : kept.InStep keyOf) {added : List α}
    (hitems : kept.items = Replacing.ofList keyOf added) (call : Call κ α) :
    (kept.perform keyOf call).2.items = Replacing.ofList keyOf (call.record keyOf added) := by
  have hput : ∀ item, (kept.put keyOf item).2.items = Replacing.ofList keyOf (added ++ [item]) := by
    intro item
    rw [h.items_put, hitems, Replacing.ofList_concat]
  cases call with
  | put item => exact hput item
  | ensure key fresh =>
    have hkeys : kept.index.find? key = none ↔ key ∉ added.map keyOf := by
      rw [h.find?_eq_none_iff, hitems, Replacing.map_keyOf_ofList, List.mem_eraseDups]
    rw [perform, Indexed.ensure, Call.record]
    cases hf : kept.index.find? key with
    | some i =>
      have hmem : key ∈ added.map keyOf := by
        by_contra hno
        rw [hkeys.2 hno] at hf
        cases hf
      rw [if_pos hmem]
      exact hitems
    | none =>
      rw [if_neg (hkeys.1 hf)]
      exact hput fresh

/-- Each key keeps its first place and its last item. -/
theorem items_ofCalls (calls : List (Call κ α)) :
    (ofCalls keyOf calls).items = Replacing.ofList keyOf (added keyOf calls) := by
  induction calls using List.reverseRecOn with
  | nil => rfl
  | append_singleton calls call ih =>
    rw [ofCalls_concat, added_concat]
    exact (kept_ofCalls calls).inStep.items_perform ih call

end Indexed

namespace Node

open Indexed (ofCalls)

variable {V : Type} {node : Node V} {index : SortedTable String Nat}

/-! ## Children -/

/-- Make a call on the children: the place that it answers with, and the node after it. -/
def perform (node : Node V) : Indexed.Call String (Node V) → Nat × Node V
  | .put child => (node.pushPlace child, node.push child)
  | .ensure name fresh => node.ensureChild name fresh

/-- The node after calls on its children, one after another. -/
def afterCalls (node : Node V) (calls : List (Indexed.Call String (Node V))) : Node V :=
  calls.foldl (fun node call => (node.perform call).2) node

theorem afterCalls_concat (node : Node V) (calls : List (Indexed.Call String (Node V)))
    (call : Indexed.Call String (Node V)) :
    node.afterCalls (calls ++ [call]) = ((node.afterCalls calls).perform call).2 :=
  List.foldl_concat _ _ _ _

/-- A call leaves all but the children as it is. -/
theorem perform_eq (node : Node V) (call : Indexed.Call String (Node V)) :
    (node.perform call).2 = { node with children := (node.perform call).2.children } := by
  have hpush : ∀ child : Node V,
      node.push child = { node with children := (node.push child).children } := by
    intro child
    rw [Node.push]
    cases node.layout <;> rfl
  cases call with
  | put child => exact hpush child
  | ensure name fresh =>
    rw [perform, ensureChild]
    cases node.place? name with
    | some i => cases node; rfl
    | none => exact hpush fresh

/-- A call can be made through the index. -/
theorem IndexedBy.perform (h : node.IndexedBy index) (hl : node.layout = .keyed)
    (call : Indexed.Call String (Node V)) :
    ∃ after, (node.perform call).2.IndexedBy after ∧
      Indexed.perform label ⟨node.children, index⟩ call =
        ((node.perform call).1, ⟨(node.perform call).2.children, after⟩) := by
  cases call with
  | put child => exact h.push hl child
  | ensure name fresh => exact h.ensureChild hl name fresh

/-- The index of the list is the index of a node that has its items as children. -/
theorem indexedBy_ofCalls {calls : List (Indexed.Call String (Node V))}
    (hc : node.children = (ofCalls label calls).items) :
    node.IndexedBy (ofCalls label calls).index := by
  refine .of_kept ?_
  rw [hc]
  exact Indexed.kept_ofCalls calls

/-- Calls on a node without children make its children as they make the list. -/
theorem afterCalls_leaf (name : String) (value : V) (calls : List (Indexed.Call String (Node V))) :
    (leaf name value .keyed).afterCalls calls =
      ⟨name, value, .keyed, (ofCalls label calls).items⟩ := by
  induction calls using List.reverseRecOn with
  | nil => rfl
  | append_singleton calls call ih =>
    obtain ⟨after, -, he⟩ := (indexedBy_ofCalls rfl :
      (⟨name, value, .keyed, (ofCalls label calls).items⟩ : Node V).IndexedBy _).perform rfl call
    rw [afterCalls_concat, ih, Indexed.ofCalls_concat, perform_eq, he]

/-- One child per label is a map in insertion order. A node without children that keeps one child
per label takes calls as the list under an index does, and its index serves all that is done to its
children. After any calls the list is the map of what was added; the next call puts at most one
child in its place and leaves the others alone; a label keeps its place in all calls that follow.
Whatever the children are changed to under the index, the loop that makes it anew gives what putting
them in their order gives, and changes nothing exactly if all labels are the old ones. -/
theorem keyed_children_insertion_ordered (name : String) (value : V)
    (calls : List (Indexed.Call String (Node V))) :
    ((leaf name value .keyed).afterCalls calls =
          ⟨name, value, .keyed, (ofCalls label calls).items⟩ ∧
        ((leaf name value .keyed).afterCalls calls).ServedBy (ofCalls label calls).index ∧
        ∀ call, (((leaf name value .keyed).afterCalls calls).perform call).1 =
          ((ofCalls label calls).perform label call).1) ∧
      (ofCalls label calls).InsertionOrdered label (Indexed.added label calls) ∧
      (∀ call, Indexed.Effect label (ofCalls label calls) call
        ((ofCalls label calls).perform label call)) ∧
      (∀ more key i, (ofCalls label calls).place? key = some i →
        (ofCalls label (calls ++ more)).place? key = some i) ∧
      ∀ renamed : List (Node V),
        Indexed.refill label ∅ renamed = ofCalls label (renamed.map .put) ∧
          Indexed.reindex label ⟨renamed, (ofCalls label calls).index⟩ =
            Indexed.refill label ∅ renamed ∧
          (Indexed.refill label ∅ renamed = ⟨renamed, (ofCalls label calls).index⟩ ↔
            renamed.map label = (ofCalls label calls).items.map label) := by
  have hstep : (ofCalls label calls).InStep label := (Indexed.kept_ofCalls calls).inStep
  have hnode := afterCalls_leaf name value calls
  have hindexed : ((leaf name value .keyed).afterCalls calls).IndexedBy
      (ofCalls label calls).index := indexedBy_ofCalls (by rw [hnode])
  refine ⟨⟨hnode, hindexed.servedBy (by rw [hnode]), fun call => ?_⟩,
    hstep.insertionOrdered (Indexed.items_ofCalls calls), hstep.effect,
    fun more _ _ h => Indexed.place?_ofCalls_append h more,
    fun renamed => ⟨Indexed.refill_eq_ofCalls renamed, Indexed.reindex_eq_refill renamed _, ?_⟩⟩
  · obtain ⟨after, -, he⟩ := hindexed.perform (by rw [hnode]) call
    rw [hnode] at he ⊢
    exact (congrArg Prod.fst he).symm
  · rw [← Indexed.reindex_eq_refill renamed (ofCalls label calls).index]
    exact hstep.reindex_eq_self_iff

/-- Two children are put under the label "A" and two are made for the label "B", which none of them
has: the first of these is called "C" and the second "A". -/
def mislabelledCalls : List (Indexed.Call String (Node Nat)) :=
  [.put (.leaf "A" 1 .keyed), .ensure "B" (.leaf "C" 2 .keyed), .put (.leaf "A" 3 .keyed),
    .ensure "B" (.leaf "A" 4 .keyed)]

/-- What was made for "B" lies under its own label, in the place of what had it. The place of "C"
stays when more is added, and when it is called "A" its child takes the place of the other. -/
theorem keyed_children_insertion_ordered_mislabelled :
    (ofCalls label mislabelledCalls).items = [.leaf "A" 4 .keyed, .leaf "C" 2 .keyed] ∧
      (ofCalls label mislabelledCalls).place? "B" = none ∧
      (ofCalls label (mislabelledCalls ++ [.ensure "B" (.leaf "B" 5 .keyed),
        .put (.leaf "C" 6 .keyed)])).place? "C" = some 1 ∧
      Indexed.refill label ∅ [.leaf "A" 4 .keyed, .leaf "A" 2 .keyed] =
        ofCalls label [.put (.leaf "A" 4 .keyed), .put (.leaf "A" 2 .keyed)] ∧
      (ofCalls label [.put (.leaf "A" 4 .keyed), .put (.leaf "A" 2 .keyed)]).items =
        [.leaf "A" 2 .keyed] ∧
      Indexed.refill label ∅ [.leaf "A" 7 .keyed, .leaf "C" 8 .keyed] =
        ⟨[.leaf "A" 7 .keyed, .leaf "C" 8 .keyed], (ofCalls label mislabelledCalls).index⟩ := by
  obtain ⟨-, -, -, hstays, hrenamed⟩ :=
    keyed_children_insertion_ordered "head" 0 mislabelledCalls
  refine ⟨by decide +kernel, by decide +kernel, hstays _ "C" 1 (by decide +kernel),
    (hrenamed _).1, by decide +kernel, (hrenamed _).2.2.2 (by decide +kernel)⟩

end Node

end PathCensus
