import Mathlib.Data.List.Induction
import Mathlib.Data.List.Nodup
import PathCensus.Tree.Replacing

/-!
# First places and last items

Of the items that are added under one key the last is kept, in the place that the first took. So the
keys of the list are the added keys without repetitions, in the order in which they first came, and
under each key lies the item that came last.
-/

namespace PathCensus.Replacing

variable {α κ : Type} [DecidableEq κ] {keyOf : α → κ}

/-! ## One item -/

/-- What adding an item does: it takes the place of the first item under its key, or comes last if
there is none. -/
theorem put_cases (keyOf : α → κ) (items : List α) (item : α) :
    (∃ before old after, items = before ++ old :: after ∧ keyOf old = keyOf item ∧
        (∀ a ∈ before, keyOf a ≠ keyOf item) ∧ put keyOf items item = before ++ item :: after) ∨
      (∀ a ∈ items, keyOf a ≠ keyOf item) ∧ put keyOf items item = items ++ [item] := by
  unfold put
  cases hp : place? keyOf (keyOf item) items with
  | none =>
    refine .inr ⟨fun a ha => ?_, rfl⟩
    exact of_decide_eq_false (List.findIdx?_eq_none_iff.1 hp a ha)
  | some i =>
    obtain ⟨hi, hkey, hfirst⟩ := List.findIdx?_eq_some_iff_getElem.1 hp
    refine .inl ⟨items.take i, items[i], items.drop (i + 1), ?_, of_decide_eq_true hkey, ?_, ?_⟩
    · rw [List.getElem_cons_drop, List.take_append_drop]
    · intro a ha
      obtain ⟨j, hj, rfl⟩ := List.mem_take_iff_getElem.1 ha
      have hlt : j < i := by omega
      simpa using hfirst j hlt
    · exact List.set_eq_take_append_cons_drop.trans (if_pos hi)

/-- An item under a new key comes last. -/
theorem put_of_new {items : List α} {item : α} (h : keyOf item ∉ items.map keyOf) :
    put keyOf items item = items ++ [item] := by
  rcases put_cases keyOf items item with ⟨before, old, after, rfl, hkey, -⟩ | ⟨-, hput⟩
  · exact absurd (by simp [← hkey]) h
  · exact hput

/-- Adding an item brings in nothing else. -/
theorem mem_put {items : List α} {item a : α} (h : a ∈ put keyOf items item) :
    a ∈ items ∨ a = item := by
  rcases put_cases keyOf items item with ⟨before, old, after, rfl, -, -, hput⟩ | ⟨-, hput⟩
  · rw [hput, List.mem_append, List.mem_cons] at h
    rcases h with h | rfl | h
    · exact .inl (List.mem_append_left _ h)
    · exact .inr rfl
    · exact .inl (List.mem_append_right _ (List.mem_cons_of_mem old h))
  · rwa [hput, List.mem_append, List.mem_singleton] at h

/-- The key of an item is added at the end if it is new. -/
theorem map_keyOf_put (items : List α) (item : α) :
    (put keyOf items item).map keyOf =
      if keyOf item ∈ items.map keyOf then items.map keyOf
      else items.map keyOf ++ [keyOf item] := by
  rcases put_cases keyOf items item with ⟨before, old, after, rfl, hkey, -, hput⟩ | ⟨hnew, hput⟩
  · rw [hput, if_pos]
    · simp [hkey]
    · simp [← hkey]
  · rw [hput, if_neg, List.map_append, List.map_singleton]
    simpa using hnew

/-- Adding an item repeats no key. -/
theorem nodup_put {items : List α} (h : (items.map keyOf).Nodup) (item : α) :
    ((put keyOf items item).map keyOf).Nodup := by
  rw [map_keyOf_put]
  split
  · exact h
  · next hnew =>
    rw [← List.concat_eq_append, List.nodup_concat]
    exact ⟨hnew, h⟩

/-- An item lies under its key when it was added, and nothing else changes. -/
theorem find?_put (items : List α) (item : α) (key : κ) :
    (put keyOf items item).find? (fun a => keyOf a = key) =
      if keyOf item = key then some item else items.find? fun a => keyOf a = key := by
  rcases put_cases keyOf items item with
    ⟨before, old, after, rfl, hkey, hbefore, hput⟩ | ⟨hnew, hput⟩
  · by_cases he : keyOf item = key
    · subst he
      have hnone : before.find? (fun a => keyOf a = keyOf item) = none := by
        simpa [List.find?_eq_none] using hbefore
      simp [hput, List.find?_append, hnone]
    · simp [hput, List.find?_append, hkey, he]
  · by_cases he : keyOf item = key
    · subst he
      have hnone : items.find? (fun a => keyOf a = keyOf item) = none := by
        simpa [List.find?_eq_none] using hnew
      simp [hput, List.find?_append, hnone]
    · simp [hput, List.find?_append, he]

/-! ## All items -/

theorem ofList_concat (items : List α) (item : α) :
    ofList keyOf (items ++ [item]) = put keyOf (ofList keyOf items) item := by
  simp [ofList, List.foldl_append]

/-- Each key has the place that it took first. -/
theorem map_keyOf_ofList (items : List α) :
    (ofList keyOf items).map keyOf = (items.map keyOf).eraseDups := by
  induction items using List.reverseRecOn with
  | nil => rfl
  | append_singleton items item ih =>
    rw [ofList_concat, map_keyOf_put, ih, List.map_append, List.map_singleton,
      List.eraseDups_append]
    by_cases hmem : keyOf item ∈ items.map keyOf
    · have hold : [keyOf item].removeAll (items.map keyOf) = [] := by
        rw [List.removeAll, List.filter_cons_of_neg (by simpa using hmem), List.filter_nil]
      rw [if_pos (List.mem_eraseDups.2 hmem), hold, List.eraseDups_nil, List.append_nil]
    · have hnew : [keyOf item].removeAll (items.map keyOf) = [keyOf item] := by
        rw [List.removeAll, List.filter_cons_of_pos (by simpa using hmem), List.filter_nil]
      rw [if_neg (mt List.mem_eraseDups.1 hmem), hnew]
      rfl

/-- Under each key lies the item that came last. -/
theorem find?_ofList (items : List α) (key : κ) :
    (ofList keyOf items).find? (fun a => keyOf a = key) =
      items.reverse.find? fun a => keyOf a = key := by
  induction items using List.reverseRecOn with
  | nil => rfl
  | append_singleton items item ih =>
    rw [ofList_concat, find?_put, ih, List.reverse_append, List.reverse_singleton,
      List.singleton_append, List.find?_cons]
    by_cases he : keyOf item = key
    · simp [he]
    · simp [he]

/-- No key is repeated. -/
theorem nodup_ofList (items : List α) : ((ofList keyOf items).map keyOf).Nodup := by
  induction items using List.reverseRecOn with
  | nil => exact List.nodup_nil
  | append_singleton items item ih =>
    rw [ofList_concat]
    exact nodup_put ih item

/-- A list without repeated keys stays as it is. -/
theorem ofList_of_nodup {items : List α} (h : (items.map keyOf).Nodup) :
    ofList keyOf items = items := by
  induction items using List.reverseRecOn with
  | nil => rfl
  | append_singleton items item ih =>
    rw [List.map_append, List.map_singleton, ← List.concat_eq_append, List.nodup_concat] at h
    rw [ofList_concat, ih h.2, put_of_new h.1]

/-- A change that leaves the keys can be made before or after an item is added. -/
theorem put_map {β : Type} {keyOf' : β → κ} {f : α → β} (hf : ∀ a, keyOf' (f a) = keyOf a)
    (items : List α) (item : α) :
    put keyOf' (items.map f) (f item) = (put keyOf items item).map f := by
  have hplace : place? keyOf' (keyOf' (f item)) (items.map f) = place? keyOf (keyOf item) items := by
    simp only [place?, List.findIdx?_map, Function.comp_def, hf]
  rw [put, put, hplace]
  cases place? keyOf (keyOf item) items with
  | none => rw [List.map_append, List.map_singleton]
  | some i => exact List.map_set.symm

/-- A change that leaves the keys can be made before or after the items are added. -/
theorem ofList_map {β : Type} {keyOf' : β → κ} {f : α → β} (hf : ∀ a, keyOf' (f a) = keyOf a)
    (items : List α) : ofList keyOf' (items.map f) = (ofList keyOf items).map f := by
  induction items using List.reverseRecOn with
  | nil => rfl
  | append_singleton items item ih =>
    rw [List.map_append, List.map_singleton, ofList_concat, ih, put_map hf, ofList_concat]

/-- Adding items brings in nothing else. -/
theorem mem_of_mem_ofList {items : List α} {a : α} (h : a ∈ ofList keyOf items) : a ∈ items := by
  induction items using List.reverseRecOn with
  | nil => exact h
  | append_singleton items item ih =>
    rw [ofList_concat] at h
    rcases mem_put h with h | rfl
    · exact List.mem_append_left _ (ih h)
    · exact List.mem_append_right _ (List.mem_singleton_self _)

/-- A list without repeated keys is made of what lies under its keys. -/
theorem filterMap_find?_of_nodup {items : List α} (h : (items.map keyOf).Nodup) :
    ((items.map keyOf).filterMap fun key => items.find? fun a => keyOf a = key) = items := by
  have hself : ∀ a ∈ items, items.find? (fun b => keyOf b = keyOf a) = some a := by
    intro a ha
    cases hf : items.find? (fun b => keyOf b = keyOf a) with
    | none => simpa using List.find?_eq_none.1 hf a ha
    | some b =>
      have hb : keyOf b = keyOf a := by simpa using List.find?_some hf
      rw [List.inj_on_of_nodup_map h (List.mem_of_find?_eq_some hf) ha hb]
  rw [List.filterMap_map]
  exact (List.filterMap_congr hself).trans List.filterMap_some

/-- The added items, as they are kept: each key in its first place with its last item. -/
theorem ofList_eq (items : List α) :
    ofList keyOf items =
      (items.map keyOf).eraseDups.filterMap fun key =>
        items.reverse.find? fun a => keyOf a = key := by
  rw [← map_keyOf_ofList]
  conv_lhs => rw [← filterMap_find?_of_nodup (nodup_ofList items)]
  simp only [find?_ofList]

end PathCensus.Replacing
