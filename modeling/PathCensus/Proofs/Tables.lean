import Mathlib.Data.List.Nodup
import PathCensus.SortedTable

/-!
# Looking up in sorted tables

The entries of a table ascend, so a key has at most one value, and a table is determined by what it
maps. A change is seen under its own key alone.
-/

namespace PathCensus

/-- What each item adds to a fold shows after the fold, next to what was there before. -/
theorem foldl_iff {α β : Type} {f : β → α → β} (shows : β → Prop) {adds : α → Prop}
    (h : ∀ b a, shows (f b a) ↔ shows b ∨ adds a) (items : List α) (start : β) :
    shows (items.foldl f start) ↔ shows start ∨ ∃ a ∈ items, adds a := by
  induction items generalizing start with
  | nil => simp
  | cons a rest ih => rw [List.foldl_cons, ih, h, List.exists_mem_cons_iff, or_assoc]

namespace SortedTable

variable {κ ν : Type} [Ord κ]

/-- The empty table maps nothing. -/
@[simp] theorem find?_empty (key : κ) : (∅ : SortedTable κ ν).find? key = none := rfl

variable [Std.LawfulEqOrd κ]

private theorem compare_ne_eq {a b : κ} (h : a ≠ b) : (compare a b == .eq) = false := by
  simpa only [beq_eq_false_iff_ne, ne_eq, Std.LawfulEqCmp.compare_eq_iff_eq] using h

/-- Entries that ascend have distinct keys. -/
theorem nodup_keys (table : SortedTable κ ν) : table.keys.Nodup := by
  refine List.pairwise_map.2 (table.ascending.imp ?_)
  intro a b hlt he
  rw [he, Std.compare_self] at hlt
  cases hlt

/-- Two entries under one key are the same entry. -/
theorem value_unique (table : SortedTable κ ν) {key : κ} {v w : ν}
    (hv : (key, v) ∈ table.entries) (hw : (key, w) ∈ table.entries) : v = w := by
  have hinj := List.inj_on_of_nodup_map table.nodup_keys hv hw rfl
  exact (Prod.mk.inj hinj).2

/-- Looking up finds exactly the entries. -/
theorem find?_eq_some_iff {table : SortedTable κ ν} {key : κ} {v : ν} :
    table.find? key = some v ↔ (key, v) ∈ table.entries := by
  simp only [find?, Option.map_eq_some_iff]
  constructor
  · rintro ⟨⟨k, w⟩, hf, rfl⟩
    have hk : k = key := by
      simpa only [beq_iff_eq, Std.LawfulEqCmp.compare_eq_iff_eq] using List.find?_some hf
    exact hk ▸ List.mem_of_find?_eq_some hf
  · intro hmem
    cases hf : table.entries.find? fun e => compare e.1 key == .eq with
    | none =>
      have hne := List.find?_eq_none.1 hf (key, v) hmem
      simp only [Std.compare_self, beq_self_eq_true, not_true_eq_false] at hne
    | some e =>
      obtain ⟨k, w⟩ := e
      have hk : k = key := by
        simpa only [beq_iff_eq, Std.LawfulEqCmp.compare_eq_iff_eq] using List.find?_some hf
      subst hk
      exact ⟨(k, w), rfl, table.value_unique (List.mem_of_find?_eq_some hf) hmem⟩

private theorem find?_alterEntries_of_ne {key other : κ} (hne : other ≠ key) (f : Option ν → ν)
    (entries : List (κ × ν)) :
    (alterEntries key f entries).find? (fun e => compare e.1 other == .eq) =
      entries.find? fun e => compare e.1 other == .eq := by
  have hkey := compare_ne_eq hne.symm
  induction entries with
  | nil => simp [alterEntries, hkey]
  | cons o rest ih =>
    obtain ⟨k, v⟩ := o
    simp only [alterEntries]
    split
    · rw [List.find?_cons_of_neg (by simp [hkey])]
    · next heq =>
      have hk := Std.LawfulEqCmp.compare_eq_iff_eq.1 heq
      subst hk
      rw [List.find?_cons_of_neg (by simp [hkey]), List.find?_cons_of_neg (by simp [hkey])]
    · simp only [List.find?_cons, ih]

variable [Std.TransOrd κ]

omit [Std.LawfulEqOrd κ] in
/-- Lists that ascend by key come in one order only. -/
private theorem eq_of_perm_of_ascending {α : Type} (keyOf : α → κ) {xs ys : List α}
    (h : xs.Perm ys) (hx : xs.Pairwise fun a b => compare (keyOf a) (keyOf b) = .lt)
    (hy : ys.Pairwise fun a b => compare (keyOf a) (keyOf b) = .lt) : xs = ys := by
  refine h.eq_of_pairwise ?_ hx hy
  intro x y _ _ hxy hyx
  have hgt := Std.OrientedCmp.gt_iff_lt.2 hyx
  rw [hxy] at hgt
  cases hgt

/-- Tables that map the same keys to the same values are equal. -/
theorem ext_find? {a b : SortedTable κ ν} (h : ∀ key, a.find? key = b.find? key) : a = b := by
  have hmem : ∀ e, e ∈ a.entries ↔ e ∈ b.entries := by
    rintro ⟨key, v⟩
    rw [← find?_eq_some_iff, h key, find?_eq_some_iff]
  have hperm : a.entries.Perm b.entries :=
    (List.perm_ext_iff_of_nodup (List.Nodup.of_map _ a.nodup_keys)
      (List.Nodup.of_map _ b.nodup_keys)).2 hmem
  have he : a.entries = b.entries := eq_of_perm_of_ascending Prod.fst hperm a.ascending b.ascending
  cases a
  cases b
  simpa only [SortedTable.mk.injEq] using he

private theorem find?_alterEntries_self (key : κ) (f : Option ν → ν) {entries : List (κ × ν)}
    (h : entries.Pairwise fun a b => compare a.1 b.1 = .lt) :
    (key, f ((entries.find? fun e => compare e.1 key == .eq).map Prod.snd)) ∈
      alterEntries key f entries := by
  induction entries with
  | nil => simp [alterEntries]
  | cons o rest ih =>
    obtain ⟨k, v⟩ := o
    have hr := List.pairwise_cons.1 h
    simp only [alterEntries]
    split
    · next hlt =>
      have hnone : ((k, v) :: rest).find? (fun e => compare e.1 key == .eq) = none := by
        refine List.find?_eq_none.2 fun e he => ?_
        have hke : compare key e.1 = .lt := by
          rcases List.mem_cons.1 he with rfl | he
          · exact hlt
          · exact Std.TransCmp.lt_trans hlt (hr.1 e he)
        rw [Std.OrientedCmp.gt_iff_lt.2 hke]
        decide
      rw [hnone]
      exact List.mem_cons_self
    · next heq =>
      have hk := Std.LawfulEqCmp.compare_eq_iff_eq.1 heq
      subst hk
      simp [Std.compare_self]
    · next hgt =>
      have hne : (compare k key == .eq) = false := by
        rw [Std.OrientedCmp.lt_of_gt hgt]
        rfl
      rw [List.find?_cons_of_neg (by simp [hne])]
      exact List.mem_cons_of_mem _ (ih hr.2)

/-- A changed key has the changed value. -/
@[simp] theorem find?_alter_self (table : SortedTable κ ν) (key : κ) (f : Option ν → ν) :
    (table.alter key f).find? key = some (f (table.find? key)) :=
  find?_eq_some_iff.2 (find?_alterEntries_self key f table.ascending)

/-- Other keys keep their values. -/
theorem find?_alter_of_ne (table : SortedTable κ ν) {key other : κ} (h : other ≠ key)
    (f : Option ν → ν) : (table.alter key f).find? other = table.find? other := by
  rw [find?, find?, alter, find?_alterEntries_of_ne h]

/-- A change is told by what it makes of the old value. -/
theorem alter_congr {table : SortedTable κ ν} {key : κ} {f g : Option ν → ν}
    (h : f (table.find? key) = g (table.find? key)) : table.alter key f = table.alter key g := by
  refine ext_find? fun other => ?_
  by_cases hkey : other = key
  · subst hkey
    rw [find?_alter_self, find?_alter_self, h]
  · rw [find?_alter_of_ne table hkey, find?_alter_of_ne table hkey]

/-! ## Changed values -/

omit [Std.LawfulEqOrd κ] [Std.TransOrd κ] in
/-- The table with changed values. -/
def mapValues {μ : Type} (g : ν → μ) (table : SortedTable κ ν) : SortedTable κ μ :=
  ⟨table.entries.map fun e => (e.1, g e.2), List.pairwise_map.2 table.ascending⟩

omit [Std.LawfulEqOrd κ] [Std.TransOrd κ] in
@[simp] theorem find?_mapValues {μ : Type} (g : ν → μ) (table : SortedTable κ ν) (key : κ) :
    (table.mapValues g).find? key = (table.find? key).map g := by
  rw [find?, find?, mapValues, List.find?_map, Option.map_map, Option.map_map]
  rfl

/-! ## Keys -/

omit [Std.LawfulEqOrd κ] [Std.TransOrd κ] in
@[simp] theorem keys_empty : (∅ : SortedTable κ ν).keys = [] := rfl

omit [Std.TransOrd κ] in
/-- The keys are what a table maps. -/
theorem mem_keys_iff {table : SortedTable κ ν} {key : κ} :
    key ∈ table.keys ↔ (table.find? key).isSome := by
  rw [keys, List.mem_map, Option.isSome_iff_exists]
  constructor
  · rintro ⟨⟨_, v⟩, he, rfl⟩
    exact ⟨v, find?_eq_some_iff.2 he⟩
  · rintro ⟨v, hv⟩
    exact ⟨(key, v), find?_eq_some_iff.1 hv, rfl⟩

/-- A change adds its own key and no other. -/
theorem mem_keys_alter {table : SortedTable κ ν} {key other : κ} {f : Option ν → ν} :
    other ∈ (table.alter key f).keys ↔ other = key ∨ other ∈ table.keys := by
  by_cases h : other = key
  · subst h
    simp [mem_keys_iff]
  · rw [mem_keys_iff, find?_alter_of_ne table h, ← mem_keys_iff, or_iff_right h]

/-- Keys ascend, so two tables with the same keys have them in the same order, whatever their
values. -/
theorem keys_eq_of_mem_iff {ι : Type} {a : SortedTable κ ν} {b : SortedTable κ ι}
    (h : ∀ key, key ∈ a.keys ↔ key ∈ b.keys) : a.keys = b.keys :=
  eq_of_perm_of_ascending id
    ((List.perm_ext_iff_of_nodup a.nodup_keys b.nodup_keys).2 h)
    (List.pairwise_map.2 a.ascending) (List.pairwise_map.2 b.ascending)

end SortedTable

end PathCensus
