/-!
# Tables sorted by key

A finite map kept as its entries in strictly ascending order of key. Equal tables have equal
entries, so equality of tables is equality of what they map.
-/

namespace PathCensus

/-- A finite map from keys to values, its entries ascending by key. -/
structure SortedTable (κ ν : Type) [Ord κ] where
  /-- The entries in order. -/
  entries : List (κ × ν)
  /-- Each key comes before every later one. -/
  ascending : entries.Pairwise fun a b => compare a.1 b.1 = .lt
  deriving DecidableEq

namespace SortedTable

variable {κ ν : Type} [Ord κ]

/-- Set the value under `key` to `f` of the value there, in entries that ascend. -/
def alterEntries (key : κ) (f : Option ν → ν) : List (κ × ν) → List (κ × ν)
  | [] => [(key, f none)]
  | (k, v) :: rest =>
    match compare key k with
    | .lt => (key, f none) :: (k, v) :: rest
    | .eq => (k, f (some v)) :: rest
    | .gt => (k, v) :: alterEntries key f rest

/-- The keys after a change are the old ones and the changed one. -/
theorem exists_of_mem_alterEntries {key : κ} {f : Option ν → ν} {entries : List (κ × ν)}
    {e : κ × ν} (h : e ∈ alterEntries key f entries) : e.1 = key ∨ ∃ o ∈ entries, e.1 = o.1 := by
  induction entries with
  | nil => simp [alterEntries] at h; simp [h]
  | cons o rest ih =>
    obtain ⟨k, v⟩ := o
    simp only [alterEntries] at h
    split at h
    · rcases List.mem_cons.1 h with rfl | h
      · exact .inl rfl
      · exact .inr ⟨e, h, rfl⟩
    · rcases List.mem_cons.1 h with rfl | h
      · exact .inr ⟨(k, v), .head _, rfl⟩
      · exact .inr ⟨e, .tail _ h, rfl⟩
    · rcases List.mem_cons.1 h with rfl | h
      · exact .inr ⟨(k, v), .head _, rfl⟩
      · rcases ih h with h | ⟨o, ho, h⟩
        · exact .inl h
        · exact .inr ⟨o, .tail _ ho, h⟩

/-- A change keeps the entries ascending. -/
theorem pairwise_alterEntries [Std.TransOrd κ] [Std.LawfulEqOrd κ] (key : κ) (f : Option ν → ν)
    {entries : List (κ × ν)} (h : entries.Pairwise fun a b => compare a.1 b.1 = .lt) :
    (alterEntries key f entries).Pairwise fun a b => compare a.1 b.1 = .lt := by
  induction entries with
  | nil => simp [alterEntries]
  | cons o rest ih =>
    obtain ⟨k, v⟩ := o
    have hr := List.pairwise_cons.1 h
    simp only [alterEntries]
    split
    · next hlt =>
      refine List.pairwise_cons.2 ⟨fun b hb => ?_, h⟩
      rcases List.mem_cons.1 hb with rfl | hb
      · exact hlt
      · exact Std.TransCmp.lt_trans hlt (hr.1 b hb)
    · exact List.pairwise_cons.2 ⟨fun b hb => hr.1 b hb, hr.2⟩
    · next hgt =>
      refine List.pairwise_cons.2 ⟨fun b hb => ?_, ih hr.2⟩
      rcases exists_of_mem_alterEntries hb with hb | ⟨o, ho, hb⟩
      · rw [hb]; exact Std.OrientedCmp.lt_of_gt hgt
      · rw [hb]; exact hr.1 o ho

/-- The table without entries. -/
def empty : SortedTable κ ν := ⟨[], .nil⟩

instance : EmptyCollection (SortedTable κ ν) := ⟨empty⟩

instance : Inhabited (SortedTable κ ν) := ⟨empty⟩

/-- Set the value under `key` to `f` of the value there. -/
def alter [Std.TransOrd κ] [Std.LawfulEqOrd κ] (table : SortedTable κ ν) (key : κ)
    (f : Option ν → ν) : SortedTable κ ν :=
  ⟨alterEntries key f table.entries, pairwise_alterEntries key f table.ascending⟩

/-- The value under `key`. -/
def find? (table : SortedTable κ ν) (key : κ) : Option ν :=
  (table.entries.find? fun e => compare e.1 key == .eq).map Prod.snd

/-- The keys, ascending. -/
def keys (table : SortedTable κ ν) : List κ :=
  table.entries.map Prod.fst

end SortedTable

end PathCensus
