import Mathlib.Data.List.Dedup
import Mathlib.Data.List.Perm.Subperm
import PathCensus.Text.Pieces
import PathCensus.Tree.Canonical

/-!
# Where canonical paths repeat labels

A path need not be split exactly if its labels are distinct up to the last one. The scan keeps the
labels it has seen distinct, so a split cuts a path at the first label that repeats: every loop that
is cut off is distinct up to its last label, and so is what is left in the end. Beginnings and ends
of such a path are such paths again.
-/

namespace PathCensus.Canonical

variable {α : Type} [DecidableEq α]

/-! ## Paths that repeat at most their last label -/

omit [DecidableEq α] in
/-- What follows labels leaves them distinct if all but the last label are. -/
theorem nodup_dropLast_append {seen : List α} {a b : α} {rest : List α}
    (h : (seen ++ a :: b :: rest).dropLast.Nodup) : (seen ++ [a]).Nodup := by
  have hsplit : (seen ++ a :: b :: rest).dropLast = seen ++ [a] ++ (b :: rest).dropLast := by
    simp
  rw [hsplit] at h
  exact (List.nodup_append.1 h).1

omit [DecidableEq α] in
/-- The beginnings of a path repeat no more than the path. -/
theorem nodup_dropLast_of_prefix {path first : List α} (h : path.dropLast.Nodup)
    (hp : first <+: path) : first.dropLast.Nodup := by
  obtain ⟨rest, rfl⟩ := hp
  refine List.Nodup.sublist ?_ h
  cases rest with
  | nil => rw [List.append_nil]
  | cons a rest =>
    rw [List.dropLast_append_of_ne_nil (List.cons_ne_nil a rest)]
    exact (List.dropLast_sublist first).trans (List.sublist_append_left _ _)

omit [DecidableEq α] in
/-- The end of a path behind its first label repeats no more than the path. -/
theorem nodup_dropLast_of_cons {a : α} {path : List α} (h : (a :: path).dropLast.Nodup) :
    path.dropLast.Nodup := by
  cases path with
  | nil => exact List.nodup_nil
  | cons b rest =>
    rw [List.dropLast_cons_cons, List.nodup_cons] at h
    exact h.2

/-- Only the last label can occur a second time. -/
theorem count_of_nodup_dropLast {path : List α} (h : path.dropLast.Nodup) (a : α) :
    path.count a ≤ 2 ∧ (path.count a = 2 → path.getLast? = some a) := by
  rcases List.eq_nil_or_concat path with rfl | ⟨front, last, rfl⟩
  · simp
  · rw [List.concat_eq_append, List.dropLast_concat] at h
    have hfront : front.count a ≤ 1 := List.nodup_iff_count_le_one.1 h a
    rw [List.concat_eq_append, List.count_append, List.count_singleton]
    constructor
    · split <;> omega
    · intro htwo
      split at htwo
      · next hlast =>
        rw [List.getLast?_concat, eq_of_beq hlast]
      · omega

/-- Such a path is at most one longer than its number of distinct labels. -/
theorem length_le_of_nodup_dropLast {path : List α} (h : path.dropLast.Nodup) :
    path.length ≤ path.dedup.length + 1 := by
  have hsub : path.dropLast ⊆ path.dedup := by
    intro a ha
    exact List.mem_dedup.2 ((List.dropLast_sublist path).subset ha)
  have hle := (List.Nodup.subperm h hsub).length_le
  rw [List.length_dropLast] at hle
  omega

/-! ## Splitting -/

omit [DecidableEq α] in
private theorem nodup_append_new {seen : List α} {a : α} (hs : seen.Nodup) (ha : a ∉ seen) :
    (seen ++ [a]).Nodup := by
  rw [← List.concat_eq_append]
  exact hs.concat ha

/-- The scan behind distinct labels finds nothing exactly if all but the last label are distinct. -/
theorem splitAfter_eq_none_iff {seen rest : List α} (hs : seen.Nodup) :
    splitAfter seen rest = none ↔ (seen ++ rest).dropLast.Nodup := by
  induction rest generalizing seen with
  | nil =>
    rw [splitAfter, List.append_nil]
    exact iff_of_true rfl (hs.sublist (List.dropLast_sublist seen))
  | cons a rest ih =>
    cases rest with
    | nil =>
      rw [splitAfter, List.dropLast_concat]
      exact iff_of_true rfl hs
    | cons b rest =>
      rw [splitAfter]
      by_cases ha : a ∈ seen
      · rw [if_pos ha]
        constructor
        · intro h
          cases h
        · intro h
          have hboth := (List.nodup_append.1 (nodup_dropLast_append h)).2.2
          exact absurd rfl (hboth a ha a (by simp))
      · rw [if_neg ha, ih (nodup_append_new hs ha), List.append_assoc, List.singleton_append]

/-- The path around a split: the label occurs in front of the scan and once more in it. -/
theorem exists_of_splitAfter {seen rest loop left : List α} (hs : seen.Nodup)
    (h : splitAfter seen rest = some (loop, left)) :
    ∃ before a inside after, (before ++ a :: inside).Nodup ∧ after ≠ [] ∧
      seen ++ rest = before ++ a :: inside ++ a :: after ∧
      loop = before ++ a :: inside ++ [a] ∧ left = before ++ a :: after := by
  induction rest generalizing seen with
  | nil => cases h
  | cons a rest ih =>
    cases rest with
    | nil => cases h
    | cons b rest =>
      rw [splitAfter] at h
      by_cases ha : a ∈ seen
      · rw [if_pos ha, Option.some.injEq, Prod.mk.injEq] at h
        obtain ⟨rfl, rfl⟩ := h
        obtain ⟨before, inside, rfl, hnew⟩ := List.eq_append_cons_of_mem ha
        have htake : (before ++ a :: inside).takeWhile (· ≠ a) = before :=
          Text.takeWhile_ne_append hnew (by simp)
        exact ⟨before, a, inside, b :: rest, hs, List.cons_ne_nil b rest, rfl, rfl, by rw [htake]⟩
      · rw [if_neg ha] at h
        obtain ⟨before, x, inside, after, hd, hne, hpath, hloop, hleft⟩ :=
          ih (nodup_append_new hs ha) h
        rw [List.append_assoc, List.singleton_append] at hpath
        exact ⟨before, x, inside, after, hd, hne, hpath, hloop, hleft⟩

/-- A split cuts a path at the first label that occurs again before the end. -/
theorem exists_of_split? {path loop left : List α} (h : split? path = some (loop, left)) :
    ∃ before a inside after, (before ++ a :: inside).Nodup ∧ after ≠ [] ∧
      path = before ++ a :: inside ++ a :: after ∧
      loop = before ++ a :: inside ++ [a] ∧ left = before ++ a :: after :=
  exists_of_splitAfter List.nodup_nil h

/-- A path need not be split exactly if all but its last label are distinct. -/
theorem split?_eq_none_iff {path : List α} : split? path = none ↔ path.dropLast.Nodup :=
  splitAfter_eq_none_iff List.nodup_nil

/-- A path that need not be split is its only canonical path. -/
theorem paths_of_nodup {path : List α} (h : path.dropLast.Nodup) : paths path = [path] := by
  have hnone := split?_eq_none_iff.2 h
  rw [paths]
  split
  · rfl
  · next loop left he =>
    rw [hnone] at he
    cases he

/-- A loop that is cut off repeats its last label alone. -/
theorem nodup_of_split? {path loop left : List α} (h : split? path = some (loop, left)) :
    loop.dropLast.Nodup := by
  obtain ⟨before, a, inside, after, hd, -, -, rfl, -⟩ := exists_of_split? h
  rwa [List.dropLast_concat]

/-- What is left of a path that was split has at least the repeated label and the one behind it. -/
theorem two_le_length_of_split? {path loop left : List α} (h : split? path = some (loop, left)) :
    2 ≤ left.length := by
  obtain ⟨before, a, inside, after, -, hne, -, -, rfl⟩ := exists_of_split? h
  have hpos := List.length_pos_iff.2 hne
  rw [List.length_append, List.length_cons]
  omega

/-- A path has no more canonical paths than labels. -/
theorem length_paths_le {path : List α} (hne : path ≠ []) : (paths path).length ≤ path.length := by
  induction hn : path.length using Nat.strongRecOn generalizing path with
  | _ n ih =>
    rw [paths]
    split
    · rw [← hn]
      exact List.length_pos_iff.2 hne
    · next loop left he =>
      have hlt := length_lt_of_split? he
      have htwo := two_le_length_of_split? he
      have hleft : left ≠ [] := by
        rintro rfl
        cases htwo
      have hrest := ih left.length (hn ▸ hlt) hleft rfl
      rw [List.length_cons]
      omega

/-- The canonical paths of a path need not be split. -/
theorem nodup_of_mem_paths {path part : List α} (h : part ∈ paths path) : part.dropLast.Nodup := by
  induction hn : path.length using Nat.strongRecOn generalizing path with
  | _ n ih =>
    rw [paths] at h
    split at h
    · next he =>
      rw [List.mem_singleton.1 h]
      exact split?_eq_none_iff.1 he
    · next loop left he =>
      rcases List.mem_cons.1 h with rfl | h
      · exact nodup_of_split? he
      · exact ih left.length (hn ▸ length_lt_of_split? he) h rfl

end PathCensus.Canonical
