import Mathlib.Data.List.Defs
import PathCensus.Proofs.Tree.Canonical
import PathCensus.Sum

/-!
# What splitting keeps

A split cuts a path at the two occurrences of a label. The loop is what comes up to the second one,
and the path goes on from the first one as it went on from the second, so the loop shows where it
was cut out. From its loops and from what is left a path can therefore be put together again, and
every step of a path from one label to the next is a step of one of its loops, in the round that the
loop walks, or of what is left. What a split neither makes nor loses, such as a label or a step, shows
on a path exactly if it shows on one of its canonical paths.
-/

namespace PathCensus.Canonical

variable {α : Type} [DecidableEq α]

/-! ## Putting a loop back -/

/-- The place where the last label of a loop occurs first. -/
def returnPlace (loop : List α) : Nat :=
  loop.getLast?.elim 0 fun a => loop.idxOf a

/-- Put a loop back into the path that was left when it was cut out. -/
def insertLoop (loop left : List α) : List α :=
  loop ++ left.drop (returnPlace loop + 1)

/-- The round that a loop walks: from the first occurrence of its last label on. -/
def round (loop : List α) : List α :=
  loop.drop (returnPlace loop)

private theorem returnPlace_eq {before inside : List α} {a : α}
    (hd : (before ++ a :: inside).Nodup) :
    returnPlace (before ++ a :: inside ++ [a]) = before.length := by
  have hnew : a ∉ before := by
    intro ha
    exact (List.nodup_append.1 hd).2.2 a ha a List.mem_cons_self rfl
  rw [returnPlace, List.getLast?_concat, Option.elim_some, List.append_assoc,
    List.idxOf_append_of_notMem hnew, List.cons_append, List.idxOf_cons_self, Nat.add_zero]

/-- The round of a loop that is distinct up to its last label. -/
theorem round_of_nodup {before inside : List α} {a : α} (hd : (before ++ a :: inside).Nodup) :
    round (before ++ a :: inside ++ [a]) = a :: inside ++ [a] := by
  rw [round, returnPlace_eq hd, List.append_assoc, List.drop_left]

/-- The loop of a split, put back, gives the path. -/
theorem insertLoop_of_split? {path loop left : List α} (h : split? path = some (loop, left)) :
    insertLoop loop left = path := by
  obtain ⟨before, a, inside, after, hd, -, rfl, rfl, rfl⟩ := exists_of_split? h
  have hdrop : (before ++ a :: after).drop (before.length + 1) = after := by
    rw [← List.drop_drop, List.drop_left]
    rfl
  rw [insertLoop, returnPlace_eq hd, hdrop]
  simp

/-! ## Steps from label to label -/

omit [DecidableEq α] in
/-- A path has the steps up to one of its labels and the steps from it on. -/
theorem consecutivePairs_append_cons (front back : List α) (a : α) :
    (front ++ a :: back).consecutivePairs =
      (front ++ [a]).consecutivePairs ++ (a :: back).consecutivePairs := by
  induction front with
  | nil => rfl
  | cons x front ih =>
    cases front with
    | nil => rfl
    | cons y front => exact congrArg ((x, y) :: ·) ih

/-- The steps of a path are those of the round that a split cuts out and of what it leaves. -/
theorem count_consecutivePairs_of_split? {path loop left : List α}
    (h : split? path = some (loop, left)) (step : α × α) :
    path.consecutivePairs.count step =
      (round loop).consecutivePairs.count step + left.consecutivePairs.count step := by
  obtain ⟨before, a, inside, after, hd, -, rfl, rfl, rfl⟩ := exists_of_split? h
  have hpath : before ++ a :: inside ++ a :: after = before ++ a :: (inside ++ a :: after) := by
    simp
  rw [round_of_nodup hd, hpath, consecutivePairs_append_cons before, ← List.cons_append,
    consecutivePairs_append_cons (a :: inside), consecutivePairs_append_cons before after a]
  simp only [List.count_append]
  omega

/-! ## All splits -/

/-- Splitting a path until it need not be split any more cuts out loops, in order, and leaves a last
path. -/
inductive Splits : List α → List (List α) → List α → Prop
  | done {path : List α} (h : split? path = none) : Splits path [] path
  | cut {path loop left last : List α} {loops : List (List α)}
      (h : split? path = some (loop, left)) (hleft : Splits left loops last) :
      Splits path (loop :: loops) last

/-- Splitting comes to an end, and the canonical paths are what it makes. -/
theorem exists_splits (path : List α) :
    ∃ loops last, Splits path loops last ∧ paths path = loops ++ [last] := by
  induction hn : path.length using Nat.strongRecOn generalizing path with
  | _ n ih =>
    rw [paths]
    split
    · next he => exact ⟨[], path, .done he, rfl⟩
    · next loop left he =>
      obtain ⟨loops, last, hsplits, hpaths⟩ := ih left.length (hn ▸ length_lt_of_split? he) left rfl
      exact ⟨loop :: loops, last, .cut he hsplits, by rw [hpaths, List.cons_append]⟩

namespace Splits

variable {path last : List α} {loops : List (List α)}

/-- There is one way to split. -/
theorem unique (h : Splits path loops last) {otherLoops : List (List α)} {otherLast : List α}
    (ho : Splits path otherLoops otherLast) : otherLoops = loops ∧ otherLast = last := by
  induction h generalizing otherLoops with
  | done h =>
    cases ho with
    | done => exact ⟨rfl, rfl⟩
    | cut h' => rw [h] at h'; cases h'
  | cut h _ ih =>
    cases ho with
    | done h' => rw [h] at h'; cases h'
    | cut h' hleft =>
      rw [h, Option.some.injEq, Prod.mk.injEq] at h'
      obtain ⟨rfl, rfl⟩ := h'
      obtain ⟨rfl, rfl⟩ := ih hleft
      exact ⟨rfl, rfl⟩

/-- A loop ends at the second occurrence of its last label. -/
theorem exists_of_mem (h : Splits path loops last) {loop : List α} (hl : loop ∈ loops) :
    ∃ front a, loop = front ++ [a] ∧ front.count a = 1 := by
  induction h with
  | done => cases hl
  | cut h _ ih =>
    rcases List.mem_cons.1 hl with rfl | hl
    · obtain ⟨before, a, inside, after, hd, -, -, rfl, -⟩ := exists_of_split? h
      exact ⟨before ++ a :: inside, a, rfl, List.count_eq_one_of_mem hd (by simp)⟩
    · exact ih hl

/-- What is left ends as the path does. -/
theorem getLast?_last (h : Splits path loops last) : last.getLast? = path.getLast? := by
  induction h with
  | done => rfl
  | cut h _ ih =>
    obtain ⟨before, a, inside, after, -, hne, rfl, -, rfl⟩ := exists_of_split? h
    have hend : ∀ front : List α, (front ++ a :: after).getLast? = after.getLast? := by
      intro front
      rw [List.append_cons, List.getLast?_append_of_ne_nil _ hne]
    rw [ih, hend, hend]

/-- The loops, put back from the last one on, give the path. -/
theorem foldr_insertLoop (h : Splits path loops last) : loops.foldr insertLoop last = path := by
  induction h with
  | done => rfl
  | cut h _ ih => rw [List.foldr_cons, ih, insertLoop_of_split? h]

/-- The steps of the path are those of the rounds of its loops and of what is left. -/
theorem count_consecutivePairs (h : Splits path loops last) (step : α × α) :
    path.consecutivePairs.count step =
      sumBy (fun loop => (round loop).consecutivePairs.count step) loops +
        last.consecutivePairs.count step := by
  induction h with
  | done => rw [sumBy_nil, Nat.zero_add]
  | cut h _ ih =>
    rw [count_consecutivePairs_of_split? h, ih, sumBy_cons]
    omega

/-- A path is split at least two times less often than it has labels. -/
theorem length_add_two_le (h : Splits path loops last) (htwo : 2 ≤ path.length) :
    loops.length + 2 ≤ path.length := by
  induction h with
  | done => exact htwo
  | cut h _ ih =>
    have hlt := length_lt_of_split? h
    have hrest := ih (two_le_length_of_split? h)
    rw [List.length_cons]
    omega

end Splits

/-- A path of one label throughout loses one occurrence with each split. -/
theorem splits_replicate (n : Nat) (a : α) :
    Splits (List.replicate (n + 2) a) (List.replicate n [a, a]) [a, a] := by
  induction n with
  | zero =>
    apply Splits.done
    rw [split?_eq_none_iff]
    exact List.nodup_singleton a
  | succ n ih =>
    have hcut : split? (List.replicate (n + 3) a) = some ([a, a], List.replicate (n + 2) a) := by
      simp [split?, splitAfter, List.replicate_succ]
    exact .cut hcut ih

/-- The canonical paths of a path that has a label have one. -/
theorem ne_nil_of_mem_paths {path part : List α} (hne : path ≠ []) (h : part ∈ paths path) :
    part ≠ [] := by
  obtain ⟨loops, last, hsplits, hpaths⟩ := exists_splits path
  rw [hpaths, List.mem_append, List.mem_singleton] at h
  rcases h with hloop | rfl
  · obtain ⟨front, a, rfl, -⟩ := hsplits.exists_of_mem hloop
    exact List.append_ne_nil_of_right_ne_nil front (List.cons_ne_nil a [])
  · rintro rfl
    exact hne (List.getLast?_eq_none_iff.1 hsplits.getLast?_last.symm)

/-! ## What shows on the canonical paths -/

omit [DecidableEq α] in
/-- A step of a path stands somewhere on it. -/
theorem mem_consecutivePairs_iff {path : List α} {a b : α} :
    (a, b) ∈ path.consecutivePairs ↔ ∃ front back, path = front ++ a :: b :: back := by
  constructor
  · intro h
    induction path with
    | nil => cases h
    | cons x path ih =>
      cases path with
      | nil => cases h
      | cons y path =>
        rcases List.mem_cons.1 h with he | h
        · obtain ⟨rfl, rfl⟩ := Prod.mk.inj he
          exact ⟨[], path, rfl⟩
        · obtain ⟨front, back, he⟩ := ih h
          exact ⟨x :: front, back, congrArg (x :: ·) he⟩
  · rintro ⟨front, back, rfl⟩
    rw [consecutivePairs_append_cons]
    exact List.mem_append_right _ List.mem_cons_self

/-- Something that shows on a path if it shows on one of its beginnings, and that a split neither
makes nor loses. -/
structure Persists (P : List α → Prop) : Prop where
  /-- It shows on all longer paths. -/
  extend : ∀ {first path}, first <+: path → P first → P path
  /-- It shows on a path exactly if it shows on its first loop or on what is left. -/
  split : ∀ {path loop left}, split? path = some (loop, left) → (P path ↔ P loop ∨ P left)

namespace Persists

/-- It shows on a path exactly if it shows on a canonical path of it. -/
theorem exists_paths_iff {P : List α → Prop} (h : Persists P) (path : List α) :
    (∃ part ∈ paths path, P part) ↔ P path := by
  obtain ⟨loops, last, hsplits, hpaths⟩ := exists_splits path
  rw [hpaths]
  clear hpaths
  induction hsplits with
  | done => simp
  | cut hcut _ ih =>
    rw [h.split hcut, ← ih, List.cons_append]
    simp only [List.mem_cons, exists_eq_or_imp]

/-- Labels persist. -/
theorem mem (a : α) : Persists (a ∈ ·) := by
  refine ⟨fun hp ha => hp.subset ha, fun hsplit => ?_⟩
  obtain ⟨before, b, inside, after, -, -, rfl, rfl, rfl⟩ := exists_of_split? hsplit
  simp only [List.mem_append, List.mem_cons, List.not_mem_nil, or_false]
  grind

/-- First labels persist. -/
theorem head (a : α) : Persists (fun path => path.head? = some a) := by
  constructor
  · rintro first path ⟨rest, rfl⟩ hf
    rw [List.head?_append, hf, Option.some_or]
  · intro path loop left hsplit
    obtain ⟨before, b, inside, after, -, -, rfl, rfl, rfl⟩ := exists_of_split? hsplit
    cases before <;> simp

/-- Steps persist: what follows the repeated label is the same on the path and on what is left. -/
theorem step (step : α × α) : Persists (step ∈ ·.consecutivePairs) := by
  obtain ⟨a, b⟩ := step
  constructor
  · rintro first path ⟨rest, rfl⟩ hf
    obtain ⟨front, back, rfl⟩ := mem_consecutivePairs_iff.1 hf
    exact mem_consecutivePairs_iff.2 ⟨front, back ++ rest, by simp⟩
  · intro path loop left hsplit
    obtain ⟨before, c, inside, after, -, -, rfl, rfl, rfl⟩ := exists_of_split? hsplit
    have hloop : before ++ c :: inside ++ [c] = before ++ c :: (inside ++ [c]) := by simp
    rw [consecutivePairs_append_cons (before ++ c :: inside), consecutivePairs_append_cons before after,
      hloop, consecutivePairs_append_cons before (inside ++ [c])]
    simp only [List.mem_append]
    grind

end Persists

/-! ## Nothing is lost -/

/-- Splitting loses nothing. It comes to an end and cuts out loops, each of which ends at the second
occurrence of its last label, and leaves a path that ends as the path did. Put back from the last
one on, the loops give the path, so different paths have different canonical paths. A step from one
label to the next occurs in the path as often as in the rounds of its loops and in what is left. -/
theorem paths_lossless (path : List α) :
    ∃ loops last, Splits path loops last ∧ paths path = loops ++ [last] ∧
      (∀ loop ∈ loops, ∃ front a, loop = front ++ [a] ∧ front.count a = 1) ∧
      last.getLast? = path.getLast? ∧
      loops.foldr insertLoop last = path ∧
      (∀ other, paths other = paths path → other = path) ∧
      ∀ a b, path.consecutivePairs.count (a, b) =
        sumBy (fun loop => (round loop).consecutivePairs.count (a, b)) loops +
          last.consecutivePairs.count (a, b) := by
  obtain ⟨loops, last, h, hpaths⟩ := exists_splits path
  refine ⟨loops, last, h, hpaths, fun loop hl => h.exists_of_mem hl, h.getLast?_last,
    h.foldr_insertLoop, fun other he => ?_, fun a b => h.count_consecutivePairs (a, b)⟩
  obtain ⟨otherLoops, otherLast, ho, hother⟩ := exists_splits other
  rw [hother, hpaths, List.append_singleton_inj] at he
  obtain ⟨rfl, rfl⟩ := he
  exact ho.foldr_insertLoop.symm.trans h.foldr_insertLoop

end PathCensus.Canonical
