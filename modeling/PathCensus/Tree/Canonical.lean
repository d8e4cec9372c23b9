/-!
# Canonical paths

A path of labels is split wherever a label occurs again before the end: the part up to the second
occurrence is a loop, and the path goes on from the first occurrence as if the loop had not been
walked. The canonical paths of a path are its loops and what is left at the end.
-/

namespace PathCensus.Canonical

variable {α : Type} [DecidableEq α]

/-- Split the rest of a path after `seen`, which repeats no label: the loop up to the first label
seen again, and the path without that loop. The last label of the path never ends a loop. -/
def splitAfter (seen : List α) : List α → Option (List α × List α)
  | [] => none
  | [_] => none
  | a :: b :: rest =>
    if a ∈ seen then some (seen ++ [a], seen.takeWhile (· ≠ a) ++ a :: b :: rest)
    else splitAfter (seen ++ [a]) (b :: rest)

/-- Split a path at its first label that repeats before the end. -/
def split? (path : List α) : Option (List α × List α) :=
  splitAfter [] path

/-- The path without its first loop is shorter than the path. -/
theorem length_lt_of_splitAfter {seen rest loop left : List α}
    (h : splitAfter seen rest = some (loop, left)) : left.length < seen.length + rest.length := by
  induction rest generalizing seen with
  | nil => simp [splitAfter] at h
  | cons a rest ih =>
    cases rest with
    | nil => simp [splitAfter] at h
    | cons b rest =>
      rw [splitAfter] at h
      split at h
      · next ha =>
        obtain ⟨-, rfl⟩ := Prod.mk.inj (Option.some.inj h)
        have hlt : (seen.takeWhile (· ≠ a)).length < seen.length := by
          have hle := (List.takeWhile_prefix (l := seen) (fun x => decide (x ≠ a))).length_le
          rcases Nat.lt_or_eq_of_le hle with hlt | heq
          · exact hlt
          · have hall := List.all_takeWhile (p := fun x => decide (x ≠ a)) (l := seen)
            rw [(List.takeWhile_prefix (fun x => decide (x ≠ a))).eq_of_length heq] at hall
            simpa using List.all_eq_true.1 hall a ha
        simp only [List.length_append, List.length_cons]
        omega
      · have := ih h
        simp only [List.length_append, List.length_cons, List.length_nil] at *
        omega

/-- The path without its first loop is shorter than the path. -/
theorem length_lt_of_split? {path loop left : List α} (h : split? path = some (loop, left)) :
    left.length < path.length := by
  simpa using length_lt_of_splitAfter h

/-- The canonical paths of a path: its loops in order, and the path without them. -/
def paths (path : List α) : List (List α) :=
  match _h : split? path with
  | none => [path]
  | some (loop, left) => loop :: paths left
termination_by path.length
decreasing_by exact length_lt_of_split? ‹_›

end PathCensus.Canonical
