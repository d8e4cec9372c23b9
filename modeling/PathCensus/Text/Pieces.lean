/-!
# Cutting a text at a separator

The pieces between separators, and the lines that an ending closes. Both are stated for lists of
any letters, so that they cut bytes and characters alike.
-/

namespace PathCensus.Text

variable {α : Type} [DecidableEq α]

/-- The pieces between the occurrences of `sep`; there is always at least one. -/
def pieces (sep : α) (text : List α) : List (List α) :=
  text.foldr (fun a cut => if a = sep then [] :: cut else (a :: cut.headD []) :: cut.tail) [[]]

/-- A line without the one `mark` that may stand at its end. -/
def dropMark (mark : α) (line : List α) : List α :=
  if line.getLast? = some mark then line.dropLast else line

/-- The pieces as lines: every piece but the last was closed by an ending and loses its `mark`; the
last is a line, kept as it is, only if it is not empty. -/
def closeLines (mark : α) : List (List α) → List (List α)
  | [] => []
  | [last] => if last.isEmpty then [] else [last]
  | line :: next :: rest => dropMark mark line :: closeLines mark (next :: rest)

/-- The lines of a text closed by `ending`, where one `mark` in front of an ending belongs to it. -/
def lines (ending mark : α) (text : List α) : List (List α) :=
  closeLines mark (pieces ending text)

@[simp] theorem pieces_nil (sep : α) : pieces sep [] = [[]] := rfl

theorem pieces_cons (sep a : α) (text : List α) :
    pieces sep (a :: text) =
      if a = sep then [] :: pieces sep text
      else (a :: (pieces sep text).headD []) :: (pieces sep text).tail := rfl

/-- A text has at least one piece. -/
theorem pieces_ne_nil (sep : α) (text : List α) : pieces sep text ≠ [] := by
  cases text with
  | nil => simp
  | cons a text => rw [pieces_cons]; split <;> simp

/-- What stands in front of the first separator, if there is one. -/
theorem takeWhile_ne_append {sep : α} {front behind : List α} (h : sep ∉ front)
    (hb : ∀ a ∈ behind.head?, a = sep) : (front ++ behind).takeWhile (· ≠ sep) = front := by
  induction front with
  | nil =>
    cases behind with
    | nil => rfl
    | cons a rest => exact List.takeWhile_cons_of_neg (by simp [hb a rfl])
  | cons a front ih =>
    rw [List.mem_cons, not_or] at h
    rw [List.cons_append, List.takeWhile_cons, if_pos (decide_eq_true (Ne.symm h.1)), ih h.2]

/-- What stands from the first separator on, if there is one. -/
theorem dropWhile_ne_append {sep : α} {front behind : List α} (h : sep ∉ front)
    (hb : ∀ a ∈ behind.head?, a = sep) : (front ++ behind).dropWhile (· ≠ sep) = behind := by
  have happend := @List.takeWhile_append_dropWhile _ (· ≠ sep) (front ++ behind)
  rw [takeWhile_ne_append h hb] at happend
  exact List.append_cancel_left happend

end PathCensus.Text
