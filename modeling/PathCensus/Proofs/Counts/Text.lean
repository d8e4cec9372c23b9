import PathCensus.Proofs.Counts.Lookup
import PathCensus.Proofs.Text.Lines
import PathCensus.Proofs.Text.Numeral

/-!
# Counts from their text

The text of counts is read as the same counts if numerals can name all trees and counts in it, and
is refused otherwise. So whatever is read from the text of counts are these counts.
-/

namespace PathCensus.Counts

/-- Numerals can name all counted trees and their counts. -/
def Nameable (counts : Counts) : Prop :=
  ∀ p ∈ counts.toList, p.1 < Text.numeralLimit ∧ p.2 < Text.numeralLimit

/-- Counts are the counts of their list. -/
theorem ofList_toList (counts : Counts) : ofList counts.toList = counts :=
  empty_union counts

/-- Only the empty counts list nothing. -/
theorem eq_empty_of_toList {counts : Counts} (h : counts.toList = []) : counts = ∅ := by
  rw [← ofList_toList counts, h]
  rfl

theorem renderPair_toList (p : Nat × Nat) :
    (renderPair p).toList = p.1.repr.toList ++ ':' :: p.2.repr.toList := by
  simp [renderPair]

/-- The text of a pair has digits and a colon. -/
theorem mem_renderPair {p : Nat × Nat} {c : Char} (h : c ∈ (renderPair p).toList) :
    c.isDigit = true ∨ c = ':' := by
  rw [renderPair_toList, List.mem_append, List.mem_cons] at h
  rcases h with h | h | h
  · exact .inl (Text.isDigit_of_mem_repr h)
  · exact .inr h
  · exact .inl (Text.isDigit_of_mem_repr h)

/-- A piece without a colon is refused. -/
theorem readPair_of_notMem {piece : List Char} (hcolon : ':' ∉ piece) :
    readPair piece = .error (.noColon (String.ofList piece)) := by
  have hdrop : piece.dropWhile (· ≠ ':') = [] := by
    have h := @Text.dropWhile_ne_append _ _ ':' piece [] hcolon nofun
    rwa [List.append_nil] at h
  simp only [readPair, hdrop]

/-- A text is refused if it has more than white space but no colon and no comma. -/
theorem read_of_trim {text body : List Char} (ht : Text.trim text = body) (hne : body ≠ [])
    (hcolon : ':' ∉ body) (hcomma : ',' ∉ body) :
    read text = .error (.noColon (String.ofList body)) := by
  rw [read, ht]
  split
  · exact absurd rfl hne
  · rw [Text.pieces_of_notMem hcomma, readPairs, readPair_of_notMem hcolon]
    rfl

/-- The text of a pair is read as that pair, exactly if numerals can name both its numbers. -/
theorem readPair_renderPair {p q : Nat × Nat} :
    readPair (renderPair p).toList = .ok q ↔
      q = p ∧ p.1 < Text.numeralLimit ∧ p.2 < Text.numeralLimit := by
  have hcolon : ':' ∉ p.1.repr.toList := Text.notMem_repr (by decide)
  have hleft : (renderPair p).toList.takeWhile (· ≠ ':') = p.1.repr.toList := by
    rw [renderPair_toList, Text.takeWhile_ne_append hcolon (by simp)]
  have hright : (renderPair p).toList.dropWhile (· ≠ ':') = ':' :: p.2.repr.toList := by
    rw [renderPair_toList, Text.dropWhile_ne_append hcolon (by simp)]
  simp only [readPair, hleft, hright, Text.trim_repr, Text.readNumeral_repr]
  by_cases htree : p.1 < Text.numeralLimit
  · by_cases hcount : p.2 < Text.numeralLimit
    · simp only [htree, hcount, if_true, Except.ok.injEq, and_self, and_true]
      exact eq_comm
    · simp [htree, hcount]
  · simp [htree]

/-- The texts of pairs are read as these pairs, exactly if numerals can name all their numbers. -/
theorem readPairs_renderPair {pairs qs : List (Nat × Nat)} :
    readPairs (pairs.map fun p => (renderPair p).toList) = .ok qs ↔
      qs = pairs ∧ ∀ p ∈ pairs, p.1 < Text.numeralLimit ∧ p.2 < Text.numeralLimit := by
  induction pairs generalizing qs with
  | nil => simp [readPairs, eq_comm]
  | cons p rest ih =>
    rw [List.map_cons, readPairs, List.forall_mem_cons]
    constructor
    · intro h
      cases hp : readPair (renderPair p).toList with
      | error fault => simp [hp] at h
      | ok q =>
        obtain ⟨rfl, hsmall⟩ := readPair_renderPair.1 hp
        cases hr : readPairs (rest.map fun p => (renderPair p).toList) with
        | error fault => simp [hp, hr, Except.map] at h
        | ok others =>
          obtain ⟨rfl, hrest⟩ := ih.1 hr
          simp only [hp, hr, Except.map, Except.ok.injEq] at h
          exact ⟨h.symm, hsmall, hrest⟩
    · rintro ⟨rfl, hsmall, hrest⟩
      have hp := readPair_renderPair.2 ⟨rfl, hsmall⟩
      have hr := ih.2 ⟨rfl, hrest⟩
      simp only [hp, hr, Except.map]

theorem render_toList (counts : Counts) :
    counts.render.toList =
      [','].intercalate (counts.toList.map fun p => (renderPair p).toList) := by
  rw [render, String.toList_intercalate, List.map_map]
  rfl

/-- The text of counts has digits, colons and commas. -/
theorem mem_render {counts : Counts} {c : Char} (h : c ∈ counts.render.toList) :
    c.isDigit = true ∨ c = ':' ∨ c = ',' := by
  rw [render_toList] at h
  generalize counts.toList = pairs at h
  induction pairs with
  | nil => simp [List.intercalate] at h
  | cons p rest ih =>
    cases rest with
    | nil =>
      rw [List.map_singleton, List.intercalate_singleton] at h
      exact (mem_renderPair h).imp_right .inl
    | cons q rest =>
      rw [List.map_cons, List.map_cons, List.intercalate_cons_cons, List.append_assoc,
        List.mem_append, List.singleton_append, List.mem_cons] at h
      rcases h with h | h | h
      · exact (mem_renderPair h).imp_right .inl
      · exact .inr (.inr h)
      · exact ih h

/-- The text of counts has no white space. -/
theorem isBlank_of_mem_render {counts : Counts} {c : Char} (h : c ∈ counts.render.toList) :
    Text.isBlank c = false := by
  rcases mem_render h with h | rfl | rfl
  · exact Text.isBlank_of_isDigit h
  · decide
  · decide

/-- The text of counts comes apart into the texts of its pairs. -/
theorem pieces_render {counts : Counts} (h : counts.toList ≠ []) :
    Text.pieces ',' counts.render.toList = counts.toList.map fun p => (renderPair p).toList := by
  rw [render_toList, Text.pieces_intercalate (by simpa using h)]
  intro item hi hmem
  obtain ⟨p, -, rfl⟩ := List.mem_map.1 hi
  rcases mem_renderPair hmem with h | h
  · revert h
    decide
  · revert h
    decide

/-- The text of counts is read pair by pair. -/
theorem read_render_eq_map {counts : Counts} (h : counts.toList ≠ []) :
    read counts.render.toList =
      (readPairs (counts.toList.map fun p => (renderPair p).toList)).map ofList := by
  have hbody : counts.render.toList ≠ [] := by
    intro he
    have hpieces := pieces_render h
    rw [he, Text.pieces_nil] at hpieces
    have hin : [] ∈ counts.toList.map fun p => (renderPair p).toList := by
      rw [← hpieces]
      exact List.mem_singleton_self _
    obtain ⟨p, -, hp⟩ := List.mem_map.1 hin
    simp [renderPair_toList] at hp
  rw [read, Text.trim_of_forall fun c hc => isBlank_of_mem_render hc, ← pieces_render h]
  split
  · next he => exact absurd he hbody
  · rfl

/-- The text of counts is read as these counts, exactly if numerals can name all in them. -/
theorem read_render {counts other : Counts} :
    read counts.render.toList = .ok other ↔ other = counts ∧ counts.Nameable := by
  by_cases hnil : counts.toList = []
  · have hread : read counts.render.toList = .ok ∅ := by
      rw [render_toList, hnil]
      rfl
    have hall : counts.Nameable := by
      intro p hp
      rw [hnil] at hp
      cases hp
    rw [hread, Except.ok.injEq, ← eq_empty_of_toList hnil]
    constructor
    · rintro rfl
      exact ⟨rfl, hall⟩
    · rintro ⟨rfl, -⟩
      rfl
  · rw [read_render_eq_map hnil]
    cases hr : readPairs (counts.toList.map fun p => (renderPair p).toList) with
    | error fault =>
      simp only [Except.map, reduceCtorEq, false_iff, not_and]
      intro _ hall
      rw [readPairs_renderPair.2 ⟨rfl, hall⟩] at hr
      cases hr
    | ok qs =>
      obtain ⟨rfl, hall⟩ := readPairs_renderPair.1 hr
      simp only [Except.map, Except.ok.injEq, ofList_toList]
      constructor
      · rintro rfl
        exact ⟨rfl, hall⟩
      · rintro ⟨rfl, -⟩
        rfl

end PathCensus.Counts
