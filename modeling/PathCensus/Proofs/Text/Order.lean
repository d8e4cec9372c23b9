import PathCensus.Text.Order

/-!
# The order of lists of names

Lists of names are in a total order, the lexicographic one.
-/

namespace PathCensus.Text

private theorem lt_of_ne_of_not_lt {a b : String} (hne : a ≠ b) (h : ¬a < b) : b < a := by
  rw [← String.not_le]
  intro hle
  exact hne (String.le_antisymm hle (String.not_lt.1 h))

/-- The order of lists of names is the lexicographic one. -/
theorem namesLe_iff {a b : List String} : namesLe a b = true ↔ a = b ∨ List.Lex (· < ·) a b := by
  induction a generalizing b with
  | nil =>
    cases b with
    | nil => simp [namesLe]
    | cons y b => simp [namesLe]
  | cons x a ih =>
    cases b with
    | nil => simp [namesLe]
    | cons y b =>
      rw [namesLe, List.cons_lex_cons_iff]
      by_cases hxy : x = y
      · subst hxy
        have hirrefl := String.lt_irrefl x
        simp only [if_pos, ih, List.cons.injEq, true_and, hirrefl, false_or]
      · simp [hxy]

/-- Of two lists of names, one comes before the other or both are the same. -/
theorem namesLe_total (a b : List String) : (namesLe a b || namesLe b a) = true := by
  induction a generalizing b with
  | nil => rfl
  | cons x a ih =>
    cases b with
    | nil => rfl
    | cons y b =>
      rw [namesLe, namesLe]
      by_cases hxy : x = y
      · rw [if_pos hxy, if_pos hxy.symm]
        exact ih b
      · rw [if_neg hxy, if_neg (Ne.symm hxy)]
        by_cases hlt : x < y
        · simp [hlt]
        · simp [lt_of_ne_of_not_lt hxy hlt]

/-- The order of lists of names is transitive. -/
theorem namesLe_trans {a b c : List String} (hab : namesLe a b = true) (hbc : namesLe b c = true) :
    namesLe a c = true := by
  induction a generalizing b c with
  | nil => rfl
  | cons x a ih =>
    cases b with
    | nil => cases hab
    | cons y b =>
      cases c with
      | nil => cases hbc
      | cons z c =>
        rw [namesLe] at hab hbc ⊢
        by_cases hxy : x = y
        · subst hxy
          rw [if_pos rfl] at hab
          by_cases hxz : x = z
          · rw [if_pos hxz] at hbc ⊢
            exact ih hab hbc
          · rw [if_neg hxz] at hbc ⊢
            exact hbc
        · rw [if_neg hxy, decide_eq_true_eq] at hab
          by_cases hyz : y = z
          · subst hyz
            rw [if_neg hxy, decide_eq_true_eq]
            exact hab
          · rw [if_neg hyz, decide_eq_true_eq] at hbc
            have hlt := String.lt_trans hab hbc
            have hxz : x ≠ z := by
              rintro rfl
              exact String.lt_irrefl x hlt
            rw [if_neg hxz, decide_eq_true_eq]
            exact hlt

/-- Two lists of names that come before each other are the same. -/
theorem namesLe_antisymm {a b : List String} (hab : namesLe a b = true)
    (hba : namesLe b a = true) : a = b := by
  induction a generalizing b with
  | nil =>
    cases b with
    | nil => rfl
    | cons y b => cases hba
  | cons x a ih =>
    cases b with
    | nil => cases hab
    | cons y b =>
      rw [namesLe] at hab hba
      by_cases hxy : x = y
      · subst hxy
        rw [if_pos rfl] at hab hba
        rw [ih hab hba]
      · rw [if_neg hxy, decide_eq_true_eq] at hab
        rw [if_neg (Ne.symm hxy), decide_eq_true_eq] at hba
        exact absurd (String.lt_trans hab hba) (String.lt_irrefl x)

end PathCensus.Text
