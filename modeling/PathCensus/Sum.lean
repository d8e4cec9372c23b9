/-!
# Sums over lists
-/

namespace PathCensus

variable {α β : Type}

/-- The sum of the numbers that the items of a list stand for. -/
def sumBy (f : α → Nat) : List α → Nat
  | [] => 0
  | a :: rest => f a + sumBy f rest

@[simp] theorem sumBy_nil (f : α → Nat) : sumBy f [] = 0 := rfl

@[simp] theorem sumBy_cons (f : α → Nat) (a : α) (rest : List α) :
    sumBy f (a :: rest) = f a + sumBy f rest := rfl

@[simp] theorem sumBy_append (f : α → Nat) (as bs : List α) :
    sumBy f (as ++ bs) = sumBy f as + sumBy f bs := by
  induction as with
  | nil => simp
  | cons a rest ih => simp [ih, Nat.add_assoc]

@[simp] theorem sumBy_reverse (f : α → Nat) (as : List α) : sumBy f as.reverse = sumBy f as := by
  induction as with
  | nil => rfl
  | cons a rest ih => simp [ih, Nat.add_comm]

@[simp] theorem sumBy_map (f : β → Nat) (g : α → β) (as : List α) :
    sumBy f (as.map g) = sumBy (fun a => f (g a)) as := by
  induction as with
  | nil => rfl
  | cons a rest ih => simp [ih]

@[simp] theorem sumBy_flatMap (f : β → Nat) (g : α → List β) (as : List α) :
    sumBy f (as.flatMap g) = sumBy (fun a => sumBy f (g a)) as := by
  induction as with
  | nil => rfl
  | cons a rest ih => simp [ih]

theorem length_flatMap (g : α → List β) (as : List α) :
    (as.flatMap g).length = sumBy (fun a => (g a).length) as := by
  induction as with
  | nil => rfl
  | cons a rest ih => simp [ih]

theorem sumBy_add (f g : α → Nat) (as : List α) :
    sumBy (fun a => f a + g a) as = sumBy f as + sumBy g as := by
  induction as with
  | nil => rfl
  | cons a rest ih =>
    rw [sumBy_cons, sumBy_cons, sumBy_cons, ih]
    omega

theorem sumBy_mul (factor : Nat) (f : α → Nat) (as : List α) :
    sumBy (fun a => factor * f a) as = factor * sumBy f as := by
  induction as with
  | nil => rfl
  | cons a rest ih => rw [sumBy_cons, sumBy_cons, ih, Nat.mul_add]

theorem sumBy_eq_zero {f : α → Nat} {as : List α} (h : ∀ a ∈ as, f a = 0) : sumBy f as = 0 := by
  induction as with
  | nil => rfl
  | cons a rest ih =>
    rw [sumBy_cons, h a List.mem_cons_self, ih fun b hb => h b (List.mem_cons_of_mem a hb)]

/-- A sum depends on its summands alone. -/
theorem sumBy_congr {f g : α → Nat} {as : List α} (h : ∀ a ∈ as, f a = g a) :
    sumBy f as = sumBy g as := by
  induction as with
  | nil => rfl
  | cons a rest ih =>
    rw [sumBy_cons, sumBy_cons, h a List.mem_cons_self,
      ih fun b hb => h b (List.mem_cons_of_mem a hb)]

/-- A sum does not depend on the order of its summands. -/
theorem sumBy_perm (f : α → Nat) {as bs : List α} (h : as.Perm bs) : sumBy f as = sumBy f bs := by
  induction h with
  | nil => rfl
  | cons a _ ih => rw [sumBy_cons, sumBy_cons, ih]
  | swap a b rest =>
    rw [sumBy_cons, sumBy_cons, sumBy_cons, sumBy_cons]
    omega
  | trans _ _ ih ih' => exact ih.trans ih'

/-- Among distinct items one item adds what it stands for once. -/
theorem sumBy_ite_eq [DecidableEq α] {as : List α} (hd : as.Nodup) (a : α) (count : Nat) :
    sumBy (fun b => if a = b then count else 0) as = if a ∈ as then count else 0 := by
  induction as with
  | nil => rfl
  | cons b rest ih =>
    rw [List.nodup_cons] at hd
    rw [sumBy_cons, ih hd.2]
    by_cases hab : a = b
    · subst hab
      simp [hd.1]
    · simp [hab]

/-- Sums over two lists may be taken in either order. -/
theorem sumBy_comm (f : α → β → Nat) (as : List α) (bs : List β) :
    sumBy (fun a => sumBy (f a) bs) as = sumBy (fun b => sumBy (fun a => f a b) as) bs := by
  induction as with
  | nil => exact (sumBy_eq_zero fun _ _ => rfl).symm
  | cons a rest ih => simp only [sumBy_cons, sumBy_add, ih]

/-- Counting adds 1 for each item that has the property. -/
theorem countP_eq_sumBy (p : α → Bool) (as : List α) :
    as.countP p = sumBy (fun a => if p a then 1 else 0) as := by
  induction as with
  | nil => rfl
  | cons a rest ih => rw [List.countP_cons, sumBy_cons, ih, Nat.add_comm]

/-! ## Bounds -/

/-- Sums are ordered as their summands. -/
theorem sumBy_mono {f g : α → Nat} {as : List α} (h : ∀ a ∈ as, f a ≤ g a) :
    sumBy f as ≤ sumBy g as := by
  induction as with
  | nil => exact Nat.le_refl 0
  | cons a rest ih =>
    have ha := h a List.mem_cons_self
    have hrest := ih fun b hb => h b (List.mem_cons_of_mem a hb)
    rw [sumBy_cons, sumBy_cons]
    omega

/-- A sum is no less than one of its summands. -/
theorem le_sumBy (f : α → Nat) {as : List α} {a : α} (h : a ∈ as) : f a ≤ sumBy f as := by
  induction as with
  | nil => cases h
  | cons b rest ih =>
    rw [sumBy_cons]
    rcases List.mem_cons.1 h with rfl | h
    · exact Nat.le_add_right _ _
    · exact Nat.le_trans (ih h) (Nat.le_add_left _ _)

/-- Leaving items out makes a sum no greater. -/
theorem sumBy_filter_le (f : α → Nat) (p : α → Bool) (as : List α) :
    sumBy f (as.filter p) ≤ sumBy f as := by
  induction as with
  | nil => exact Nat.le_refl 0
  | cons a rest ih =>
    rw [List.filter_cons, sumBy_cons]
    split
    · rw [sumBy_cons]
      omega
    · omega

/-- An item put in the place of another adds at most what it stands for. -/
theorem sumBy_set_le (f : α → Nat) (as : List α) (i : Nat) (a : α) :
    sumBy f (as.set i a) ≤ sumBy f as + f a := by
  induction as generalizing i with
  | nil => exact Nat.zero_le _
  | cons b rest ih =>
    cases i with
    | zero =>
      rw [List.set_cons_zero, sumBy_cons, sumBy_cons]
      omega
    | succ i =>
      have hrest := ih i
      rw [List.set_cons_succ, sumBy_cons, sumBy_cons]
      omega

end PathCensus
