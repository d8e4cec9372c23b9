import Mathlib.Data.List.Chain
import PathCensus.Proofs.Tree.Splitting
import PathCensus.Tree.Paths

/-!
# How many loops a label ends

Every occurrence of a label in front of the end of a path either ends a loop, or is passed by a loop
of another label and cut out with it, or is there still when all loops are cut out. The last two
befall a label that occurs at all, so it ends fewer loops than it has occurrences. It ends just one
fewer, whatever the label, exactly if no two labels alternate: a loop that is cut out between two
occurrences of another label takes the first of them away, and the second ends no loop.
-/

namespace PathCensus.Canonical

variable {α : Type} [DecidableEq α]

/-- The labels that the round of a loop passes on its way back. -/
def passed (loop : List α) : List α :=
  (round loop).tail.dropLast

/-- The number of loops that a label ends. -/
def loopCount (loops : List (List α)) (a : α) : Nat :=
  loops.countP fun loop => loop.getLast? = some a

/-- The number of loops that pass a label. -/
def passCount (loops : List (List α)) (a : α) : Nat :=
  loops.countP fun loop => a ∈ passed loop

/-- Two labels alternate: each of them occurs again behind an occurrence of the other. -/
def Alternates (path : List α) : Prop :=
  ∃ a b, a ≠ b ∧ [a, b, a, b].Sublist path

/-! ## Paths on which labels alternate -/

omit [DecidableEq α] in
theorem Alternates.mono {first path : List α} (h : Alternates first) (hs : first.Sublist path) :
    Alternates path := by
  obtain ⟨a, b, hne, hsub⟩ := h
  exact ⟨a, b, hne, hsub.trans hs⟩

omit [DecidableEq α] in
/-- Labels that occur once do not alternate. -/
theorem not_alternates_of_nodup {path : List α} (h : path.Nodup) : ¬Alternates path := by
  rintro ⟨a, b, -, hsub⟩
  exact (List.nodup_cons.1 (h.sublist hsub)).1 (by simp)

omit [DecidableEq α] in
/-- A word without equal neighbours that lies in a path with a label doubled lies in the path. -/
theorem sublist_of_twice {word front back : List α} {a : α} (hw : word.IsChain (· ≠ ·))
    (h : word.Sublist (front ++ a :: a :: back)) : word.Sublist (front ++ a :: back) := by
  obtain ⟨first, rest, rfl, hfirst, hrest⟩ := List.sublist_append_iff.1 h
  refine hfirst.append ?_
  rcases List.sublist_cons_iff.1 hrest with hrest | ⟨others, rfl, hothers⟩
  · exact hrest
  · rcases List.sublist_cons_iff.1 hothers with hothers | ⟨others, rfl, -⟩
    · exact hothers.cons_cons a
    · exact absurd rfl (List.isChain_append_cons_cons.1 hw).2.1

/-- Labels alternate on a path exactly if they do so when a round of distinct labels is cut out, or
if what the round passes occurs elsewhere too. -/
theorem alternates_round_iff {before inside after : List α} {c : α}
    (hd : (before ++ c :: inside).Nodup) :
    Alternates (before ++ c :: inside ++ c :: after) ↔
      Alternates (before ++ c :: after) ∨ ∃ a ∈ inside, a ∈ before ++ c :: after := by
  obtain ⟨-, hround, hbefore⟩ := List.nodup_append.1 hd
  constructor
  · rintro ⟨a, b, hne, hsub⟩
    rw [or_iff_not_imp_right]
    intro hnone
    have hpart : ∀ x, [a, b, a, b].count x = 2 → x ∉ inside := by
      intro x htwo hx
      have hle := hsub.count_le x
      have hone : (before ++ c :: inside).count x ≤ 1 := List.nodup_iff_count_le_one.1 hd x
      have hzero : (c :: after).count x = 0 :=
        List.count_eq_zero.2 fun hmem => hnone ⟨x, hx, List.mem_append_right _ hmem⟩
      rw [List.count_append] at hle
      omega
    have ha : a ∉ inside := hpart a (by simp [hne.symm])
    have hb : b ∉ inside := hpart b (by simp [hne])
    have hkept : ∀ part ⊆ before ++ c :: after, part.filter (· ∉ inside) = part :=
      fun part hp => List.filter_eq_self.2 fun x hx =>
        decide_eq_true fun hmem => hnone ⟨x, hmem, hp hx⟩
    have hcut : inside.filter (· ∉ inside) = [] := List.filter_eq_nil_iff.2 (by simp)
    have hfilter := hsub.filter (· ∉ inside)
    have hword : [a, b, a, b].filter (· ∉ inside) = [a, b, a, b] := by simp [ha, hb]
    rw [hword, List.append_cons before, List.filter_append, List.filter_append, hcut,
      hkept (before ++ [c]) (by simp), hkept (c :: after) (by simp), List.append_nil,
      ← List.append_cons] at hfilter
    exact ⟨a, b, hne, sublist_of_twice (by simp [hne, hne.symm]) hfilter⟩
  · rintro (halt | ⟨a, ha, hagain⟩)
    · exact halt.mono ((List.sublist_append_left before (c :: inside)).append_right (c :: after))
    · have hne : c ≠ a := by
        rintro rfl
        exact (List.nodup_cons.1 hround).1 ha
      have hmem : a ∈ after := by
        rcases List.mem_append.1 hagain with hmem | hmem
        · exact absurd rfl (hbefore a hmem a (List.mem_cons_of_mem c ha))
        · exact (List.mem_cons.1 hmem).resolve_left hne.symm
      have hfirst : [c, a].Sublist (c :: inside) := (List.singleton_sublist.2 ha).cons_cons c
      have hsecond : [c, a].Sublist (c :: after) := (List.singleton_sublist.2 hmem).cons_cons c
      refine ⟨c, a, hne, (hfirst.trans (List.sublist_append_right before _)).append hsecond⟩

/-! ## One split -/

/-- A split in front of the end of a path: what the loop passes between the two occurrences of a
label is cut out with the second of them. -/
theorem dropLast_of_split? {path loop left : List α} (h : split? path = some (loop, left)) :
    ∃ before a after, (before ++ a :: passed loop).Nodup ∧ loop.getLast? = some a ∧
      path.dropLast = before ++ a :: passed loop ++ a :: after ∧
      left.dropLast = before ++ a :: after := by
  obtain ⟨before, a, inside, after, hd, hne, rfl, rfl, rfl⟩ := exists_of_split? h
  have hpassed : passed (before ++ a :: inside ++ [a]) = inside := by
    rw [passed, round_of_nodup hd, List.cons_append, List.tail_cons, List.dropLast_concat]
  have hend : ∀ front : List α, (front ++ a :: after).dropLast = front ++ a :: after.dropLast := by
    intro front
    rw [List.dropLast_append_of_ne_nil (List.cons_ne_nil a after), List.dropLast_cons_of_ne_nil hne]
  rw [hpassed]
  exact ⟨before, a, after.dropLast, hd, List.getLast?_concat, hend _, hend before⟩

/-- A split takes away the occurrence that ends the loop and the ones that the loop passes. -/
theorem count_dropLast_of_split? {path loop left : List α} (h : split? path = some (loop, left))
    (a : α) :
    path.dropLast.count a = (if loop.getLast? = some a then 1 else 0) +
      (if a ∈ passed loop then 1 else 0) + left.dropLast.count a := by
  obtain ⟨before, b, after, hd, hlast, hpath, hleft⟩ := dropLast_of_split? h
  have hpassed : (passed loop).Nodup := ((List.nodup_append.1 hd).2.1).of_cons
  rw [hpath, hleft, hlast, ← hpassed.count]
  simp only [List.count_append, List.count_cons, Option.some.injEq, beq_iff_eq]
  omega

/-- A label in front of the end is passed by the loop that is cut out, or is left. -/
theorem mem_dropLast_of_split? {path loop left : List α} (h : split? path = some (loop, left))
    {a : α} (ha : a ∈ path.dropLast) : a ∈ passed loop ∨ a ∈ left.dropLast := by
  obtain ⟨before, b, after, -, -, hpath, hleft⟩ := dropLast_of_split? h
  rw [hpath] at ha
  rw [hleft]
  simp only [List.mem_append, List.mem_cons] at ha ⊢
  grind

/-- Labels alternate in front of the end exactly if they do so on what a split leaves, or if a label
that the loop passes is left as well. -/
theorem alternates_of_split? {path loop left : List α} (h : split? path = some (loop, left)) :
    Alternates path.dropLast ↔
      Alternates left.dropLast ∨ ∃ a ∈ passed loop, a ∈ left.dropLast := by
  obtain ⟨before, c, after, hd, -, hpath, hleft⟩ := dropLast_of_split? h
  rw [hpath, hleft]
  exact alternates_round_iff hd

/-! ## All splits -/

namespace Splits

variable {path last : List α} {loops : List (List α)}

/-- Every occurrence of a label in front of the end goes with a loop that it ends, goes with a loop
that passes it, or is left. -/
theorem count_dropLast (h : Splits path loops last) (a : α) :
    path.dropLast.count a = loopCount loops a + passCount loops a + last.dropLast.count a := by
  induction h with
  | done => simp [loopCount, passCount]
  | cut h _ ih =>
    rw [count_dropLast_of_split? h, ih]
    simp only [loopCount, passCount, List.countP_cons, decide_eq_true_eq]
    omega

/-- A label that occurs in front of the end is passed by a loop or left. -/
theorem pos_of_mem (h : Splits path loops last) {a : α} (ha : a ∈ path.dropLast) :
    0 < passCount loops a + last.dropLast.count a := by
  induction h with
  | done => exact Nat.add_pos_right _ (List.count_pos_iff.2 ha)
  | @cut path loop left last loops h _ ih =>
    have hcount : passCount loops a ≤ passCount (loop :: loops) a := by
      rw [passCount, passCount, List.countP_cons]
      exact Nat.le_add_right _ _
    rcases mem_dropLast_of_split? h ha with hpass | hleft
    · refine Nat.add_pos_left ?_ _
      exact List.countP_pos_iff.2 ⟨loop, List.mem_cons_self, decide_eq_true hpass⟩
    · exact Nat.lt_of_lt_of_le (ih hleft) (Nat.add_le_add_right hcount _)

/-- No label is passed or left more than once exactly if no labels alternate in front of the end. -/
theorem forall_le_one_iff (h : Splits path loops last) :
    (∀ a, passCount loops a + last.dropLast.count a ≤ 1) ↔ ¬Alternates path.dropLast := by
  induction h with
  | done h =>
    have hd := split?_eq_none_iff.1 h
    refine iff_of_true (fun a => ?_) (not_alternates_of_nodup hd)
    rw [passCount, List.countP_nil, Nat.zero_add]
    exact List.nodup_iff_count_le_one.1 hd a
  | @cut path loop left last loops h hsplits ih =>
    have hcount : ∀ a, passCount (loop :: loops) a =
        passCount loops a + if a ∈ passed loop then 1 else 0 := by
      intro a
      simp only [passCount, List.countP_cons, decide_eq_true_eq]
    rw [alternates_of_split? h, not_or, ← ih]
    constructor
    · intro hone
      refine ⟨fun a => ?_, ?_⟩
      · have hle := hone a
        rw [hcount] at hle
        omega
      · rintro ⟨a, hpass, hleft⟩
        have hle := hone a
        have hpos := hsplits.pos_of_mem hleft
        rw [hcount, if_pos hpass] at hle
        omega
    · rintro ⟨hone, hnone⟩ a
      rw [hcount]
      split
      · next hpass =>
        have hzero : left.dropLast.count a = 0 :=
          List.count_eq_zero.2 fun hleft => hnone ⟨a, hpass, hleft⟩
        have hsum := hsplits.count_dropLast a
        omega
      · exact hone a

end Splits

/-- The occurrences of a label in front of the end of a path are as many as the loops that it ends,
the loops of other labels that pass it, and its occurrences on what is left. So a label that occurs
there ends at least one loop less than it has occurrences. It ends just one less, for all labels of
the path, exactly if no two labels alternate in front of the end. -/
theorem loops_counted (path : List α) :
    ∃ loops last, Splits path loops last ∧ paths path = loops ++ [last] ∧
      (∀ a, path.dropLast.count a =
        loopCount loops a + passCount loops a + last.dropLast.count a) ∧
      (∀ a ∈ path.dropLast, loopCount loops a + 1 ≤ path.dropLast.count a) ∧
      ((∀ a ∈ path.dropLast, loopCount loops a + 1 = path.dropLast.count a) ↔
        ¬Alternates path.dropLast) := by
  obtain ⟨loops, last, h, hpaths⟩ := exists_splits path
  refine ⟨loops, last, h, hpaths, h.count_dropLast, fun a ha => ?_, ?_⟩
  · have hsum := h.count_dropLast a
    have hpos := h.pos_of_mem ha
    omega
  · rw [← h.forall_le_one_iff]
    refine forall_congr' fun a => ?_
    have hsum := h.count_dropLast a
    constructor
    · intro hone
      by_cases ha : a ∈ path.dropLast
      · have hcount := hone ha
        omega
      · have hzero : path.dropLast.count a = 0 := List.count_eq_zero.2 ha
        omega
    · intro hle ha
      have hpos := h.pos_of_mem ha
      omega

/-- Where B follows A twice and C comes last, the loop of A takes the first B away. So B occurs
twice in front of the end and ends no loop. -/
theorem loop_of_second_label_missing :
    ∃ tree : Tree, tree.completePaths.map Node.labels = [["A", "B", "A", "B", "C"]] ∧
      tree.canonicalPaths = [["A", "B", "A"], ["A", "B", "C"]] ∧
      Splits ["A", "B", "A", "B", "C"] [["A", "B", "A"]] ["A", "B", "C"] ∧
      ["A", "B", "A", "B", "C"].dropLast.count "B" = 2 ∧
      loopCount [["A", "B", "A"]] "B" = 0 := by
  refine ⟨⟨Node.rootLabel, none, .sequence, [⟨"A", none, .sequence, [⟨"B", none, .sequence,
    [⟨"A", none, .sequence, [⟨"B", none, .sequence, [.leaf "C" none .sequence]⟩]⟩]⟩]⟩]⟩,
    ?_, ?_, .cut ?_ (.done ?_), ?_, ?_⟩ <;> decide +kernel

end PathCensus.Canonical
