import PathCensus.Proofs.Counts.Text

/-!
# Which texts are counts

A text is read as counts if it is blank or if each of its pieces between commas names a tree and a
count for it. White space around a piece does not matter, so neither does what is cut off the text
at first. The counts of a tree that several pieces name add up.
-/

namespace PathCensus.Counts

/-! ## Pairs -/

/-- A piece names a tree and its count by the numerals on the two sides of its first colon, each
of which may have white space around it. -/
inductive NamesPair : List Char → Nat × Nat → Prop where
  /-- The two sides of the first colon. -/
  | sides {left right : List Char} {tree count : Nat} : ':' ∉ left →
      Text.Numeral (Text.trim left) tree → Text.Numeral (Text.trim right) count →
      NamesPair (left ++ ':' :: right) (tree, count)

/-- A piece without a colon names nothing. -/
theorem NamesPair.colon_mem {piece : List Char} {pair : Nat × Nat} (h : NamesPair piece pair) :
    ':' ∈ piece := by
  cases h
  exact List.mem_append_right _ List.mem_cons_self

/-- What is named depends on the sides of the first colon only. -/
theorem namesPair_iff {left right : List Char} (hleft : ':' ∉ left) {pair : Nat × Nat} :
    NamesPair (left ++ ':' :: right) pair ↔
      Text.Numeral (Text.trim left) pair.1 ∧ Text.Numeral (Text.trim right) pair.2 := by
  constructor
  · intro h
    generalize hp : left ++ ':' :: right = piece at h
    cases h with
    | @sides left' right' tree count hleft' htree hcount =>
      have hl : left = left' := by
        rw [← @Text.takeWhile_ne_append _ _ ':' left (':' :: right) hleft (by simp), hp,
          Text.takeWhile_ne_append hleft' (by simp)]
      subst hl
      obtain rfl : right = right' := by simpa using List.append_cancel_left hp
      exact ⟨htree, hcount⟩
  · rintro ⟨htree, hcount⟩
    exact .sides hleft htree hcount

/-- A piece is read as the pair that it names. -/
theorem readPair_eq_ok_iff {piece : List Char} {pair : Nat × Nat} :
    readPair piece = .ok pair ↔ NamesPair piece pair := by
  by_cases hcolon : ':' ∈ piece
  · obtain ⟨left, right, rfl, hleft⟩ := List.eq_append_cons_of_mem hcolon
    have hfront := @Text.takeWhile_ne_append _ _ ':' left (':' :: right) hleft (by simp)
    have hbehind := @Text.dropWhile_ne_append _ _ ':' left (':' :: right) hleft (by simp)
    rw [namesPair_iff hleft, ← Text.readNumeral_iff, ← Text.readNumeral_iff]
    simp only [readPair, hfront, hbehind]
    cases Text.readNumeral (Text.trim left) with
    | error fault => simp
    | ok tree => cases Text.readNumeral (Text.trim right) <;> simp [Prod.ext_iff]
  · rw [readPair_of_notMem hcolon, eq_false fun h : NamesPair piece pair => hcolon h.colon_mem]
    simp only [reduceCtorEq]

/-- Pieces are read as the pairs that they name, piece by piece. -/
theorem readPairs_eq_ok_iff {pieces : List (List Char)} {pairs : List (Nat × Nat)} :
    readPairs pieces = .ok pairs ↔ List.Forall₂ NamesPair pieces pairs := by
  induction pieces generalizing pairs with
  | nil => simp [readPairs, eq_comm]
  | cons piece rest ih =>
    rw [readPairs, List.forall₂_cons_left_iff]
    constructor
    · intro h
      cases hp : readPair piece with
      | error fault => simp [hp] at h
      | ok pair =>
        cases hr : readPairs rest with
        | error fault => simp [hp, hr, Except.map] at h
        | ok others =>
          simp only [hp, hr, Except.map, Except.ok.injEq] at h
          exact ⟨pair, others, readPair_eq_ok_iff.1 hp, ih.1 hr, h.symm⟩
    · rintro ⟨pair, others, hp, hr, rfl⟩
      rw [readPair_eq_ok_iff.2 hp, ih.2 hr]
      rfl

/-- Pieces name pairs if each of them names one. -/
theorem exists_namesPairs_iff {pieces : List (List Char)} :
    (∃ pairs, List.Forall₂ NamesPair pieces pairs) ↔
      ∀ piece ∈ pieces, ∃ pair, NamesPair piece pair := by
  induction pieces with
  | nil => exact ⟨fun _ => nofun, fun _ => ⟨[], .nil⟩⟩
  | cons piece rest ih =>
    rw [List.forall_mem_cons, ← ih]
    constructor
    · rintro ⟨_, h⟩
      cases h with
      | cons hp hr => exact ⟨⟨_, hp⟩, _, hr⟩
    · rintro ⟨⟨pair, hp⟩, pairs, hr⟩
      exact ⟨pair :: pairs, .cons hp hr⟩

/-! ## White space around a text -/

/-- White space is no colon and no comma. -/
theorem notMem_of_blank {blanks : List Char} (hb : ∀ c ∈ blanks, Text.isBlank c = true) {c : Char}
    (hc : Text.isBlank c = false) : c ∉ blanks := by
  intro h
  rw [hb c h] at hc
  cases hc

/-- White space in front of a piece does not matter. -/
theorem namesPair_append_left {blanks piece : List Char}
    (hb : ∀ c ∈ blanks, Text.isBlank c = true) {pair : Nat × Nat} :
    NamesPair (blanks ++ piece) pair ↔ NamesPair piece pair := by
  have hblanks : ':' ∉ blanks := notMem_of_blank hb (by decide)
  by_cases hcolon : ':' ∈ piece
  · obtain ⟨left, right, rfl, hleft⟩ := List.eq_append_cons_of_mem hcolon
    have hboth : ':' ∉ blanks ++ left := by simpa using ⟨hblanks, hleft⟩
    rw [← List.append_assoc, namesPair_iff hboth, namesPair_iff hleft, Text.trim_append_left hb]
  · have hboth : ':' ∉ blanks ++ piece := by simpa using ⟨hblanks, hcolon⟩
    exact ⟨fun h => absurd h.colon_mem hboth, fun h => absurd h.colon_mem hcolon⟩

/-- White space behind a piece does not matter. -/
theorem namesPair_append_right {blanks piece : List Char}
    (hb : ∀ c ∈ blanks, Text.isBlank c = true) {pair : Nat × Nat} :
    NamesPair (piece ++ blanks) pair ↔ NamesPair piece pair := by
  have hblanks : ':' ∉ blanks := notMem_of_blank hb (by decide)
  by_cases hcolon : ':' ∈ piece
  · obtain ⟨left, right, rfl, hleft⟩ := List.eq_append_cons_of_mem hcolon
    rw [List.append_assoc, List.cons_append, namesPair_iff hleft, namesPair_iff hleft,
      Text.trim_append_right hb]
  · have hboth : ':' ∉ piece ++ blanks := by simpa using ⟨hcolon, hblanks⟩
    exact ⟨fun h => absurd h.colon_mem hboth, fun h => absurd h.colon_mem hcolon⟩

/-- White space in front of a text does not change what its pieces name. -/
theorem namesPairs_append_left {blanks text : List Char}
    (hb : ∀ c ∈ blanks, Text.isBlank c = true) {pairs : List (Nat × Nat)} :
    List.Forall₂ NamesPair (Text.pieces ',' (blanks ++ text)) pairs ↔
      List.Forall₂ NamesPair (Text.pieces ',' text) pairs := by
  have hblanks : ',' ∉ blanks := notMem_of_blank hb (by decide)
  by_cases hcomma : ',' ∈ text
  · obtain ⟨piece, rest, rfl, hpiece⟩ := List.eq_append_cons_of_mem hcomma
    have hboth : ',' ∉ blanks ++ piece := by simpa using ⟨hblanks, hpiece⟩
    rw [← List.append_assoc, Text.pieces_append_sep hboth, Text.pieces_append_sep hpiece,
      List.forall₂_cons_left_iff, List.forall₂_cons_left_iff]
    simp only [namesPair_append_left hb]
  · have hboth : ',' ∉ blanks ++ text := by simpa using ⟨hblanks, hcomma⟩
    rw [Text.pieces_of_notMem hboth, Text.pieces_of_notMem hcomma, List.forall₂_cons_left_iff,
      List.forall₂_cons_left_iff]
    simp only [namesPair_append_left hb]

/-- White space behind a text does not change what its pieces name. -/
theorem namesPairs_append_right {blanks text : List Char}
    (hb : ∀ c ∈ blanks, Text.isBlank c = true) {pairs : List (Nat × Nat)} :
    List.Forall₂ NamesPair (Text.pieces ',' (text ++ blanks)) pairs ↔
      List.Forall₂ NamesPair (Text.pieces ',' text) pairs := by
  have hblanks : ',' ∉ blanks := notMem_of_blank hb (by decide)
  induction text using Text.separated_induction ',' generalizing pairs with
  | last text hcomma =>
    have hboth : ',' ∉ text ++ blanks := by simpa using ⟨hcomma, hblanks⟩
    rw [Text.pieces_of_notMem hboth, Text.pieces_of_notMem hcomma, List.forall₂_cons_left_iff,
      List.forall₂_cons_left_iff]
    simp only [namesPair_append_right hb]
  | cut piece rest hpiece ih =>
    rw [List.append_assoc, List.cons_append, Text.pieces_append_sep hpiece,
      Text.pieces_append_sep hpiece, List.forall₂_cons_left_iff, List.forall₂_cons_left_iff]
    simp only [ih]

/-- What is cut off a text does not change what its pieces name. -/
theorem namesPairs_trim (text : List Char) {pairs : List (Nat × Nat)} :
    List.Forall₂ NamesPair (Text.pieces ',' (Text.trim text)) pairs ↔
      List.Forall₂ NamesPair (Text.pieces ',' text) pairs := by
  obtain ⟨front, behind, hsplit, hfront, hbehind⟩ := Text.exists_trim text
  conv => rhs; rw [hsplit]
  rw [namesPairs_append_right hbehind, namesPairs_append_left hfront]

/-- A blank text is read as no counts. -/
theorem read_of_blank {text : List Char} (hb : ∀ c ∈ text, Text.isBlank c = true) :
    read text = .ok ∅ := by
  rw [read, Text.trim_eq_nil_iff.2 hb]
  rfl

/-- Any other text is read as the counts of the pairs that its pieces name. -/
theorem read_eq_ok_iff {text : List Char} (hb : ¬ ∀ c ∈ text, Text.isBlank c = true)
    {counts : Counts} : read text = .ok counts ↔
      ∃ pairs, List.Forall₂ NamesPair (Text.pieces ',' text) pairs ∧ ofList pairs = counts := by
  have hread : read text = (readPairs (Text.pieces ',' (Text.trim text))).map ofList := by
    rw [read]
    split
    · next hnil => exact absurd (Text.trim_eq_nil_iff.1 hnil) hb
    · rfl
  simp only [hread, ← namesPairs_trim text, ← readPairs_eq_ok_iff]
  cases readPairs (Text.pieces ',' (Text.trim text)) <;> simp [Except.map]

/-! ## Repeated trees -/

/-- The entry of a tree among the counts of pairs is what they count for it together. -/
theorem count?_ofList (pairs : List (Nat × Nat)) (tree : Nat) :
    (ofList pairs).count? tree = tally? pairs tree := by
  have h := count?_addAll ∅ pairs tree
  rw [count?_empty] at h
  exact h.trans Option.merge_none_left

/-- The counts of two lists of pairs are the sum of the counts of each. -/
theorem ofList_append (xs ys : List (Nat × Nat)) : ofList (xs ++ ys) = ofList xs ∪ ofList ys := by
  refine ext_count? fun tree => ?_
  have happend : ofList (xs ++ ys) = (ofList xs).addAll ys := List.foldl_append
  rw [happend, count?_addAll, count?_union, count?_ofList ys]

/-- The counts of pairs list the trees that they name, in ascending order, each with what they
count for it together. -/
theorem toList_ofList (pairs : List (Nat × Nat)) :
    ∃ trees : List Nat, trees.Pairwise (· < ·) ∧ (∀ tree, tree ∈ trees ↔ tree ∈ pairs.map Prod.fst) ∧
      (ofList pairs).toList = trees.map fun tree => (tree, tally pairs tree) := by
  have hentry : ∀ p, p ∈ (ofList pairs).toList ↔
      p.1 ∈ pairs.map Prod.fst ∧ p.2 = tally pairs p.1 := by
    intro p
    rw [← count?_eq_some_iff, count?_ofList, tally?]
    split <;> simp_all [eq_comm]
  refine ⟨(ofList pairs).toList.map Prod.fst,
    List.pairwise_map.2 ((ofList pairs).table.ascending.imp Nat.compare_eq_lt.1), ?_, ?_⟩
  · intro tree
    rw [List.mem_map]
    constructor
    · rintro ⟨p, hp, rfl⟩
      exact ((hentry p).1 hp).1
    · intro htree
      exact ⟨(tree, tally pairs tree), (hentry _).2 ⟨htree, rfl⟩, rfl⟩
  · rw [List.map_map]
    refine (List.map_id _).symm.trans (List.map_congr_left fun p hp => ?_)
    exact Prod.ext rfl ((hentry p).1 hp).2

/-- The counts of pairs are written as the trees that they name, in ascending order, each with what
they count for it together. -/
theorem render_ofList (pairs : List (Nat × Nat)) :
    ∃ trees : List Nat, trees.Pairwise (· < ·) ∧ (∀ tree, tree ∈ trees ↔ tree ∈ pairs.map Prod.fst) ∧
      (ofList pairs).render =
        ",".intercalate (trees.map fun tree => tree.repr ++ ":" ++ (tally pairs tree).repr) := by
  obtain ⟨trees, hascending, hmem, hlist⟩ := toList_ofList pairs
  refine ⟨trees, hascending, hmem, ?_⟩
  rw [render, hlist, List.map_map]
  rfl

/-- The text of counts is read as these counts. A text is read if it is blank, as no counts, or if
each of its pieces names a tree and a count: then the entry of a tree is the sum over the pieces that
name it, and the counts are written with the named trees in ascending order. Two texts with a comma
between them are read as the sum of what each is read as. -/
theorem text_faithful :
    (∀ counts : Counts, counts.Nameable → read counts.render.toList = .ok counts) ∧
      (∀ text, (∃ counts, read text = .ok counts) ↔
        (∀ c ∈ text, Text.isBlank c = true) ∨
          ∀ piece ∈ Text.pieces ',' text, ∃ pair, NamesPair piece pair) ∧
      (∀ text, (∀ c ∈ text, Text.isBlank c = true) → read text = .ok ∅) ∧
      (∀ text counts, ¬ (∀ c ∈ text, Text.isBlank c = true) → read text = .ok counts →
        ∃ pairs, List.Forall₂ NamesPair (Text.pieces ',' text) pairs ∧
          (∀ tree, counts.count? tree = tally? pairs tree) ∧
          ∃ trees : List Nat, trees.Pairwise (· < ·) ∧
            (∀ tree, tree ∈ trees ↔ tree ∈ pairs.map Prod.fst) ∧
            counts.render =
              ",".intercalate (trees.map fun tree => tree.repr ++ ":" ++ (tally pairs tree).repr)) ∧
      ∀ front behind a b, ¬ (∀ c ∈ front, Text.isBlank c = true) →
        ¬ (∀ c ∈ behind, Text.isBlank c = true) → read front = .ok a → read behind = .ok b →
        read (front ++ ',' :: behind) = .ok (a ∪ b) := by
  refine ⟨fun counts hc => read_render.2 ⟨rfl, hc⟩, fun text => ?_, fun text => read_of_blank,
    fun text counts hb hread => ?_, fun front behind a b hfront hbehind ha hb => ?_⟩
  · by_cases hb : ∀ c ∈ text, Text.isBlank c = true
    · exact ⟨fun _ => .inl hb, fun _ => ⟨∅, read_of_blank hb⟩⟩
    · rw [← exists_namesPairs_iff, or_iff_right hb]
      constructor
      · rintro ⟨counts, hread⟩
        obtain ⟨pairs, hpairs, -⟩ := (read_eq_ok_iff hb).1 hread
        exact ⟨pairs, hpairs⟩
      · rintro ⟨pairs, hpairs⟩
        exact ⟨ofList pairs, (read_eq_ok_iff hb).2 ⟨pairs, hpairs, rfl⟩⟩
  · obtain ⟨pairs, hpairs, rfl⟩ := (read_eq_ok_iff hb).1 hread
    exact ⟨pairs, hpairs, count?_ofList pairs, render_ofList pairs⟩
  · obtain ⟨xs, hxs, rfl⟩ := (read_eq_ok_iff hfront).1 ha
    obtain ⟨ys, hys, rfl⟩ := (read_eq_ok_iff hbehind).1 hb
    have hjoined : ¬ ∀ c ∈ front ++ ',' :: behind, Text.isBlank c = true := by
      intro h
      have hcomma := h ',' (List.mem_append_right _ List.mem_cons_self)
      revert hcomma
      decide
    refine (read_eq_ok_iff hjoined).2 ⟨xs ++ ys, ?_, ofList_append xs ys⟩
    rw [Text.pieces_append]
    exact List.rel_append hxs hys

/-- A count of 0 is written and read; white space, a plus sign and a leading zero are read, and a
tree named on both sides of a comma is counted twice. -/
theorem text_faithful_repeated :
    read (ofList [(3, 0), (0, 2)]).render.toList = .ok (ofList [(3, 0), (0, 2)]) ∧
      read [' ', '\n'] = .ok ∅ ∧
      (∃ pairs, List.Forall₂ NamesPair (Text.pieces ',' ['+', '0', ':', '2', ',', '3', ':', '0', '4'])
          pairs ∧ (ofList [(0, 2), (3, 4)]).count? 3 = tally? pairs 3) ∧
      read ([' ', '3', ' ', ':', '1', ' '] ++ ',' :: ['+', '0', ':', '2', ',', '3', ':', '0', '4']) =
        .ok (ofList [(3, 1)] ∪ ofList [(0, 2), (3, 4)]) := by
  obtain ⟨hround, -, hblank, hsum, hunion⟩ := text_faithful
  have hread : read ['+', '0', ':', '2', ',', '3', ':', '0', '4'] = .ok (ofList [(0, 2), (3, 4)]) :=
    rfl
  have hspaced : ¬ ∀ c ∈ [' ', '3', ' ', ':', '1', ' '], Text.isBlank c = true :=
    fun h => Bool.false_ne_true (h '3' (by simp))
  have hsigned : ¬ ∀ c ∈ ['+', '0', ':', '2', ',', '3', ':', '0', '4'], Text.isBlank c = true :=
    fun h => Bool.false_ne_true (h '3' (by simp))
  obtain ⟨pairs, hpairs, hcounts, -⟩ := hsum _ _ hsigned hread
  have hblanks := hblank [' ', '\n'] (List.forall_mem_cons.2 ⟨rfl, List.forall_mem_singleton.2 rfl⟩)
  have hzero := hround (ofList [(3, 0), (0, 2)]) (by unfold Nameable; decide +kernel)
  exact ⟨hzero, hblanks, ⟨pairs, hpairs, hcounts 3⟩, hunion _ _ _ _ hspaced hsigned rfl hread⟩

end PathCensus.Counts
