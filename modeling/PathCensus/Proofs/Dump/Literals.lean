import PathCensus.Proofs.Dump.RoundTrip
import PathCensus.Proofs.Tree.Literals

/-!
# Literals in dumps

A line is cut at its first space before anything is known of quotes, and the text of a literal takes
the place of the value behind it. So a literal with a space is kept up to the space and no further. An
empty literal is a value of its own until it is written; what is read back is no value.
-/

namespace PathCensus

open Literals

/-- A parse tree stays one when its literals are renamed. -/
theorem Node.IsParseTree.normalize {tree : Tree} (h : tree.IsParseTree) :
    (Literals.normalize tree).2.IsParseTree :=
  ⟨(label_normalize tree).trans h.label, (value_normalize tree).trans h.value,
    h.sequential.normalize⟩

namespace Dump

variable {line : List Char} {lines : List (List Char)}
variable {item : Nat × String × Option String} {items : List (Nat × String × Option String)}

/-! ## What lines tell -/

/-- A line shows one node only. -/
theorem Shows.unique (h : Shows line item) {other : Nat × String × Option String}
    (ho : Shows line other) : other = item := by
  have hread := (@readLine_of_shows line 0 _ ho).symm.trans (readLine_of_shows h)
  simp only [Except.ok.injEq, Option.some.injEq, Entry.mk.injEq, true_and] at hread
  obtain ⟨hdepth, hlabel, hvalue⟩ := hread
  exact Prod.ext hdepth (Prod.ext hlabel hvalue)

/-- A line that shows a node is not blank. -/
theorem Shows.not_blank (h : Shows line item) : line.all Text.isBlank = false := by
  have hlabel : ∀ {label : String}, IsLabel label → ∀ (before behind : List Char),
      (before ++ (label.toList ++ behind)).all Text.isBlank = false := by
    intro label hl before behind
    obtain ⟨c, rest, hc, -, hblank⟩ := hl.first
    rw [List.all_append, List.all_append, hc, List.all_cons, hblank]
    simp
  cases h with
  | @bare depth label hl =>
    have hall := hlabel hl (indentChars depth) []
    rwa [List.append_nil] at hall
  | valued hl => exact hlabel hl _ _

/-- The number of lines that are not blank. -/
def nodeCount (lines : List (List Char)) : Nat :=
  lines.countP fun line => !line.all Text.isBlank

/-- A node comes behind as many others as lines before its own that are not blank. -/
theorem Tell.getElem?_of_shows {before after : List (List Char)}
    (h : Tell (before ++ line :: after) items) (hs : Shows line item) :
    items[nodeCount before]? = some item := by
  induction before generalizing items with
  | nil =>
    rw [List.nil_append] at h
    cases h with
    | blank hblank =>
      have hall := List.all_eq_true.2 hblank
      rw [hs.not_blank] at hall
      cases hall
    | node hshows _ => exact congrArg some (hs.unique hshows)
  | cons first before ih =>
    rw [List.cons_append] at h
    cases h with
    | blank hblank hrest =>
      have hcount : nodeCount (first :: before) = nodeCount before := by
        simp [nodeCount, List.all_eq_true.2 hblank]
      rw [hcount]
      exact ih hrest
    | node hshows hrest =>
      have hcount : nodeCount (first :: before) = nodeCount before + 1 := by
        simp [nodeCount, hshows.not_blank]
      rw [hcount, List.getElem?_cons_succ]
      exact ih hrest

/-! ## Empty literals -/

/-- A literal comes back unless it is empty. -/
theorem filter_renamed_iff {shown : String × Option String} (h : shown.2 ≠ some "") :
    (renamed shown).2.filter (· ≠ "") = (renamed shown).2 ↔ shown.1 ≠ "''" := by
  rw [filter_eq_self_iff, ← not_iff_not, not_not, not_not, ← unquote?_eq_some_empty_iff, renamed]
  cases unquote? shown.1 with
  | none => simp [h]
  | some text => simp

/-- A tree whose literals were renamed, once it was written, is read again as the same nodes, except
that the empty values are gone. All values are there again exactly if the text has no empty
literal. -/
theorem renamed_round_trip {text : String} {tree : Tree} (h : readTree text = .ok tree)
    {written : String} (hw : render (normalize tree).2 = .ok written) :
    ∃ reread, readTree written = .ok reread ∧
      reread.walk.map Visit.listed = ((normalize tree).2.walk.map Visit.listed).map
        (fun item => (item.1, item.2.1, item.2.2.filter (· ≠ ""))) ∧
      (reread.walk.map Visit.listed = (normalize tree).2.walk.map Visit.listed ↔
        ∀ visit ∈ tree.walk, visit.node.label ≠ "''") := by
  obtain ⟨hparse, htell⟩ := tell_of_readTree h
  have hlisted := Node.map_listed_walk_mapValues (·.filter (· ≠ "")) (normalize tree).2
  refine ⟨_, readTree_render hparse.normalize hw, hlisted, ?_⟩
  rw [hlisted, hparse.sequential.map_listed_walk_normalize, List.map_map, List.map_inj_left]
  have hitem : ∀ item ∈ tree.walk.map Visit.listed,
      (Prod.map id (Prod.map id (·.filter (· ≠ ""))) ∘ Prod.map id renamed) item =
          Prod.map id renamed item ↔ item.2.1 ≠ "''" := by
    intro item hitem
    rw [← filter_renamed_iff (htell.value_ne_empty item hitem)]
    simp [Prod.ext_iff]
  rw [forall₂_congr hitem, List.forall_mem_map]
  rfl

/-- Values that hold quotes, spaces or nothing but one apostrophe come back. -/
theorem renamed_round_trip_quotes :
    ∃ tree written reread, readTree "A  b \n| '''\n| x' y\n" = .ok tree ∧
      render (normalize tree).2 = .ok written ∧ readTree written = .ok reread ∧
      reread.walk.map Visit.listed = (normalize tree).2.walk.map Visit.listed ∧
      (normalize tree).2.walk.map Visit.listed =
        [(0, "A", some " b "), (1, "ValueStr", some "'"), (1, "ValueStr", some "x")] := by
  have hread : readTree "A  b \n| '''\n| x' y\n" = .ok ⟨"head", none, .sequence,
      [⟨"A", some " b ", .sequence,
        [.leaf "'''" none .sequence, .leaf "x'" (some "y") .sequence]⟩]⟩ := by
    decide +kernel
  have hwrite : render (normalize ⟨"head", none, .sequence, [⟨"A", some " b ", .sequence,
      [.leaf "'''" none .sequence, .leaf "x'" (some "y") .sequence]⟩]⟩).2 =
        .ok "A  b \n| ValueStr '\n| ValueStr x\n" := by
    decide +kernel
  obtain ⟨reread, hreread, -, hiff⟩ := renamed_round_trip hread hwrite
  exact ⟨_, _, reread, hread, hwrite, hreread, hiff.2 (by decide +kernel), by decide +kernel⟩

/-- An empty literal is a value until it is written and read back. -/
theorem empty_literal_lost :
    ∃ tree written reread, readTree "A\n| ''\n" = .ok tree ∧
      render (normalize tree).2 = .ok written ∧ readTree written = .ok reread ∧
      (normalize tree).2.walk.map Visit.listed = [(0, "A", none), (1, "ValueStr", some "")] ∧
      reread.walk.map Visit.listed = [(0, "A", none), (1, "ValueStr", none)] := by
  refine ⟨⟨"head", none, .sequence, [⟨"A", none, .sequence, [.leaf "''" none .sequence]⟩]⟩,
    "A \n| ValueStr \n",
    ⟨"head", none, .sequence, [⟨"A", none, .sequence, [.leaf "ValueStr" none .sequence]⟩]⟩,
    ?_, ?_, ?_, ?_, ?_⟩ <;> decide +kernel

/-! ## Literals with spaces -/

/-- The line of a quoted literal, some levels deep. -/
def literalLine (depth : Nat) (literal : List Char) : List Char :=
  indentChars depth ++ '\'' :: (literal ++ ['\''])

private theorem isLabel_of_quoted (rest : List Char) (h : ' ' ∉ rest) :
    IsLabel (String.ofList ('\'' :: rest)) := by
  refine ⟨⟨'\'', rest, String.toList_ofList, by decide, by decide⟩, ?_⟩
  rw [String.toList_ofList, List.mem_cons, not_or]
  exact ⟨by decide, h⟩

/-- Without a space the line is all label. -/
theorem shows_literalLine {depth : Nat} {literal : List Char} (h : ' ' ∉ literal) :
    Shows (literalLine depth literal)
      (depth, String.ofList ('\'' :: (literal ++ ['\''])), none) := by
  have hshows := @Shows.bare depth _ (isLabel_of_quoted (literal ++ ['\'']) (by simp [h]))
  rwa [String.toList_ofList] at hshows

/-- A space ends the label, and what follows it is the value. -/
theorem shows_literalLine_of_space {depth : Nat} {first rest : List Char} (h : ' ' ∉ first) :
    Shows (literalLine depth (first ++ ' ' :: rest))
      (depth, String.ofList ('\'' :: first), some (String.ofList (rest ++ ['\'']))) := by
  have hshows := @Shows.valued depth _ (String.ofList (rest ++ ['\''])) (isLabel_of_quoted first h)
  rw [String.toList_ofList, String.toList_ofList, if_neg (by simp)] at hshows
  simpa [literalLine] using hshows

/-- The node that a tree shows behind a number of others, once its literals were renamed. -/
def shownAt? (tree : Tree) (n : Nat) : Option (Nat × String × Option String) :=
  ((normalize tree).2.walk.map Visit.listed)[n]?

/-- A line shows its node renamed. -/
theorem shownAt?_of_shows {text : String} {tree : Tree} (h : readTree text = .ok tree)
    {before after : List (List Char)}
    (hlines : Text.lines '\n' '\r' text.toList = before ++ line :: after) (hs : Shows line item) :
    shownAt? tree (nodeCount before) = some (item.1, renamed item.2) := by
  obtain ⟨hparse, htell⟩ := tell_of_readTree h
  rw [hlines] at htell
  rw [shownAt?, hparse.sequential.map_listed_walk_normalize, List.getElem?_map,
    htell.getElem?_of_shows hs]
  rfl

section

variable {text : String} {tree : Tree} {before after : List (List Char)} {depth : Nat}

/-- A literal without a space is shown with all its text. -/
theorem shownAt?_of_no_space (h : readTree text = .ok tree) {literal : List Char}
    (hlines : Text.lines '\n' '\r' text.toList = before ++ literalLine depth literal :: after)
    (hspace : ' ' ∉ literal) :
    shownAt? tree (nodeCount before) =
      some (depth, literalLabel, some (String.ofList literal)) := by
  rw [shownAt?_of_shows h hlines (shows_literalLine hspace), renamed, unquote?,
    String.toList_ofList, unquoteChars?_quoted]
  rfl

/-- Of a literal with a space at most what stands in front of it is shown. If nothing stands there,
the apostrophe alone is no literal, and the rest of the line is a value. -/
theorem shownAt?_of_space (h : readTree text = .ok tree) {first rest : List Char}
    (hlines : Text.lines '\n' '\r' text.toList =
      before ++ literalLine depth (first ++ ' ' :: rest) :: after)
    (hspace : ' ' ∉ first) :
    (first = [] → shownAt? tree (nodeCount before) =
        some (depth, "'", some (String.ofList (rest ++ ['\''])))) ∧
      (first ≠ [] → ∃ kept, kept <+: first ∧ shownAt? tree (nodeCount before) =
        some (depth, literalLabel, some (String.ofList kept))) := by
  rw [shownAt?_of_shows h hlines (shows_literalLine_of_space hspace), renamed, unquote?,
    String.toList_ofList]
  constructor
  · rintro rfl
    rfl
  · intro hne
    obtain ⟨kept, hprefix, hkept⟩ := exists_unquoteChars?_of_cons hne
    refine ⟨kept, hprefix, ?_⟩
    rw [hkept]
    rfl

/-- The line of a quoted literal shows the literal with all its text exactly if the literal has no
space. Else the text is cut off at the first space at the latest; if nothing stands in front of this,
the node is no literal but has an apostrophe for its label and the rest of the line for its value. -/
theorem shown_literal (h : readTree text = .ok tree) {lines : List (List Char)}
    {literal : List Char} (hlines : Text.HasLines '\n' '\r' text.toList lines)
    (hline : lines = before ++ literalLine depth literal :: after) :
    (shownAt? tree (nodeCount before) =
        some (depth, literalLabel, some (String.ofList literal)) ↔ ' ' ∉ literal) ∧
      ∀ first rest, ' ' ∉ first → literal = first ++ ' ' :: rest →
        (first = [] → shownAt? tree (nodeCount before) =
          some (depth, "'", some (String.ofList (rest ++ ['\''])))) ∧
        (first ≠ [] → ∃ kept, kept <+: first ∧ shownAt? tree (nodeCount before) =
          some (depth, literalLabel, some (String.ofList kept))) := by
  obtain rfl := (Text.hasLines_iff (by decide)).1 hlines
  refine ⟨⟨fun hshown hspace => ?_, shownAt?_of_no_space h hline⟩, ?_⟩
  · obtain ⟨first, rest, rfl, hfirst⟩ := List.eq_append_cons_of_mem hspace
    obtain ⟨hempty, hne⟩ := shownAt?_of_space h hline hfirst
    by_cases hnil : first = []
    · have hlabel := hshown.symm.trans (hempty hnil)
      simp [literalLabel] at hlabel
    · obtain ⟨kept, hprefix, hkept⟩ := hne hnil
      have hsame := hshown.symm.trans hkept
      simp only [Option.some.injEq, Prod.mk.injEq, true_and, String.ofList_inj] at hsame
      have hle := hprefix.length_le
      rw [← hsame, List.length_append, List.length_cons] at hle
      omega
  · rintro first rest hspace rfl
    exact shownAt?_of_space h hline hspace

end

/-- A literal of one word is kept whole, with the apostrophe inside. -/
theorem shown_literal_one_word :
    ∃ tree, readTree "Print\n\n| 'it's'\n" = .ok tree ∧
      Text.HasLines '\n' '\r' "Print\n\n| 'it's'\n".toList
        (["Print".toList, []] ++ literalLine 1 "it's".toList :: []) ∧
      shownAt? tree 1 = some (1, "ValueStr", some "it's") := by
  have hread : readTree "Print\n\n| 'it's'\n" = .ok ⟨"head", none, .sequence,
      [⟨"Print", none, .sequence, [.leaf "'it's'" none .sequence]⟩]⟩ := by
    decide +kernel
  have hlines : Text.HasLines '\n' '\r' "Print\n\n| 'it's'\n".toList
      (["Print".toList, []] ++ literalLine 1 "it's".toList :: []) :=
    (Text.hasLines_iff (by decide)).2 (by decide +kernel)
  exact ⟨_, hread, hlines, (shown_literal hread hlines rfl).1.2 (by decide)⟩

/-- Of a literal of two words the second is lost. -/
theorem second_word_lost :
    ∃ tree, readTree "Print\n| 'hello world'\n" = .ok tree ∧
      Text.HasLines '\n' '\r' "Print\n| 'hello world'\n".toList
        (["Print".toList] ++ literalLine 1 "hello world".toList :: []) ∧
      shownAt? tree 1 = some (1, "ValueStr", some "hello") ∧
      shownAt? tree 1 ≠ some (1, "ValueStr", some "hello world") := by
  refine ⟨⟨"head", none, .sequence,
    [⟨"Print", none, .sequence, [.leaf "'hello" (some "world'") .sequence]⟩]⟩, ?_, ?_, ?_, ?_⟩
  · decide +kernel
  · exact (Text.hasLines_iff (by decide)).2 (by decide +kernel)
  · decide +kernel
  · decide +kernel

end Dump

end PathCensus
