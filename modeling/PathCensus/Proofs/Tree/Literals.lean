import PathCensus.Proofs.Tree.Building
import PathCensus.Tree.Literals

/-!
# What becomes of literals

Text is left of a label if it is longer than a byte and has an apostrophe at either end, and a literal
is empty exactly if its label is two apostrophes. Where all children are kept in order, each node with
a quoted label is renamed by itself and nothing else changes, so a walk shows the renamed nodes where
it showed the quoted ones.
-/

namespace PathCensus.Literals

/-! ## Quotes -/

/-- Between two apostrophes stands the text of the literal. -/
theorem unquoteChars?_quoted (text : List Char) :
    unquoteChars? ('\'' :: (text ++ ['\''])) = some text := by
  cases text with
  | nil => rfl
  | cons c text =>
    rw [List.cons_append, unquoteChars?, ← List.cons_append, List.getLast?_concat, if_pos rfl,
      List.dropLast_concat]

/-- Behind one apostrophe stands the text, which may still end with another. -/
theorem exists_unquoteChars?_of_cons {text : List Char} (h : text ≠ []) :
    ∃ kept, kept <+: text ∧ unquoteChars? ('\'' :: text) = some kept := by
  obtain ⟨c, rest, rfl⟩ := List.exists_cons_of_ne_nil h
  rw [unquoteChars?]
  split
  · exact ⟨_, List.dropLast_prefix _, rfl⟩
  · exact ⟨_, List.prefix_rfl, rfl⟩

/-- A label and the text that is left of it without its apostrophes. -/
inductive Unquotes : List Char → List Char → Prop where
  /-- An apostrophe at either end. -/
  | both (text : List Char) : Unquotes ('\'' :: (text ++ ['\''])) text
  /-- An apostrophe in front only. -/
  | front {text : List Char} : text ≠ [] → text.getLast? ≠ some '\'' → Unquotes ('\'' :: text) text
  /-- An apostrophe behind only. -/
  | back {text : List Char} : text ≠ [] → text.head? ≠ some '\'' → Unquotes (text ++ ['\'']) text

/-- A label is quoted if it is longer than a byte and has an apostrophe at either end. -/
def IsQuoted (label : String) : Prop :=
  1 < label.utf8ByteSize ∧
    (label.toList.head? = some '\'' ∨ label.toList.getLast? = some '\'')

instance : DecidablePred IsQuoted := fun _ => inferInstanceAs (Decidable (_ ∧ _))

/-- What is read of a label is the text that is left of it. -/
theorem unquoteChars?_eq_some_iff {label text : List Char} :
    unquoteChars? label = some text ↔ Unquotes label text := by
  constructor
  · intro h
    unfold unquoteChars? at h
    split at h
    · next second rest =>
      obtain rfl := Option.some.inj h
      split
      · next hlast =>
        conv => enter [1, 2]; rw [← List.dropLast_append_getLast? '\'' hlast]
        exact .both _
      · next hlast => exact .front (List.cons_ne_nil _ _) hlast
    · next first second rest hfirst =>
      split at h
      · next hlast =>
        obtain rfl := Option.some.inj h
        conv => enter [1, 2]; rw [← List.dropLast_append_getLast? '\'' hlast]
        refine @Unquotes.back (first :: (second :: rest).dropLast) (List.cons_ne_nil _ _) ?_
        rintro ⟨⟩
        exact hfirst rfl
      · cases h
    · cases h
  · intro h
    cases h with
    | both text => exact unquoteChars?_quoted text
    | front hne hlast =>
      obtain ⟨c, rest, rfl⟩ := List.exists_cons_of_ne_nil hne
      rw [unquoteChars?, if_neg hlast]
    | back hne hfirst =>
      obtain ⟨c, rest, rfl⟩ := List.exists_cons_of_ne_nil hne
      obtain ⟨d, more, hmore⟩ := List.exists_cons_of_ne_nil
        (List.append_ne_nil_of_right_ne_nil rest (List.cons_ne_nil '\'' []))
      have hlast : (d :: more).getLast? = some '\'' := by rw [← hmore, List.getLast?_concat]
      have hdrop : (d :: more).dropLast = rest := by rw [← hmore, List.dropLast_concat]
      have hc : c ≠ '\'' := fun he => hfirst (congrArg some he)
      rw [List.cons_append, hmore, unquoteChars?, if_pos hlast, hdrop]
      intro he
      exact hc he

/-- A text has at most as many characters as bytes. -/
theorem length_le_utf8ByteSize (chars : List Char) :
    chars.length ≤ (String.ofList chars).utf8ByteSize := by
  induction chars with
  | nil => exact Nat.zero_le _
  | cons c rest ih =>
    rw [String.ofList_cons, String.utf8ByteSize_append, String.utf8ByteSize_singleton,
      List.length_cons]
    have hpos := c.utf8Size_pos
    omega

/-- A label from which text is left has another character besides an apostrophe. -/
theorem Unquotes.two_le_length {label text : List Char} (h : Unquotes label text) :
    2 ≤ label.length := by
  cases h with
  | both text =>
    rw [List.length_cons, List.length_append, List.length_singleton]
    omega
  | front hne _ =>
    have hpos := List.length_pos_iff.2 hne
    rw [List.length_cons]
    omega
  | back hne _ =>
    have hpos := List.length_pos_iff.2 hne
    rw [List.length_append, List.length_singleton]
    omega

/-- It has an apostrophe at one end. -/
theorem Unquotes.apostrophe {label text : List Char} (h : Unquotes label text) :
    label.head? = some '\'' ∨ label.getLast? = some '\'' := by
  cases h with
  | both text => exact .inl rfl
  | front _ _ => exact .inl rfl
  | back _ _ => exact .inr List.getLast?_concat

/-- Text is left of a label with an apostrophe at one end and another character. -/
theorem exists_unquotes {label : List Char} (hsingle : label ≠ ['\''])
    (h : label.head? = some '\'' ∨ label.getLast? = some '\'') : ∃ text, Unquotes label text := by
  rcases h with hfirst | hlast
  · obtain ⟨rest, rfl⟩ := List.head?_eq_some_iff.1 hfirst
    have hne : rest ≠ [] := fun he => hsingle (by rw [he])
    by_cases hend : rest.getLast? = some '\''
    · obtain ⟨text, rfl⟩ := List.getLast?_eq_some_iff.1 hend
      exact ⟨text, .both text⟩
    · exact ⟨rest, .front hne hend⟩
  · obtain ⟨front, rfl⟩ := List.getLast?_eq_some_iff.1 hlast
    have hne : front ≠ [] := fun he => hsingle (by rw [he, List.nil_append])
    by_cases hstart : front.head? = some '\''
    · obtain ⟨text, rfl⟩ := List.head?_eq_some_iff.1 hstart
      exact ⟨text, .both text⟩
    · exact ⟨front, .back hne hstart⟩

/-- The labels from which text is left are the quoted ones. -/
theorem exists_unquotes_iff {label : String} :
    (∃ text, Unquotes label.toList text) ↔ IsQuoted label := by
  constructor
  · rintro ⟨text, h⟩
    have hlength := h.two_le_length
    have hsize := length_le_utf8ByteSize label.toList
    rw [String.ofList_toList] at hsize
    exact ⟨by omega, h.apostrophe⟩
  · rintro ⟨hsize, hquote⟩
    refine exists_unquotes (fun he => ?_) hquote
    rw [← String.ofList_toList (s := label), he] at hsize
    revert hsize
    decide

/-- The text of a quoted label is what is left of it. -/
theorem unquote?_eq_some_iff {label text : String} :
    unquote? label = some text ↔ Unquotes label.toList text.toList := by
  rw [unquote?, Option.map_eq_some_iff, ← unquoteChars?_eq_some_iff]
  constructor
  · rintro ⟨chars, hchars, rfl⟩
    rwa [String.toList_ofList]
  · intro h
    exact ⟨text.toList, h, String.ofList_toList⟩

/-- The labels without text are those that are not quoted. -/
theorem unquote?_eq_none_iff {label : String} : unquote? label = none ↔ ¬ IsQuoted label := by
  rw [← exists_unquotes_iff, unquote?, Option.map_eq_none_iff, Option.eq_none_iff_forall_ne_some]
  simp only [ne_eq, unquoteChars?_eq_some_iff, not_exists]

/-- The labels with text are the quoted ones. -/
theorem isQuoted_iff {label : String} : IsQuoted label ↔ ∃ text, unquote? label = some text := by
  rw [← Option.isSome_iff_exists, ← not_iff_not, ← unquote?_eq_none_iff,
    Option.not_isSome_iff_eq_none]

theorem countQuoted_eq (nodes : List Tree) :
    countQuoted nodes = nodes.countP fun node => IsQuoted node.label := by
  refine List.countP_congr fun node _ => ?_
  rw [Option.isSome_iff_exists, ← isQuoted_iff, decide_eq_true_eq]

/-- A literal is empty exactly if its label is two apostrophes. -/
theorem unquote?_eq_some_empty_iff {label : String} : unquote? label = some "" ↔ label = "''" := by
  rw [unquote?_eq_some_iff, String.toList_empty, ← String.toList_inj]
  constructor
  · intro h
    generalize label.toList = chars at h
    cases h with
    | both => rfl
    | front hne => exact absurd rfl hne
    | back hne => exact absurd rfl hne
  · intro h
    rw [h]
    exact .both []

/-! ## Renaming -/

/-- What is shown of a node once its quotes are taken off. -/
def renamed (shown : String × Option String) : String × Option String :=
  match unquote? shown.1 with
  | some text => (literalLabel, some text)
  | none => shown

theorem shown_rename (node : Tree) :
    ((rename node).label, (rename node).value) = renamed (node.label, node.value) := by
  unfold rename renamed
  cases unquote? node.label <;> rfl

theorem children_rename (node : Tree) : (rename node).children = node.children := by
  unfold rename
  split <;> rfl

theorem layout_rename (node : Tree) : (rename node).layout = node.layout := by
  unfold rename
  split <;> rfl

theorem normalizeEach_eq (nodes : List Tree) :
    normalizeEach nodes = nodes.map fun node => ((normalize node).1, rename (normalize node).2) := by
  induction nodes with
  | nil => rfl
  | cons node rest ih => rw [normalizeEach, ih, List.map_cons]

theorem children_normalize (node : Tree) :
    (normalize node).2.children =
      (settle node.layout (normalizeEach node.children)).map Prod.snd := by
  cases node
  rw [normalize]

@[simp] theorem label_normalize (node : Tree) : (normalize node).2.label = node.label := by
  cases node
  rw [normalize]

@[simp] theorem value_normalize (node : Tree) : (normalize node).2.value = node.value := by
  cases node
  rw [normalize]

@[simp] theorem layout_normalize (node : Tree) : (normalize node).2.layout = node.layout := by
  cases node
  rw [normalize]

/-- The children of a sequence are renamed one by one. -/
theorem children_normalize_of_sequence {node : Tree} (h : node.layout = .sequence) :
    (normalize node).2.children = node.children.map fun c => rename (normalize c).2 := by
  rw [children_normalize, h, settle, normalizeEach_eq, List.map_map]
  rfl

end PathCensus.Literals

namespace PathCensus.Node.Sequential

open Literals

variable {node : Tree}

theorem translates_rename (h : node.Sequential) :
    node.Everywhere (Translates (fun m => rename (normalize m).2) renamed) := by
  refine h.mono fun m hm => ⟨?_, ?_, ?_⟩
  · rw [layout_rename, layout_normalize]
  · rw [children_rename, children_normalize_of_sequence hm]
  · rw [shown_rename, label_normalize, value_normalize]

/-- A walk shows the renamed nodes in the places of the old ones. -/
theorem map_listed_walk_normalize (h : node.Sequential) :
    (normalize node).2.walk.map Visit.listed =
      (node.walk.map Visit.listed).map (Prod.map id renamed) :=
  map_listed_walk_of_translates (layout_normalize node) (children_normalize_of_sequence h.here)
    fun _ hc => translates_rename (h.child hc)

theorem normalize (h : node.Sequential) : (Literals.normalize node).2.Sequential := by
  induction h with
  | @intro node hl _ ih =>
    refine .intro ((layout_normalize node).trans hl) fun d hd => ?_
    rw [children_normalize_of_sequence hl] at hd
    obtain ⟨c, hc, rfl⟩ := List.mem_map.1 hd
    refine .intro ?_ fun e he => ?_
    · rw [layout_rename]
      exact (ih c hc).here
    · rw [children_rename] at he
      exact (ih c hc).child he

end PathCensus.Node.Sequential
