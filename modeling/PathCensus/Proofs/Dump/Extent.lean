import PathCensus.Proofs.Text.Lines
import PathCensus.Proofs.Tree.Extent

/-!
# The extent of dumps

A node at some depth takes a line that is longer than the depth, so the extent of a tree that is read
from bytes is at most their number. It follows that a dump has no more canonical paths than bytes.
-/

namespace PathCensus

namespace Text

variable {α : Type} [DecidableEq α]

/-- The pieces of a text are no longer than the text. -/
theorem sumBy_length_pieces_le (sep : α) (text : List α) :
    sumBy List.length (pieces sep text) ≤ text.length := by
  induction text with
  | nil => exact Nat.le_refl 0
  | cons a text ih =>
    rw [pieces_cons, List.length_cons]
    split
    · rw [sumBy_cons, List.length_nil]
      omega
    · cases hp : pieces sep text with
      | nil => exact absurd hp (pieces_ne_nil sep text)
      | cons first others =>
        rw [hp, sumBy_cons] at ih
        rw [List.headD_cons, List.tail_cons, sumBy_cons, List.length_cons]
        omega

theorem length_dropMark_le (mark : α) (line : List α) : (dropMark mark line).length ≤ line.length := by
  unfold dropMark
  split
  · exact (List.dropLast_sublist line).length_le
  · exact Nat.le_refl _

/-- The lines of a text are no longer than the text. -/
theorem sumBy_length_lines_le (ending mark : α) (text : List α) :
    sumBy List.length (lines ending mark text) ≤ text.length := by
  refine Nat.le_trans ?_ (sumBy_length_pieces_le ending text)
  unfold lines
  induction pieces ending text with
  | nil => exact Nat.le_refl 0
  | cons line rest ih =>
    cases rest with
    | nil =>
      rw [closeLines]
      split
      · exact Nat.zero_le _
      · exact Nat.le_refl _
    | cons next rest =>
      have hline := length_dropMark_le mark line
      rw [closeLines, sumBy_cons, sumBy_cons]
      omega

/-- A text has no more characters than bytes. -/
theorem length_le_of_decode? {bytes : List UInt8} {text : List Char}
    (h : decode? bytes = some text) : text.length ≤ bytes.length := by
  have hone : ∀ c ∈ text, 1 ≤ (String.utf8EncodeChar c).length := fun c _ =>
    List.length_pos_iff.2 String.utf8EncodeChar_ne_nil
  have hsum : ∀ text : List Char, sumBy (fun _ => 1) text = text.length := by
    intro text
    induction text with
    | nil => rfl
    | cons c rest ih => rw [sumBy_cons, ih, List.length_cons, Nat.add_comm]
  calc
    text.length = sumBy (fun _ => 1) text := (hsum text).symm
    _ ≤ sumBy (fun c => (String.utf8EncodeChar c).length) text := sumBy_mono hone
    _ = bytes.length := by rw [← length_flatMap, decode?_eq_some_iff.1 h]

end Text

namespace Dump

variable {V : Type}

/-! ## Entries -/

/-- The way to the node of an entry; a fault has none. -/
def width : Except ReadFault (Entry V) → Nat
  | .ok entry => entry.depth + 1
  | .error _ => 0

/-- What is built has at most the extent of the entries. -/
theorem extentBelow_le_of_build {layout : Layout} {builder : Builder V} {tree : Node V}
    {entries : List (Except ReadFault (Entry V))} (h : build layout builder entries = .ok tree) :
    tree.extentBelow ≤ builder.extent + sumBy width entries := by
  induction entries generalizing builder with
  | nil =>
    rw [build, Except.ok.injEq] at h
    exact h ▸ Builder.extentBelow_finish_le builder
  | cons entry rest ih =>
    cases entry with
    | error fault => cases h
    | ok entry =>
      rw [build, Builder.pushAt_eq] at h
      by_cases hd : entry.depth ≤ builder.branch.length
      · simp only [if_pos hd] at h
        have hattach := Builder.extent_attach_le hd entry.label entry.value layout
        have hrest := ih h
        rw [sumBy_cons, width]
        omega
      · simp [if_neg hd] at h

/-! ## Lines -/

/-- Each unit of indentation has two characters. -/
theorem length_splitIndent (text : List Char) :
    2 * (splitIndent text).1 + (splitIndent text).2.length = text.length := by
  induction text using splitIndent.induct with
  | case1 rest ih =>
    rw [splitIndent, List.length_cons, List.length_cons]
    dsimp only
    omega
  | case2 body hbody =>
    rw [splitIndent]
    · exact Nat.zero_add _
    · exact hbody

variable [Payload V]

/-- The line of a node is longer than its depth. -/
theorem depth_lt_of_readEntry {line : Nat} {text : List Char} {entry : Entry V}
    (h : readEntry line text = .ok entry) : entry.depth < text.length := by
  have hlen := length_splitIndent text
  simp only [readEntry] at h
  split at h
  · cases h
  · split at h
    · cases h
    · next label hlabel =>
      have hbody : (splitIndent text).2 ≠ [] := by
        intro hnil
        exact hlabel (by rw [hnil]; rfl)
      have hpos := List.length_pos_iff.2 hbody
      split at h
      · cases h
      · cases h
        dsimp only
        omega

/-- The ways to the nodes are no longer than the lines. -/
theorem sumBy_width_entries_le (read : Nat) (lines : List RawLine) :
    sumBy width (entries read lines : List (Except ReadFault (Entry V))) ≤
      sumBy (·.elim 0 List.length) lines := by
  induction lines generalizing read with
  | nil => exact Nat.le_refl 0
  | cons line rest ih =>
    cases line with
    | none =>
      rw [entries, sumBy_cons, sumBy_cons]
      exact Nat.add_le_add_left (ih read) 0
    | some text =>
      have hrest := ih (read + 1)
      rw [entries, sumBy_cons, Option.elim_some]
      split
      · omega
      · next entry he =>
        rw [readLine] at he
        split at he
        · cases he
        · cases hr : (readEntry (read + 1) text : Except LineFault (Entry V)) with
          | error fault => simp [hr, Except.map] at he
          | ok found =>
            simp only [hr, Except.map, Except.ok.injEq, Option.some.injEq] at he
            have hdepth := depth_lt_of_readEntry hr
            rw [sumBy_cons, width, ← he]
            omega
      · rw [sumBy_cons, width]
        omega

/-- A tree that is read from bytes has at most their extent. -/
theorem extentBelow_le_of_readBytes {layout : Layout} {bytes : List UInt8} {tree : Node V}
    (h : readBytes layout bytes = .ok tree) : tree.extentBelow ≤ bytes.length := by
  have hbuild := extentBelow_le_of_build h
  have hentries := @sumBy_width_entries_le V _ 0 (linesOfBytes bytes)
  have hlines : sumBy (·.elim 0 List.length) (linesOfBytes bytes) ≤
      sumBy List.length (Text.lines 10 13 bytes) := by
    rw [linesOfBytes, sumBy_map]
    refine sumBy_mono fun line _ => ?_
    cases hd : Text.decode? line with
    | none => exact Nat.zero_le _
    | some text => exact Text.length_le_of_decode? hd
  have hbytes := Text.sumBy_length_lines_le 10 13 bytes
  have hstart : (Builder.start (.root (Payload.blank : V) layout)).extent = 0 := rfl
  omega

end Dump

end PathCensus
