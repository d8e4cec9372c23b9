import Mathlib.Data.List.ReduceOption
import PathCensus.Proofs.Text.Lines

/-!
# The numbers of lines

A line that is not UTF-8 takes no number, and the reading goes on behind it. So what is read from a
line carries one more than the number of lines in front of it that are UTF-8, which is the place of
the line in the dump only if all of these are.
-/

namespace PathCensus.Dump

variable {V : Type} [Payload V]

/-- What a line yields under a number: nothing if it is blank. -/
def itemOf (number : Nat) : RawLine → Option (Except ReadFault (Entry V))
  | none => some (.error .notUtf8)
  | some text =>
    match readLine number text with
    | .ok none => none
    | .ok (some entry) => some (.ok entry)
    | .error fault => some (.error (.line number fault))

/-- What lines yield if each is numbered one higher than is said of the lines in front of it. -/
def itemsNumbered (number : List RawLine → Nat) (lines : List RawLine) :
    List (Except ReadFault (Entry V)) :=
  (lines.mapIdx fun k line => itemOf (number (lines.take k) + 1) line).reduceOption

omit [Payload V] in
/-- The number that an entry or a malformed line carries. -/
def numberOf? : Except ReadFault (Entry V) → Option Nat
  | .ok entry => some entry.line
  | .error (.line number _) => some number
  | .error .notUtf8 => none
  | .error (.depth jump) => some jump.position

/-! ## One line -/

private theorem line_of_readEntry {number : Nat} {text : List Char} {entry : Entry V}
    (h : readEntry number text = .ok entry) : entry.line = number := by
  simp only [readEntry] at h
  split at h
  · cases h
  · split at h
    · cases h
    · split at h
      · cases h
      · cases h
        rfl

/-- A UTF-8 line that is not blank yields its entry or what is wrong with it. -/
theorem itemOf_some (number : Nat) (text : List Char) :
    (itemOf number (some text) : Option (Except ReadFault (Entry V))) =
      if text.all Text.isBlank then none
      else some ((readEntry number text).mapError (.line number)) := by
  rw [itemOf, readLine]
  by_cases hblank : text.all Text.isBlank = true
  · rw [if_pos hblank, if_pos hblank]
  · rw [if_neg hblank, if_neg hblank]
    cases (readEntry number text : Except LineFault (Entry V)) <;> rfl

/-- A UTF-8 line yields nothing exactly if it is blank. -/
theorem itemOf_eq_none_iff {number : Nat} {text : List Char} :
    (itemOf number (some text) : Option (Except ReadFault (Entry V))) = none ↔
      ∀ c ∈ text, Text.isBlank c = true := by
  rw [itemOf_some, ← List.all_eq_true]
  split <;> simp_all

/-- What a UTF-8 line yields carries the number of the line. -/
theorem numberOf?_of_itemOf {number : Nat} {text : List Char} {item : Except ReadFault (Entry V)}
    (h : itemOf number (some text) = some item) : numberOf? item = some number := by
  rw [itemOf_some] at h
  split at h
  · cases h
  · rw [Option.some.injEq] at h
    rw [← h]
    cases hread : (readEntry number text : Except LineFault (Entry V)) with
    | error fault => rfl
    | ok entry => exact congrArg some (line_of_readEntry hread)

/-- Entries come line by line, and only a line that is UTF-8 is counted. -/
theorem entries_cons (read : Nat) (line : RawLine) (rest : List RawLine) :
    (entries read (line :: rest) : List (Except ReadFault (Entry V))) =
      (itemOf (read + 1) line).toList ++
        entries (if line.isSome then read + 1 else read) rest := by
  cases line with
  | none => rfl
  | some text =>
    rw [entries, itemOf]
    cases (readLine (read + 1) text : Except LineFault (Option (Entry V))) with
    | error fault => rfl
    | ok found => cases found <;> rfl

theorem itemsNumbered_cons (number : List RawLine → Nat) (line : RawLine) (rest : List RawLine) :
    (itemsNumbered number (line :: rest) : List (Except ReadFault (Entry V))) =
      (itemOf (number [] + 1) line).toList ++
        itemsNumbered (fun before => number (line :: before)) rest := by
  rw [itemsNumbered, List.mapIdx_cons]
  cases hitem : (itemOf (number [] + 1) line : Option (Except ReadFault (Entry V))) with
  | none => simp [hitem, List.reduceOption_cons_of_none, itemsNumbered]
  | some item => simp [hitem, List.reduceOption_cons_of_some, itemsNumbered]

/-! ## All lines -/

/-- What lines yield is numbered by the lines in front that are UTF-8. -/
theorem entries_eq (read : Nat) (lines : List RawLine) :
    (entries read lines : List (Except ReadFault (Entry V))) =
      itemsNumbered (fun before => read + before.countP Option.isSome) lines := by
  induction lines generalizing read with
  | nil => rfl
  | cons line rest ih =>
    rw [entries_cons, itemsNumbered_cons, ih]
    cases line with
    | none => simp
    | some text =>
      have hshift : ∀ n, read + 1 + n = read + (n + 1) := by omega
      simp [hshift]

theorem itemsNumbered_length_cons (read : Nat) (line : RawLine) (rest : List RawLine) :
    (itemsNumbered (fun before => read + before.length) (line :: rest) :
        List (Except ReadFault (Entry V))) =
      (itemOf (read + 1) line).toList ++
        itemsNumbered (fun before => read + 1 + before.length) rest := by
  have hnext : (fun before : List RawLine => read + (line :: before).length) =
      fun before => read + 1 + before.length := by
    funext before
    rw [List.length_cons]
    omega
  rw [itemsNumbered_cons, hnext]
  rfl

/-- Behind a line that was not counted each number is too low for its place, so the places are the
numbers only if nothing that is numbered follows. -/
theorem entries_eq_of_lt {read place : Nat} (hlt : read < place) (lines : List RawLine) :
    (entries read lines : List (Except ReadFault (Entry V))) =
        itemsNumbered (fun before => place + before.length) lines ↔
      ∀ text, some text ∈ lines → ∀ c ∈ text, Text.isBlank c = true := by
  induction lines generalizing read place with
  | nil => exact iff_of_true rfl nofun
  | cons line rest ih =>
    rw [entries_cons, itemsNumbered_length_cons]
    cases line with
    | none =>
      simp only [itemOf, Option.toList_some, List.singleton_append, List.cons.injEq, true_and,
        Option.isSome_none, Bool.false_eq_true, if_false, List.mem_cons, reduceCtorEq, false_or]
      exact ih (Nat.lt_succ_of_lt hlt)
    | some text =>
      simp only [Option.isSome_some, if_true, List.mem_cons, Option.some.injEq, forall_eq_or_imp]
      by_cases hblank : ∀ c ∈ text, Text.isBlank c = true
      · rw [itemOf_eq_none_iff.2 hblank, itemOf_eq_none_iff.2 hblank, and_iff_right hblank]
        exact ih (Nat.succ_lt_succ hlt)
      · refine iff_of_false (fun he => ?_) fun hall => hblank hall.1
        have hyields : ∀ number, ∃ item : Except ReadFault (Entry V),
            itemOf number (some text) = some item :=
          fun number => Option.ne_none_iff_exists'.1 (mt itemOf_eq_none_iff.1 hblank)
        obtain ⟨item, hitem⟩ := hyields (read + 1)
        obtain ⟨other, hother⟩ := hyields (place + 1)
        rw [hitem, hother] at he
        have hsame : item = other := (List.cons.inj he).1
        have hnumber := (numberOf?_of_itemOf hitem).symm.trans
          ((congrArg numberOf? hsame).trans (numberOf?_of_itemOf hother))
        simp only [Option.some.injEq] at hnumber
        omega

/-- The places are the numbers exactly if no line that is not UTF-8 stands in front of one that is
UTF-8 and not blank. -/
theorem entries_eq_iff (read : Nat) (lines : List RawLine) :
    (entries read lines : List (Except ReadFault (Entry V))) =
        itemsNumbered (fun before => read + before.length) lines ↔
      lines.Pairwise fun line later =>
        line = none → ∀ text ∈ later, ∀ c ∈ text, Text.isBlank c = true := by
  induction lines generalizing read with
  | nil => exact iff_of_true rfl .nil
  | cons line rest ih =>
    rw [entries_cons, itemsNumbered_length_cons, List.append_cancel_left_eq, List.pairwise_cons]
    cases line with
    | none =>
      have hrest := entries_eq_of_lt (V := V) (Nat.lt_succ_self read) rest
      simp only [Option.isSome_none, Bool.false_eq_true, if_false, forall_const]
      rw [hrest]
      refine ⟨fun hblank => ⟨?_, ?_⟩, fun h text ht => h.1 (some text) ht text rfl⟩
      · rintro later hmem text rfl
        exact hblank text hmem
      · exact List.pairwise_of_forall_mem_list fun _ _ later hmem _ text ht => hblank text (ht ▸ hmem)
    | some text =>
      simp only [Option.isSome_some, if_true, reduceCtorEq, false_implies, implies_true, true_and]
      exact ih (read + 1)

/-- The lines of a dump lie between its line feeds, and what is read from them carries one more than
the number of lines in front that are UTF-8, counted on from `after`. Every entry and every
malformed line carries such a number. These numbers are the places of the lines exactly if no line
that is not UTF-8 stands in front of one that is UTF-8 and not blank. -/
theorem entries_numbered (after : Nat) (bytes : List UInt8) :
    ∃ lines, Text.HasLines 10 13 bytes lines ∧
      (entries after (linesOfBytes bytes) : List (Except ReadFault (Entry V))) =
        itemsNumbered (fun before => after + before.countP Option.isSome)
          (lines.map Text.decode?) ∧
      (∀ number text (item : Except ReadFault (Entry V)),
        itemOf number (some text) = some item → numberOf? item = some number) ∧
      ((entries after (linesOfBytes bytes) : List (Except ReadFault (Entry V))) =
          itemsNumbered (fun before => after + before.length) (lines.map Text.decode?) ↔
        lines.Pairwise fun line later => Text.decode? line = none →
          ∀ text ∈ Text.decode? later, ∀ c ∈ text, Text.isBlank c = true) := by
  refine ⟨_, (Text.hasLines_iff (by decide)).2 rfl, entries_eq after _,
    fun _ _ _ => numberOf?_of_itemOf, ?_⟩
  rw [linesOfBytes, entries_eq_iff, List.pairwise_map]

/-- Behind a first line that is not UTF-8 the second line has the number 1. -/
theorem second_line_numbered_one :
    Text.HasLines 10 13 [0x41, 0xff, 0x0a, 0x42, 0x0a] [[0x41, 0xff], [0x42]] ∧
      (entries 0 (linesOfBytes [0x41, 0xff, 0x0a, 0x42, 0x0a]) :
          List (Except ReadFault (Entry (Option String)))) =
        [.error .notUtf8, .ok ⟨1, 0, "B", none⟩] ∧
      (itemsNumbered (fun before => 0 + before.length)
          ([[0x41, 0xff], [0x42]].map Text.decode?) :
          List (Except ReadFault (Entry (Option String)))) =
        [.error .notUtf8, .ok ⟨2, 0, "B", none⟩] := by
  refine ⟨(Text.hasLines_iff (by decide)).2 (by decide +kernel), ?_, ?_⟩ <;> decide +kernel

end PathCensus.Dump
