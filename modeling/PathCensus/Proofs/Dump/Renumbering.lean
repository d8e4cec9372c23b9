import PathCensus.Proofs.Dump.Numbering

/-!
# Reading behind lines that were read already

The numbers of lines are only carried along: lines that are read behind others give the tree that
they give alone, and a fault is the same but for the number it names.
-/

namespace PathCensus

/-- The same refusal, `n` places later. -/
def DepthJump.later (n : Nat) (jump : DepthJump) : DepthJump :=
  { jump with position := jump.position + n }

/-- Where a node is met decides nothing but the position in the refusal. -/
theorem Builder.pushAt_add {V : Type} (builder : Builder V) (position n depth : Nat)
    (node : Node V) :
    builder.pushAt (position + n) depth node =
      (builder.pushAt position depth node).mapError (DepthJump.later n) := by
  unfold pushAt
  split <;> rfl

namespace Dump

/-- The same fault, `n` lines later. A line that is not UTF-8 has no number. -/
def ReadFault.later (n : Nat) : ReadFault → ReadFault
  | .line number fault => .line (number + n) fault
  | .notUtf8 => .notUtf8
  | .depth jump => .depth (jump.later n)

variable {V : Type}

/-- The same entry, `n` lines later. -/
def Entry.later (n : Nat) (entry : Entry V) : Entry V :=
  { entry with line := entry.line + n }

/-- What is read from the same line, `n` lines later. -/
def itemLater (n : Nat) : Except ReadFault (Entry V) → Except ReadFault (Entry V)
  | .ok entry => .ok (entry.later n)
  | .error fault => .error (fault.later n)

/-- What is built from the same items, `n` lines later. -/
theorem build_later (layout : Layout) (n : Nat) (items : List (Except ReadFault (Entry V)))
    (builder : Builder V) :
    build layout builder (items.map (itemLater n)) =
      (build layout builder items).mapError (ReadFault.later n) := by
  induction items generalizing builder with
  | nil => rfl
  | cons item rest ih =>
    cases item with
    | error fault => rfl
    | ok entry =>
      rw [List.map_cons, itemLater, Entry.later, build, build, Builder.pushAt_add]
      cases builder.pushAt entry.line entry.depth (.leaf entry.label entry.value layout) with
      | error jump => rfl
      | ok next => exact ih next

variable [Payload V]

/-- The same text, read `n` lines later. -/
theorem readEntry_add (number n : Nat) (text : List Char) :
    (readEntry (number + n) text : Except LineFault (Entry V)) =
      (readEntry number text).map (Entry.later n) := by
  simp only [readEntry]
  split
  · rfl
  · split
    · rfl
    · split <;> rfl

theorem itemOf_add (number n : Nat) (line : RawLine) :
    (itemOf (number + n) line : Option (Except ReadFault (Entry V))) =
      (itemOf number line).map (itemLater n) := by
  cases line with
  | none => rfl
  | some text =>
    rw [itemOf_some, itemOf_some, readEntry_add]
    split
    · rfl
    · cases (readEntry number text : Except LineFault (Entry V)) <;> rfl

/-- The same lines, read `n` lines later. -/
theorem entries_add (read n : Nat) (lines : List RawLine) :
    (entries (read + n) lines : List (Except ReadFault (Entry V))) =
      (entries read lines).map (itemLater n) := by
  induction lines generalizing read with
  | nil => rfl
  | cons line rest ih =>
    have hitem := itemOf_add (V := V) (read + 1) n line
    have hafter : (if line.isSome then read + n + 1 else read + n) =
        (if line.isSome then read + 1 else read) + n := by
      split <;> omega
    rw [Nat.add_right_comm] at hitem
    rw [entries_cons, entries_cons, hitem, hafter, ih, List.map_append]
    cases (itemOf (read + 1) line : Option (Except ReadFault (Entry V))) <;> rfl

/-- Lines that are read behind `n` others give the same tree, or the same fault `n` lines later. -/
theorem readLines_add (layout : Layout) (read n : Nat) (lines : List RawLine) :
    (readLines layout (read + n) lines : Except ReadFault (Node V)) =
      (readLines layout read lines).mapError (ReadFault.later n) := by
  unfold readLines
  rw [entries_add, build_later]

end Dump

end PathCensus
