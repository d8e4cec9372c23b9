import PathCensus.Proofs.Census.Rereading
import PathCensus.Proofs.Dump.Renumbering

/-!
# The header of a dump

A header looks like the line of a node with the root's label, whose value is a numeral. No counts
are a numeral alone, so a dump that can be read as nodes from its first line on has no header, and a
header in front of it adds nothing but the number of trees that it gives and one line. The first line
can be taken off to be tried as a header, if it is put back when it is none.
-/

namespace PathCensus.Census

/-- A tree is counted somewhere below a root. -/
def Counted (root : Node Counts) (tree : Nat) : Prop :=
  ∃ visit ∈ root.walk, ∃ count, (tree, count) ∈ visit.node.value.toList

/-- A number of trees is large enough exactly if all counted trees are below it. -/
theorem leastTreeCount_le_iff_counted {root : Node Counts} {bound : Nat} :
    leastTreeCount root ≤ bound ↔ ∀ tree, Counted root tree → tree < bound := by
  rw [leastTreeCount_le_iff, Node.everywhere_below_iff_walk]
  constructor
  · rintro h tree ⟨visit, hv, count, hc⟩
    exact h visit hv tree count (Counts.count?_eq_some_iff.2 hc)
  · intro h visit hv tree count hc
    exact h tree ⟨visit, hv, count, Counts.count?_eq_some_iff.1 hc⟩

/-- The least number of trees is 0 if no tree is counted, and one more than the largest counted tree
otherwise. -/
theorem leastTreeCount_cases (root : Node Counts) :
    (leastTreeCount root = 0 ∧ ∀ tree, ¬ Counted root tree) ∨
      ∃ tree, leastTreeCount root = tree + 1 ∧ Counted root tree ∧
        ∀ other, Counted root other → other ≤ tree := by
  cases hleast : leastTreeCount root with
  | zero =>
    have hnone := leastTreeCount_le_iff_counted.1 (Nat.le_of_eq hleast)
    exact .inl ⟨rfl, fun tree ht => Nat.not_lt_zero tree (hnone tree ht)⟩
  | succ tree =>
    have hall := leastTreeCount_le_iff_counted.1 (Nat.le_of_eq hleast)
    have hnot : ¬ leastTreeCount root ≤ tree := by omega
    rw [leastTreeCount_le_iff_counted] at hnot
    push Not at hnot
    obtain ⟨largest, hlargest, hle⟩ := hnot
    have heq : largest = tree := by
      have hlt := hall largest hlargest
      omega
    subst heq
    exact .inr ⟨largest, rfl, hlargest, fun other ho => Nat.le_of_lt_succ (hall other ho)⟩

/-! ## Headers are no nodes -/

/-- A header is the root's label, a space, a numeral and white space. -/
theorem exists_of_readHeader? {line : List Char} {count : Nat} (h : readHeader? line = some count) :
    ∃ numeral blanks, line = Node.rootLabel.toList ++ ' ' :: (numeral ++ blanks) ∧
      Text.readNumeral numeral = .ok count ∧ ∀ c ∈ blanks, Text.isBlank c = true := by
  obtain ⟨blanks, hline, hblanks⟩ := Text.exists_trimEnd_append line
  rw [readHeader?] at h
  split at h
  · cases h
  · next numeral hdrop =>
    refine ⟨numeral, blanks, ?_, ?_, hblanks⟩
    · rw [dropBeginning?_eq_some_iff] at hdrop
      rw [hline, hdrop]
      simp only [List.append_assoc, List.cons_append, List.nil_append]
    · cases hread : Text.readNumeral numeral with
      | error fault =>
        rw [hread] at h
        cases h
      | ok n =>
        rw [hread] at h
        exact congrArg Except.ok (Option.some.inj h)

/-- A numeral is left of a numeral and white space. -/
theorem trim_numeral_append {numeral blanks : List Char} {count : Nat}
    (hn : Text.readNumeral numeral = .ok count) (hb : ∀ c ∈ blanks, Text.isBlank c = true) :
    numeral ≠ [] ∧ Text.trim (numeral ++ blanks) = numeral := by
  refine ⟨?_, ?_⟩
  · rintro rfl
    cases hn
  · rw [Text.trim_append_right hb]
    refine Text.trim_of_forall fun c hc => ?_
    rcases Text.mem_of_readNumeral hn c hc with rfl | hdigit
    · decide
    · exact Text.isBlank_of_isDigit hdigit

/-- A line that is a header is refused as the line of a node, for its numeral has no colon. -/
theorem readLine_of_readHeader? {line : List Char} {count : Nat}
    (h : readHeader? line = some count) (number : Nat) :
    ∃ piece, Dump.readLine (V := Counts) number line = .error (.value (.noColon piece)) := by
  obtain ⟨numeral, blanks, rfl, hread, hblanks⟩ := exists_of_readHeader? h
  obtain ⟨hne, htrim⟩ := trim_numeral_append hread hblanks
  have hnot : ∀ c, c ≠ '+' → c.isDigit = false → c ∉ numeral := by
    intro c hplus hdigit hc
    rcases Text.mem_of_readNumeral hread c hc with rfl | h
    · exact hplus rfl
    · rw [hdigit] at h
      cases h
  have hrefused : (Payload.read (numeral ++ blanks) : Except CountsFault Counts) =
      .error (.noColon (String.ofList numeral)) :=
    Counts.read_of_trim htrim hne (hnot ':' (by decide) (by decide))
      (hnot ',' (by decide) (by decide))
  have hlabel : Dump.IsLabel Node.rootLabel := Dump.isLabel_of_isWritableLabel (by decide)
  have hline := @Dump.readLine_of_isLabel 0 Node.rootLabel Counts _ hlabel
    (' ' :: (numeral ++ blanks)) (by simp) number
  rw [List.tail_cons, hrefused] at hline
  exact ⟨String.ofList numeral, hline⟩

/-- If lines start with a header, it is the first of them. -/
theorem exists_of_splitHeader? {lines rest : List Dump.RawLine} {count : Nat}
    (h : splitHeader? lines = some (count, rest)) :
    ∃ line, lines = some line :: rest ∧ readHeader? line = some count := by
  unfold splitHeader? at h
  split at h
  · next line behind =>
    cases hread : readHeader? line with
    | none =>
      rw [hread] at h
      cases h
    | some found =>
      rw [hread] at h
      obtain ⟨rfl, rfl⟩ := Prod.mk.inj (Option.some.inj h)
      exact ⟨line, rfl, hread⟩
  · cases h

/-- Lines that can be read as nodes do not start with a header. -/
theorem splitHeader?_of_readLines {lines : List Dump.RawLine} {read : Nat} {root : Node Counts}
    (h : Dump.readLines .keyed read lines = .ok root) : splitHeader? lines = none := by
  cases hsplit : splitHeader? lines with
  | none => rfl
  | some found =>
    obtain ⟨line, rfl, hheader⟩ := exists_of_splitHeader? hsplit
    obtain ⟨piece, hrefused⟩ := readLine_of_readHeader? hheader (read + 1)
    rw [Dump.readLines, Dump.entries, hrefused] at h
    cases h

/-! ## Reading behind a header -/

theorem ofLines_of_splitHeader? {lines : List Dump.RawLine} (h : splitHeader? lines = none) :
    ofLines lines =
      (Dump.readLines .keyed 0 lines).map fun root => ⟨root, leastTreeCount root⟩ := by
  rw [ofLines, h]

/-- Lines behind a header are read as they are read alone, but at least as many trees are given as
the header says, and a fault lies one line later. -/
theorem ofLines_cons {line : List Char} {count : Nat} (hline : readHeader? line = some count)
    {lines : List Dump.RawLine} (h : splitHeader? lines = none) :
    ofLines (some line :: lines) =
      ((ofLines lines).map fun census =>
          { census with treeCount := max count census.treeCount }).mapError
        (Dump.ReadFault.later 1) := by
  have hsplit : splitHeader? (some line :: lines) = some (count, lines) := by
    rw [splitHeader?, hline, Option.map_some]
  rw [ofLines_of_splitHeader? h, ofLines, hsplit]
  dsimp only
  rw [← Nat.zero_add 1, Dump.readLines_add]
  cases (Dump.readLines .keyed 0 lines : Except Dump.ReadFault (Node Counts)) <;> rfl

/-- In bytes, too, the header is the first line of a dump. -/
theorem linesOfBytes_header (treeCount : Nat) (bytes : List UInt8) :
    Dump.linesOfBytes (Text.encode (header treeCount) ++ bytes) =
      some (headerLine treeCount) :: Dump.linesOfBytes bytes := by
  obtain ⟨hfeed, hreturn⟩ := notMem_headerLine treeCount
  have hbytes : Text.encode (header treeCount) ++ bytes =
      (headerLine treeCount).flatMap String.utf8EncodeChar ++ 10 :: bytes := by
    rw [Text.encode_eq, header_toList, List.flatMap_append, List.flatMap_singleton,
      Text.marks_lineFeed.self, List.append_assoc, List.singleton_append]
  have hlast : ((headerLine treeCount).flatMap String.utf8EncodeChar).getLast? ≠ some 13 :=
    fun he => Text.marks_carriageReturn.notMem_flatMap hreturn (List.mem_of_getLast? he)
  rw [Dump.linesOfBytes, hbytes,
    Text.lines_append_ending (Text.marks_lineFeed.notMem_flatMap hfeed) hlast, List.map_cons,
    Text.decode?_flatMap, Dump.linesOfBytes]

/-! ## The first line on its own -/

/-- Read the dump in bytes that can be read only once: the first line is taken off with its ending
and tried as a header, and is put back in front if it is none. -/
def ofStream (bytes : List UInt8) : Except Dump.ReadFault Census :=
  let behind := bytes.dropWhile (· ≠ 10)
  let first := bytes.takeWhile (· ≠ 10) ++ behind.take 1
  match Text.decode? first with
  | none => .error .notUtf8
  | some line =>
    match readHeader? line with
    | some declared =>
      (Dump.readLines .keyed 1 (Dump.linesOfBytes (behind.drop 1))).map fun root =>
        ⟨root, max declared (leastTreeCount root)⟩
    | none =>
      (Dump.readBytes .keyed (first ++ behind.drop 1)).map fun root => ⟨root, leastTreeCount root⟩

/-- The ending of a line does not keep it from being a header. -/
theorem readHeader?_concat (line : List Char) :
    readHeader? (line ++ ['\n']) = readHeader? (Text.dropMark '\r' line) := by
  have htrim : Text.trimEnd (Text.dropMark '\r' line) = Text.trimEnd line := by
    unfold Text.dropMark
    split
    · next hlast =>
      obtain ⟨front, rfl⟩ := List.getLast?_eq_some_iff.1 hlast
      rw [List.dropLast_concat, Text.trimEnd_append (List.forall_mem_singleton.2 rfl)]
    · rfl
  rw [readHeader?, readHeader?, Text.trimEnd_append (List.forall_mem_singleton.2 rfl), htrim]

/-- A first line that is closed is taken off up to its ending. -/
theorem ofStream_append {line : List UInt8} (hline : 10 ∉ line) (rest : List UInt8) :
    ofStream (line ++ 10 :: rest) = ofBytes (line ++ 10 :: rest) := by
  have htake : (line ++ 10 :: rest).takeWhile (· ≠ 10) = line :=
    Text.takeWhile_ne_append hline (by simp)
  have hdrop : (line ++ 10 :: rest).dropWhile (· ≠ 10) = 10 :: rest :=
    Text.dropWhile_ne_append hline (by simp)
  have hlines : Dump.linesOfBytes (line ++ 10 :: rest) =
      (Text.decode? line).map (Text.dropMark '\r') :: Dump.linesOfBytes rest := by
    rw [Dump.linesOfBytes, Text.lines_append_sep hline, List.map_cons,
      Text.decode?_dropMark Text.marks_carriageReturn, Dump.linesOfBytes]
  simp only [ofStream, htake, hdrop, List.take_succ_cons, List.take_zero, List.drop_succ_cons,
    List.drop_zero, Text.decode?_concat Text.marks_lineFeed, ofBytes, ofLines, hlines,
    List.append_assoc, List.singleton_append, Dump.readBytes]
  cases Text.decode? line with
  | none => rfl
  | some text =>
    simp only [Option.map_some, readHeader?_concat, splitHeader?]
    cases readHeader? (Text.dropMark '\r' text) <;> rfl

/-- Bytes without a line feed are taken as a whole. -/
theorem ofStream_of_notMem {bytes : List UInt8} (h : 10 ∉ bytes) :
    ofStream bytes = ofBytes bytes := by
  have htake := @Text.takeWhile_ne_append _ _ 10 bytes [] h nofun
  have hdrop := @Text.dropWhile_ne_append _ _ 10 bytes [] h nofun
  rw [List.append_nil] at htake hdrop
  have hlines : Dump.linesOfBytes bytes = if bytes.isEmpty then [] else [Text.decode? bytes] := by
    rw [Dump.linesOfBytes, Text.lines_of_notMem h]
    split <;> rfl
  simp only [ofStream, htake, hdrop, List.take_nil, List.drop_nil, List.append_nil, ofBytes,
    ofLines, Dump.readBytes]
  cases bytes with
  | nil => rfl
  | cons b rest =>
    rw [hlines, List.isEmpty_cons, if_neg Bool.false_ne_true]
    cases Text.decode? (b :: rest) with
    | none => rfl
    | some text =>
      simp only [splitHeader?]
      cases readHeader? text <;> rfl

/-- Taking off the first line reads the same. -/
theorem ofStream_eq (bytes : List UInt8) : ofStream bytes = ofBytes bytes := by
  by_cases hmem : 10 ∈ bytes
  · obtain ⟨line, rest, rfl, hline⟩ := List.eq_append_cons_of_mem hmem
    exact ofStream_append hline rest
  · exact ofStream_of_notMem hmem

/-- **The header stands apart from the nodes.** To take the first line off and to try it as a header
is to read the lines. If the bytes of a dump start with a header, it is their first line, and as the
line of a node it is refused, whatever its number: what can be read as nodes alone is never read in
another way. Bytes that do not start with a header are read as nodes from the first line on, and there
are as many trees as the largest counted one demands. With the header of a number of trees in front
they give the same nodes and at least that many trees, or the same fault one line later. -/
theorem header_apart (bytes : List UInt8) :
    ofStream bytes = ofBytes bytes ∧
      (∀ count rest, splitHeader? (Dump.linesOfBytes bytes) = some (count, rest) →
        ∃ line, Dump.linesOfBytes bytes = some line :: rest ∧ readHeader? line = some count ∧
          ∀ number, ∃ piece,
            Dump.readLine (V := Counts) number line = .error (.value (.noColon piece))) ∧
      (∀ root, Dump.readBytes .keyed bytes = .ok root →
        ofBytes bytes = .ok ⟨root, leastTreeCount root⟩) ∧
      (splitHeader? (Dump.linesOfBytes bytes) = none →
        ofBytes bytes =
          (Dump.readBytes .keyed bytes).map (fun root => ⟨root, leastTreeCount root⟩) ∧
        ∀ count < Text.numeralLimit,
          ofBytes (Text.encode (header count) ++ bytes) =
            match ofBytes bytes with
            | .ok census => .ok ⟨census.root, max count census.treeCount⟩
            | .error fault => .error (fault.later 1)) ∧
      ∀ root, (leastTreeCount root = 0 ∧ ∀ tree, ¬ Counted root tree) ∨
        ∃ tree, leastTreeCount root = tree + 1 ∧ Counted root tree ∧
          ∀ other, Counted root other → other ≤ tree := by
  refine ⟨ofStream_eq bytes, fun count rest h => ?_, fun root h => ?_,
    fun h => ⟨?_, fun count hcount => ?_⟩, leastTreeCount_cases⟩
  · obtain ⟨line, hlines, hheader⟩ := exists_of_splitHeader? h
    exact ⟨line, hlines, hheader, readLine_of_readHeader? hheader⟩
  · have hread : Dump.readLines .keyed 0 (Dump.linesOfBytes bytes) = .ok root := h
    rw [ofBytes, ofLines_of_splitHeader? (splitHeader?_of_readLines hread), hread]
    rfl
  · exact ofLines_of_splitHeader? h
  · have hheader : readHeader? (headerLine count) = some count := by
      rw [readHeader?_headerLine, if_pos hcount]
    rw [ofBytes, ofBytes, linesOfBytes_header, ofLines_cons hheader h]
    cases ofLines (Dump.linesOfBytes bytes) <;> rfl

/-- The line `A 1:2` is no header, so it is read as a node, and the header of five trees in front of
it adds only their number. The line `head +3` is a header, and no node. -/
theorem header_apart_of_five :
    ofBytes [0x41, 0x20, 0x31, 0x3a, 0x32, 0x0a] =
        .ok ⟨⟨"head", ∅, .keyed, [.leaf "A" (.ofList [(1, 2)]) .keyed]⟩, 2⟩ ∧
      ofBytes (Text.encode (header 5) ++ [0x41, 0x20, 0x31, 0x3a, 0x32, 0x0a]) =
        .ok ⟨⟨"head", ∅, .keyed, [.leaf "A" (.ofList [(1, 2)]) .keyed]⟩, 5⟩ ∧
      ∃ line, readHeader? line = some 3 ∧ ∀ number, ∃ piece,
        Dump.readLine (V := Counts) number line = .error (.value (.noColon piece)) := by
  have hnodes := header_apart [0x41, 0x20, 0x31, 0x3a, 0x32, 0x0a]
  have hheader := header_apart [0x68, 0x65, 0x61, 0x64, 0x20, 0x2b, 0x33, 0x0a, 0x41]
  have hread : ofBytes [0x41, 0x20, 0x31, 0x3a, 0x32, 0x0a] =
      .ok ⟨⟨"head", ∅, .keyed, [.leaf "A" (.ofList [(1, 2)]) .keyed]⟩, 2⟩ :=
    (hnodes.2.2.1 ⟨"head", ∅, .keyed, [.leaf "A" (.ofList [(1, 2)]) .keyed]⟩
      (by decide +kernel)).trans (by decide +kernel)
  refine ⟨hread, ?_, ?_⟩
  · rw [(hnodes.2.2.2.1 (by decide +kernel)).2 5 (by decide), hread]
    rfl
  · obtain ⟨line, -, hline, hrefused⟩ := hheader.2.1 3 [some ['A']] (by decide +kernel)
    exact ⟨line, hline, hrefused⟩

end PathCensus.Census
