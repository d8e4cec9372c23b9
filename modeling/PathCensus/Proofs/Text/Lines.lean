import PathCensus.Dump.Reader

/-!
# Lines of joined and of encoded texts

Pieces that leave out the separator are found again where they were joined, and a line that is
closed by an ending comes off the front of the text. Cutting commutes with spelling letters out if
the spelling keeps the separators recognizable; UTF-8 does so with line feeds and carriage returns,
so the bytes of a text have the lines of the text.
-/

namespace PathCensus

namespace Text

variable {α β : Type} [DecidableEq α] [DecidableEq β]

/-! ## Pieces -/

/-- A text without the separator is one piece. -/
theorem pieces_of_notMem {sep : α} {text : List α} (h : sep ∉ text) : pieces sep text = [text] := by
  induction text with
  | nil => rfl
  | cons a text ih =>
    rw [List.mem_cons, not_or] at h
    rw [pieces_cons, if_neg (Ne.symm h.1), ih h.2]
    rfl

/-- What stands in front of the first separator is the first piece. -/
theorem pieces_append_sep {sep : α} {piece : List α} (h : sep ∉ piece) (rest : List α) :
    pieces sep (piece ++ sep :: rest) = piece :: pieces sep rest := by
  induction piece with
  | nil => rw [List.nil_append, pieces_cons, if_pos rfl]
  | cons a piece ih =>
    rw [List.mem_cons, not_or] at h
    rw [List.cons_append, pieces_cons, if_neg (Ne.symm h.1), ih h.2]
    rfl

omit [DecidableEq β] in
/-- Texts one piece at a time: a text has no separator, or a piece and a separator in front of a
shorter text. -/
@[elab_as_elim] theorem separated_induction (sep : α) {motive : List α → Prop}
    (last : ∀ text, sep ∉ text → motive text)
    (cut : ∀ piece rest, sep ∉ piece → motive rest → motive (piece ++ sep :: rest))
    (text : List α) : motive text := by
  induction hn : text.length using Nat.strongRecOn generalizing text with
  | ind n ih =>
    subst hn
    by_cases hmem : sep ∈ text
    · obtain ⟨piece, rest, rfl, hpiece⟩ := List.eq_append_cons_of_mem hmem
      refine cut piece rest hpiece (ih rest.length ?_ rest rfl)
      simp only [List.length_append, List.length_cons]
      omega
    · exact last text hmem

/-- Texts on both sides of a separator are cut each for itself. -/
theorem pieces_append {sep : α} (front behind : List α) :
    pieces sep (front ++ sep :: behind) = pieces sep front ++ pieces sep behind := by
  induction front using separated_induction sep with
  | last text h => rw [pieces_append_sep h, pieces_of_notMem h, List.singleton_append]
  | cut piece rest h ih =>
    rw [List.append_assoc, List.cons_append, pieces_append_sep h, ih, pieces_append_sep h,
      List.cons_append]

/-- No piece holds the separator. -/
theorem notMem_of_mem_pieces {sep : α} {text piece : List α} (h : piece ∈ pieces sep text) :
    sep ∉ piece := by
  induction text using separated_induction sep with
  | last text hnot =>
    rw [pieces_of_notMem hnot] at h
    rwa [List.mem_singleton.1 h]
  | cut first rest hfirst ih =>
    rw [pieces_append_sep hfirst] at h
    rcases List.mem_cons.1 h with rfl | h
    · exact hfirst
    · exact ih h

/-- Joined pieces are found again. -/
theorem pieces_intercalate {sep : α} {items : List (List α)} (hne : items ≠ [])
    (h : ∀ item ∈ items, sep ∉ item) : pieces sep ([sep].intercalate items) = items := by
  induction items with
  | nil => exact absurd rfl hne
  | cons item rest ih =>
    have hitem : sep ∉ item := h item List.mem_cons_self
    cases rest with
    | nil =>
      rw [List.intercalate_singleton]
      exact pieces_of_notMem hitem
    | cons next rest =>
      have hrest := ih (List.cons_ne_nil _ _) fun i hi => h i (List.mem_cons_of_mem _ hi)
      rw [List.intercalate_cons_cons, List.append_assoc, List.singleton_append,
        pieces_append_sep hitem, hrest]

/-! ## Lines -/

/-- A line that is closed comes off the front, without the mark that may stand at its end. -/
theorem lines_append_sep {ending mark : α} {line : List α} (h : ending ∉ line) (rest : List α) :
    lines ending mark (line ++ ending :: rest) = dropMark mark line :: lines ending mark rest := by
  rw [lines, pieces_append_sep h, lines]
  cases hp : pieces ending rest with
  | nil => exact absurd hp (pieces_ne_nil ending rest)
  | cons first others => rw [closeLines]

/-- A line that does not end in a mark comes off the front as it is. -/
theorem lines_append_ending {ending mark : α} {line : List α} (h : ending ∉ line)
    (hmark : line.getLast? ≠ some mark) (rest : List α) :
    lines ending mark (line ++ ending :: rest) = line :: lines ending mark rest := by
  rw [lines_append_sep h, dropMark, if_neg hmark]

/-- Lines in a text: each is closed by `ending`, in front of which one `mark` is dropped. What is left
at the end is a line, and kept as it is, unless it is empty. -/
inductive HasLines (ending mark : α) : List α → List (List α) → Prop where
  /-- An empty text has no line. -/
  | nil : HasLines ending mark [] []
  /-- The last line need not be closed. -/
  | last {line : List α} : line ≠ [] → ending ∉ line → HasLines ending mark line [line]
  /-- A line that is closed by the ending alone. -/
  | closed {line rest : List α} {lines : List (List α)} : ending ∉ line →
      line.getLast? ≠ some mark → HasLines ending mark rest lines →
      HasLines ending mark (line ++ ending :: rest) (line :: lines)
  /-- A line that is closed by the mark and the ending. -/
  | marked {line rest : List α} {lines : List (List α)} : ending ∉ line →
      HasLines ending mark rest lines →
      HasLines ending mark (line ++ mark :: ending :: rest) (line :: lines)

omit [DecidableEq α] in
/-- No line holds an ending. -/
theorem HasLines.notMem {ending mark : α} {text : List α} {lines : List (List α)}
    (h : HasLines ending mark text lines) : ∀ line ∈ lines, ending ∉ line := by
  induction h with
  | nil => exact nofun
  | last _ hend => exact List.forall_mem_singleton.2 hend
  | closed hend _ _ ih => exact List.forall_mem_cons.2 ⟨hend, ih⟩
  | marked hend _ ih => exact List.forall_mem_cons.2 ⟨hend, ih⟩

/-- A line that is closed by the mark and the ending comes off the front without them. -/
theorem lines_append_mark_ending {ending mark : α} (hne : mark ≠ ending) {line : List α}
    (h : ending ∉ line) (rest : List α) :
    lines ending mark (line ++ mark :: ending :: rest) = line :: lines ending mark rest := by
  have hmark : ending ∉ line ++ [mark] := by simpa using ⟨h, Ne.symm hne⟩
  have hlines := @lines_append_sep _ _ ending mark _ hmark rest
  rw [List.append_assoc, List.singleton_append] at hlines
  rw [hlines, dropMark, if_pos List.getLast?_concat, List.dropLast_concat]

/-- A text that has no ending is one line, or none if it is empty. -/
theorem lines_of_notMem {ending mark : α} {text : List α} (h : ending ∉ text) :
    lines ending mark text = if text.isEmpty then [] else [text] := by
  rw [lines, pieces_of_notMem h, closeLines]

/-- The lines of a text are the only ones that it has. -/
theorem hasLines_iff {ending mark : α} (hne : mark ≠ ending) {text : List α}
    {found : List (List α)} : HasLines ending mark text found ↔ found = lines ending mark text := by
  constructor
  · intro h
    induction h with
    | nil => rfl
    | last hline hend => rw [lines_of_notMem hend, if_neg (by simpa using hline)]
    | closed hend hmark _ ih => rw [lines_append_ending hend hmark, ih]
    | marked hend _ ih => rw [lines_append_mark_ending hne hend, ih]
  · rintro rfl
    induction text using separated_induction ending with
    | last text hend =>
      rw [lines_of_notMem hend]
      cases text with
      | nil => exact .nil
      | cons c rest => exact .last (List.cons_ne_nil c rest) hend
    | cut front rest hfront hrest =>
      rcases List.eq_nil_or_concat front with rfl | ⟨line, last, rfl⟩
      · rw [lines_append_ending hfront nofun]
        exact .closed hfront nofun hrest
      · rw [List.concat_eq_append] at hfront ⊢
        by_cases hlast : last = mark
        · subst hlast
          have hline : ending ∉ line := fun he => hfront (List.mem_append_left _ he)
          rw [List.append_assoc, List.singleton_append, lines_append_mark_ending hne hline]
          exact .marked hline hrest
        · have hkeep : (line ++ [last]).getLast? ≠ some mark := by simpa using hlast
          rw [lines_append_ending hfront hkeep]
          exact .closed hfront hkeep hrest

/-! ## Spelling letters out -/

/-- The letter `a` is spelled by `b` alone, which no other letter has in its spelling. -/
structure Marks (spelling : α → List β) (a : α) (b : β) : Prop where
  /-- The spelling of the letter. -/
  self : spelling a = [b]
  /-- The spelling of the other letters. -/
  other : ∀ x, x ≠ a → b ∉ spelling x

variable {spelling : α → List β} {sep mark : α} {sep' mark' : β}

omit [DecidableEq α] [DecidableEq β] in
/-- A text that leaves out a letter leaves out its mark in the spelling. -/
theorem Marks.notMem_flatMap (hs : Marks spelling sep sep') {text : List α} (h : sep ∉ text) :
    sep' ∉ text.flatMap spelling := by
  rw [List.mem_flatMap]
  rintro ⟨x, hx, hmem⟩
  refine hs.other x ?_ hmem
  rintro rfl
  exact h hx

/-- Cutting commutes with spelling out. -/
theorem pieces_flatMap (hs : Marks spelling sep sep') (text : List α) :
    pieces sep' (text.flatMap spelling) = (pieces sep text).map (List.flatMap spelling) := by
  have hfront : ∀ front rest : List β, sep' ∉ front →
      pieces sep' (front ++ rest) =
        (front ++ (pieces sep' rest).headD []) :: (pieces sep' rest).tail := by
    intro front rest hf
    induction front with
    | nil =>
      cases hp : pieces sep' rest with
      | nil => exact absurd hp (pieces_ne_nil sep' rest)
      | cons first others => rw [List.nil_append, hp]; rfl
    | cons b front ih =>
      rw [List.mem_cons, not_or] at hf
      rw [List.cons_append, pieces_cons, if_neg (Ne.symm hf.1), ih hf.2]
      rfl
  induction text with
  | nil => rfl
  | cons a text ih =>
    rw [List.flatMap_cons, pieces_cons]
    by_cases ha : a = sep
    · rw [if_pos ha, ha, hs.self, List.singleton_append, pieces_cons, if_pos rfl, ih]
      rfl
    · rw [if_neg ha, hfront _ _ (hs.other a ha), ih]
      cases hp : pieces sep text with
      | nil => exact absurd hp (pieces_ne_nil sep text)
      | cons first others => simp

/-- Dropping a mark commutes with spelling out. -/
theorem dropMark_flatMap (hm : Marks spelling mark mark') (hne : ∀ x, spelling x ≠ [])
    (line : List α) :
    dropMark mark' (line.flatMap spelling) = (dropMark mark line).flatMap spelling := by
  rcases List.eq_nil_or_concat line with rfl | ⟨front, x, rfl⟩
  · rfl
  · rw [List.concat_eq_append, List.flatMap_append, List.flatMap_singleton]
    by_cases hx : x = mark
    · subst hx
      simp [dropMark, hm.self]
    · have hlast : (front.flatMap spelling ++ spelling x).getLast? ≠ some mark' := by
        intro h
        rw [List.getLast?_append, Option.or_eq_some_iff] at h
        rcases h with h | ⟨h, -⟩
        · exact hm.other x hx (List.mem_of_getLast? h)
        · exact hne x (List.getLast?_eq_none_iff.1 h)
      have hkeep : (front ++ [x]).getLast? ≠ some mark := by simpa using hx
      rw [dropMark, if_neg hlast, dropMark, if_neg hkeep, List.flatMap_append,
        List.flatMap_singleton]

/-- The lines of a text that is spelled out are its lines, spelled out. -/
theorem lines_flatMap (hs : Marks spelling sep sep') (hm : Marks spelling mark mark')
    (hne : ∀ x, spelling x ≠ []) (text : List α) :
    lines sep' mark' (text.flatMap spelling) = (lines sep mark text).map (List.flatMap spelling) := by
  rw [lines, pieces_flatMap hs, lines]
  induction pieces sep text with
  | nil => rfl
  | cons line rest ih =>
    cases rest with
    | nil =>
      cases line with
      | nil => rfl
      | cons a line => simp [closeLines, hne a]
    | cons next rest =>
      rw [List.map_cons, List.map_cons, closeLines, closeLines, List.map_cons,
        dropMark_flatMap hm hne]
      congr 1

/-! ## UTF-8 -/

/-- The bytes of a text are those of its characters. -/
theorem encode_eq (text : String) : encode text = text.toList.flatMap String.utf8EncodeChar := by
  rw [encode, ← String.utf8Encode_toList, List.utf8Encode, List.toList_data_toByteArray]

/-- An ASCII character is spelled by one byte that no other character has in its spelling. -/
theorem marks_utf8EncodeChar {c : Char} {b : UInt8} (hc : c.toNat = b.toNat)
    (hb : b.toNat < 128) : Marks String.utf8EncodeChar c b := by
  have hsmall : b.toNat ≤ 127 := by omega
  constructor
  · have hv : c.val.toNat = b.toNat := hc
    rw [String.utf8EncodeChar, hv]
    simp [hsmall]
  · intro x hx hmem
    have hne : x.val.toNat ≠ b.toNat := by
      intro he
      exact hx (Char.toNat_inj.1 (he.trans hc.symm))
    have hbyte : ∀ n, n < 256 → b = UInt8.ofNat n → n = b.toNat := by
      rintro n hn rfl
      exact (UInt8.toNat_ofNat_of_lt' hn).symm
    rw [String.utf8EncodeChar] at hmem
    split at hmem
    · have h := hbyte _ (by omega) (List.mem_singleton.1 hmem)
      omega
    · split at hmem
      · simp only [List.mem_cons, List.not_mem_nil, or_false] at hmem
        rcases hmem with h | h <;> have h := hbyte _ (by omega) h <;> omega
      · split at hmem
        · simp only [List.mem_cons, List.not_mem_nil, or_false] at hmem
          rcases hmem with h | h | h <;> have h := hbyte _ (by omega) h <;> omega
        · simp only [List.mem_cons, List.not_mem_nil, or_false] at hmem
          rcases hmem with h | h | h | h <;> have h := hbyte _ (by omega) h <;> omega

/-- The bytes of characters are decoded. -/
theorem decode?_flatMap (text : List Char) :
    decode? (text.flatMap String.utf8EncodeChar) = some text := by
  have h := decode?_encode (String.ofList text)
  rwa [encode_eq, String.toList_ofList] at h

end Text

/-- The characters that bytes encode are those that are spelled by these bytes. -/
theorem Text.decode?_eq_some_iff {bytes : List UInt8} {text : List Char} :
    decode? bytes = some text ↔ text.flatMap String.utf8EncodeChar = bytes := by
  constructor
  · intro h
    obtain ⟨chars, hc, rfl⟩ := Option.map_eq_some_iff.1 h
    have hsome : (ByteArray.utf8Decode? ⟨bytes.toArray⟩).isSome = true := by rw [hc]; rfl
    have hget : (ByteArray.utf8Decode? ⟨bytes.toArray⟩).get hsome = chars := by simp [hc]
    have hencode : chars.toList.utf8Encode = ⟨bytes.toArray⟩ := by
      rw [← hget, ByteArray.utf8Encode_get_utf8Decode?]
    have hdata := congrArg (fun array => array.data.toList) hencode
    rwa [List.utf8Encode, List.toList_data_toByteArray] at hdata
  · rintro rfl
    exact decode?_flatMap text

/-- A letter behind bytes is decoded from the byte that marks it. -/
theorem Text.decode?_concat {c : Char} {b : UInt8} (hm : Marks String.utf8EncodeChar c b)
    (bytes : List UInt8) : decode? (bytes ++ [b]) = (decode? bytes).map (· ++ [c]) := by
  ext text
  rw [decode?_eq_some_iff, Option.map_eq_some_iff]
  constructor
  · intro h
    rcases List.eq_nil_or_concat text with rfl | ⟨front, x, rfl⟩
    · simp at h
    · rw [List.concat_eq_append, List.flatMap_append, List.flatMap_singleton] at h
      have hx : x = c := by
        refine Decidable.byContradiction fun hne => ?_
        have hlast := congrArg List.getLast? h
        rw [List.getLast?_concat, List.getLast?_append, Option.or_eq_some_iff] at hlast
        rcases hlast with hlast | ⟨hnil, -⟩
        · exact hm.other x hne (List.mem_of_getLast? hlast)
        · exact String.utf8EncodeChar_ne_nil (List.getLast?_eq_none_iff.1 hnil)
      rw [hx, hm.self] at h
      refine ⟨front, decode?_eq_some_iff.2 (List.append_cancel_right h), ?_⟩
      rw [hx, List.concat_eq_append]
  · rintro ⟨front, hfront, rfl⟩
    rw [List.flatMap_append, List.flatMap_singleton, hm.self, decode?_eq_some_iff.1 hfront]

/-- Dropping a marked letter commutes with decoding. -/
theorem Text.decode?_dropMark {c : Char} {b : UInt8} (hm : Marks String.utf8EncodeChar c b)
    (bytes : List UInt8) : decode? (dropMark b bytes) = (decode? bytes).map (dropMark c) := by
  by_cases hlast : bytes.getLast? = some b
  · obtain ⟨front, rfl⟩ := List.getLast?_eq_some_iff.1 hlast
    rw [dropMark, if_pos hlast, List.dropLast_concat, decode?_concat hm, Option.map_map]
    have hdrop : dropMark c ∘ (· ++ [c]) = id := by
      funext text
      simp [dropMark]
    rw [hdrop, Option.map_id, id]
  · rw [dropMark, if_neg hlast]
    cases hd : decode? bytes with
    | none => rfl
    | some text =>
      have hbytes := dropMark_flatMap hm (fun _ => String.utf8EncodeChar_ne_nil) text
      rw [decode?_eq_some_iff.1 hd, dropMark, if_neg hlast] at hbytes
      rw [Option.map_some, ← decode?_flatMap (dropMark c text), ← hbytes, hd]

/-- In bytes a line feed is marked by a byte. -/
theorem Text.marks_lineFeed : Marks String.utf8EncodeChar '\n' 10 :=
  marks_utf8EncodeChar rfl (by decide)

/-- In bytes a carriage return is marked by a byte. -/
theorem Text.marks_carriageReturn : Marks String.utf8EncodeChar '\r' 13 :=
  marks_utf8EncodeChar rfl (by decide)

/-- The bytes of a text have the lines of the text. -/
theorem Dump.linesOfBytes_encode (text : String) :
    linesOfBytes (Text.encode text) = linesOfText text.toList := by
  rw [linesOfBytes, Text.encode_eq, Text.lines_flatMap Text.marks_lineFeed
    Text.marks_carriageReturn fun _ => String.utf8EncodeChar_ne_nil, List.map_map]
  exact List.map_congr_left fun line _ => Text.decode?_flatMap line

end PathCensus
