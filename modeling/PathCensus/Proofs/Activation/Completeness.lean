import PathCensus.Proofs.Activation.Soundness

/-!
# What is derived is read

Every text of tokens that derive an activation is read as that activation. Words are told apart by
their first characters, and a chain is read up to the place where its tokens end, if no further item
is joined there.
-/

namespace PathCensus

/-! ## White space and letters -/

namespace Text

/-- The ranges of white space. -/
def blankRanges : CodeRanges :=
  [(9, 13), (0x20, 0x20), (0x85, 0x85), (0xA0, 0xA0), (0x1680, 0x1680), (0x2000, 0x200A),
   (0x2028, 0x2029), (0x202F, 0x202F), (0x205F, 0x205F), (0x3000, 0x3000)]

theorem exists_blankRange {c : Char} (h : isBlank c = true) :
    ∃ range ∈ blankRanges, range.1 ≤ c.toNat ∧ c.toNat ≤ range.2 := by
  simp [isBlank, blankRanges] at h ⊢
  omega

/-- No range of white space meets a range of letters and digits. -/
theorem blankRanges_apart : (blankRanges.all fun blank =>
    alphanumericRanges.all fun word => Nat.blt blank.2 word.1 || Nat.blt word.2 blank.1) = true := by
  decide +kernel

theorem toNat_of_isAlphanum {c : Char} (h : c.isAlphanum = true) :
    48 ≤ c.toNat ∧ c.toNat ≤ 122 := by
  change ((decide ('A'.val ≤ c.val ∧ c.val ≤ 'Z'.val) ||
    decide ('a'.val ≤ c.val) && decide (c.val ≤ 'z'.val)) ||
    decide ('0'.val ≤ c.val) && decide (c.val ≤ '9'.val)) = true at h
  simp only [Bool.or_eq_true, Bool.and_eq_true, decide_eq_true_eq, UInt32.le_iff_toNat_le] at h
  change ((65 ≤ c.toNat ∧ c.toNat ≤ 90) ∨ (97 ≤ c.toNat ∧ c.toNat ≤ 122)) ∨
    (48 ≤ c.toNat ∧ c.toNat ≤ 57) at h
  omega

/-- White space is neither a letter nor a digit. -/
theorem isAlphanumeric_of_isBlank {c : Char} (h : isBlank c = true) :
    isAlphanumeric c = false := by
  obtain ⟨blank, hblank, hlow, hhigh⟩ := exists_blankRange h
  have hascii : c.isAlphanum = false := by
    refine eq_false_of_ne_true fun hword => ?_
    have hbounds := toNat_of_isAlphanum hword
    have hfar : ∀ range ∈ blankRanges, range.2 < 48 ∨ 122 < range.1 := by decide
    have hrange := hfar blank hblank
    omega
  have hranges : alphanumericRanges.has c = false := by
    rw [CodeRanges.has, List.any_eq_false]
    intro word hword
    have hapart := List.all_eq_true.1 (List.all_eq_true.1 blankRanges_apart blank hblank) word hword
    simp only [Bool.or_eq_true, Nat.blt_eq, Bool.and_eq_true, decide_eq_true_eq] at hapart ⊢
    omega
  rw [isAlphanumeric, hascii, hranges, Bool.or_false]

theorem Names.ne_head {digits : List Char} {value : Nat} {c d : Char}
    (h : Names (d :: digits) value) (hc : c.isDigit = false) : c ≠ d := by
  rintro rfl
  rw [h.isDigit c List.mem_cons_self] at hc
  cases hc

end Text

namespace Activation

/-! ## Where words end -/

section Ends

variable {token : Token} {tokens : List Token} {word text rest : List Char}

/-- White space does not go on a word. -/
theorem goesOn_of_isBlank {c : Char} (h : Text.isBlank c = true) : goesOn c = false := by
  have hbar : c ≠ '_' := by
    rintro rfl
    revert h
    decide
  rw [goesOn, Text.isAlphanumeric_of_isBlank h, decide_eq_false hbar, Bool.or_false]

theorem goesOn_of_isDigit {c : Char} (h : c.isDigit = true) : goesOn c = true := by
  simp [goesOn, Text.isAlphanumeric, Char.isAlphanum, h]

theorem stops_append {blanks : List Char} (hb : ∀ c ∈ blanks, Text.isBlank c = true)
    (h : Stops text) : Stops (blanks ++ text) := by
  cases blanks with
  | nil => exact h
  | cons b blanks => exact goesOn_of_isBlank (hb b List.mem_cons_self)

theorem Spells.stops_append (hs : Spells token word) (h : Stops word) (rest : List Char) :
    Stops (word ++ rest) := by
  obtain ⟨c, more, rfl, -⟩ := hs.exists_cons
  exact h

theorem Written.stops_of_nil (h : Written [] text rest) (hr : Stops rest) : Stops text := by
  cases h with
  | nil hb => exact Activation.stops_append hb hr

/-- No word is gone on by one that is neither for a constant nor for an operand. -/
theorem Spells.stops (h : Spells token word) (hconstant : ∀ value, token ≠ .constant value)
    (hoperand : ∀ operand, token ≠ .operand operand) : Stops word := by
  cases h with
  | truth => exact absurd rfl (hconstant true)
  | falsity => exact absurd rfl (hconstant false)
  | sum => exact absurd rfl (hoperand .sum)
  | count => exact absurd rfl (hoperand _)
  | literal => exact absurd rfl (hoperand _)
  | comparison relation => cases relation <;> decide +kernel
  | _ => decide +kernel

theorem Written.stops (h : Written (token :: tokens) text rest)
    (hconstant : ∀ value, token ≠ .constant value)
    (hoperand : ∀ operand, token ≠ .operand operand) : Stops text := by
  cases h with
  | cons hb hs h =>
    exact Activation.stops_append hb (hs.stops_append (hs.stops hconstant hoperand) _)

/-- The words for operands start with a letter or a digit. -/
theorem Spells.ne_head {operand : Operand} {c d : Char} (h : Spells (.operand operand) (d :: word))
    (hs : c ≠ 's') (hx : c ≠ 'x') (hd : c.isDigit = false) : c ≠ d := by
  cases h with
  | sum => exact hs
  | count => exact hx
  | literal hn => exact hn.ne_head hd

/-- No sign of a comparison is gone on by an operand. -/
theorem Written.head_ne {operand : Operand} (h : Written (.operand operand :: tokens) text rest) :
    ∀ c ∈ text.head?, '=' ≠ c := by
  cases h with
  | @cons blanks word _ _ _ _ hb hs h =>
    cases blanks with
    | nil =>
      obtain ⟨d, more, rfl, -⟩ := hs.exists_cons
      intro c hc
      obtain rfl := Option.some.inj hc
      exact hs.ne_head (by decide) (by decide) (by decide)
    | cons b blanks =>
      intro c hc
      obtain rfl := Option.some.inj hc
      rintro rfl
      exact absurd (hb '=' List.mem_cons_self) (by decide)

end Ends

/-! ## Operands and comparisons -/

section Compared

variable {sign word text more rest : List Char}

theorem eat?_append (sign rest : List Char) : eat? sign (sign ++ rest) = some rest :=
  eat?_eq_some_iff.2 rfl

theorem eatWord?_append (word : List Char) (h : Stops rest) :
    eatWord? word (word ++ rest) = some rest :=
  eatWord?_eq_some_iff.2 ⟨rfl, h⟩

theorem eat?_cons_of_ne {c d : Char} (h : c ≠ d) : eat? (c :: sign) (d :: text) = none :=
  if_neg h

theorem eatWord?_cons_of_ne {c d : Char} (h : c ≠ d) :
    eatWord? (c :: sign) (d :: text) = none := by
  rw [eatWord?, eat?_cons_of_ne h]

/-- A number ends where no digit follows. -/
theorem takeWhile_digits {digits : List Char} (hd : ∀ c ∈ digits, c.isDigit = true)
    (hmore : Stops more) : (digits ++ more).takeWhile Char.isDigit = digits ∧
      (digits ++ more).dropWhile Char.isDigit = more := by
  rw [List.takeWhile_append_of_pos hd, List.dropWhile_append_of_pos hd]
  cases more with
  | nil => exact ⟨List.append_nil _, rfl⟩
  | cons c more =>
    have hc : ¬ c.isDigit = true := by
      intro hc
      rw [Stops, List.head?_cons, Option.any_some, goesOn_of_isDigit hc] at hmore
      cases hmore
    rw [List.takeWhile_cons_of_neg hc, List.dropWhile_cons_of_neg hc, List.append_nil]
    exact ⟨rfl, rfl⟩

theorem readOperand_of_spells {operand : Operand} (hs : Spells (.operand operand) word)
    (htext : skip text = word ++ more) (hmore : Stops more) :
    readOperand text = .ok (operand, more) := by
  rw [readOperand, htext]
  cases hs with
  | sum =>
    rw [eatWord?_append _ hmore]
  | @count digits index hn =>
    obtain ⟨htake, hdrop⟩ := takeWhile_digits hn.isDigit hmore
    have hx : eat? ['x'] ('x' :: (digits ++ more)) = some (digits ++ more) := eat?_append _ _
    rw [List.cons_append, eatWord?_cons_of_ne (by decide), hx]
    simp only [readIndex, htake, hdrop, (Text.readNumeral_eq_ok_iff hn.isDigit).2 hn]
  | @literal _ value hn =>
    obtain ⟨htake, hdrop⟩ := takeWhile_digits hn.isDigit hmore
    obtain ⟨d, digits, rfl⟩ := List.exists_cons_of_ne_nil hn.ne_nil
    have hs : 's' ≠ d := hn.ne_head (by decide)
    have hx : 'x' ≠ d := hn.ne_head (by decide)
    rw [List.cons_append, eatWord?_cons_of_ne hs, eat?_cons_of_ne hx, ← List.cons_append]
    simp only [readLiteral, htake, hdrop, (Text.readNumeral_eq_ok_iff hn.isDigit).2 hn]

theorem readComparison_of_render (relation : Comparison)
    (htext : skip text = relation.render.toList ++ more) (hmore : ∀ c ∈ more.head?, '=' ≠ c) :
    readComparison text = .ok (relation, more) := by
  have hshort : eat? ['='] more = none := by
    cases more with
    | nil => rfl
    | cons c more => exact eat?_cons_of_ne (hmore c rfl)
  rw [readComparison, htext]
  cases relation <;> simp [Comparison.render, comparisonSigns, eat?, hshort]

end Compared

/-! ## Chains -/

/-- A reader takes an activation from the front of a text and leaves the rest, up to white space. -/
def Reaches (item : Reader Activation) (text : List Char) (activation : Activation)
    (rest : List Char) : Prop :=
  ∃ left, item text = .ok (activation, left) ∧ skip left = skip rest

/-- A chain is read up to some place in the text, and on from there if a further item is joined. -/
def ChainReaches (sign : List Char) (join : Activation → Activation → Activation)
    (item : Reader Activation) (text : List Char) (left : Activation) (rest : List Char) : Prop :=
  ∃ bound, (skip rest).length ≤ bound ∧
    readJoined sign join item text = readChain sign join item bound left rest

section Chains

variable {sign : List Char} {join : Activation → Activation → Activation}
  {item : Reader Activation} {text middle more rest : List Char} {first second : Activation}

theorem length_skip_le (text : List Char) : (skip text).length ≤ text.length :=
  (skip_isSuffix text).length_le

theorem readChain_congr (h : skip text = skip rest) (bound : Nat) (left : Activation) :
    readChain sign join item bound left text = readChain sign join item bound left rest := by
  cases bound with
  | zero => rw [readChain, readChain, h]
  | succ bound => rw [readChain, readChain, h]

/-- A chain is read up to the end of its first item. -/
theorem ChainReaches.single (h : Reaches item text first rest) :
    ChainReaches sign join item text first rest := by
  obtain ⟨left, hread, hskip⟩ := h
  refine ⟨left.length, hskip ▸ length_skip_le left, ?_⟩
  rw [readJoined, hread]
  exact readChain_congr hskip _ _

/-- A chain is read up to the end of an item behind its sign. The bound leaves enough for the rest,
for the sign is not empty. -/
theorem ChainReaches.joined (h : ChainReaches sign join item text first middle)
    (hsign : sign ≠ []) (hmiddle : skip middle = sign ++ more)
    (hitem : Reaches item more second rest) (hlength : rest.length ≤ more.length) :
    ChainReaches sign join item text (join first second) rest := by
  obtain ⟨bound, hbound, hread⟩ := h
  obtain ⟨left, hright, hskip⟩ := hitem
  rw [hmiddle, List.length_append] at hbound
  have hpos := List.length_pos_iff.2 hsign
  have hrest := length_skip_le rest
  obtain ⟨bound, rfl⟩ : ∃ n, bound = n + 1 := ⟨bound - 1, by omega⟩
  refine ⟨bound, by omega, ?_⟩
  rw [hread, readChain, hmiddle, eat?_append]
  simp only [hright]
  exact readChain_congr hskip _ _

/-- A chain is read if nothing further is joined. -/
theorem ChainReaches.finish (h : ChainReaches sign join item text first rest)
    (hend : eat? sign (skip rest) = none) :
    Reaches (readJoined sign join item) text first rest := by
  obtain ⟨bound, -, hread⟩ := h
  refine ⟨skip rest, ?_, skip_skip rest⟩
  rw [hread]
  cases bound with
  | zero => rfl
  | succ bound => rw [readChain, hend]

end Chains

/-! ## Conditions -/

section Unary

variable {depth : Nat} {text more rest : List Char} {activation : Activation}

theorem reaches_negation (htext : skip text = '!' :: more)
    (h : Reaches (readUnary depth) more activation rest) :
    Reaches (readUnary (depth + 1)) text (.negation activation) rest := by
  obtain ⟨left, hread, hskip⟩ := h
  have hnot : eat? ['!'] ('!' :: more) = some more := eat?_append _ _
  refine ⟨left, ?_, hskip⟩
  simp only [readUnary, htext, hnot, hread]

theorem reaches_parentheses {middle behind : List Char} (htext : skip text = '(' :: more)
    (h : Reaches (readDisjunction (readUnary depth)) more activation middle)
    (hmiddle : skip middle = ')' :: behind) (hbehind : skip behind = skip rest) :
    Reaches (readUnary (depth + 1)) text activation rest := by
  obtain ⟨left, hread, hskip⟩ := h
  have hnot : eat? ['!'] ('(' :: more) = none := eat?_cons_of_ne (by decide)
  have hopening : eat? ['('] ('(' :: more) = some more := eat?_append _ _
  have hclosing : eat? [')'] (')' :: behind) = some behind := eat?_append _ _
  refine ⟨behind, ?_, hbehind⟩
  simp only [readUnary, htext, hnot, hopening, hread, hskip, hmiddle, hclosing]

theorem reaches_constant {value : Bool} (h : Written [.constant value] text rest)
    (hrest : Stops rest) : Reaches (readUnary (depth + 1)) text (.constant value) rest := by
  obtain ⟨word, more, htext, hword, hmore⟩ := h.exists_word
  have hstops : Stops more := hmore.stops_of_nil hrest
  have hnot : eat? ['!'] (word ++ more) = none := by
    cases hword <;> exact eat?_cons_of_ne (by decide)
  have hopening : eat? ['('] (word ++ more) = none := by
    cases hword <;> exact eat?_cons_of_ne (by decide)
  refine ⟨more, ?_, hmore.skip_eq⟩
  simp only [readUnary, htext, hnot, hopening]
  cases hword with
  | truth => simp only [eatWord?_append _ hstops]
  | falsity =>
    have htrue : eatWord? ['t', 'r', 'u', 'e'] (['f', 'a', 'l', 's', 'e'] ++ more) = none :=
      eatWord?_cons_of_ne (by decide)
    simp only [htrue, eatWord?_append _ hstops]

theorem reaches_comparison {left right : Operand} {relation : Comparison}
    (h : Written [.operand left, .comparison relation, .operand right] text rest)
    (hrest : Stops rest) :
    Reaches (readUnary (depth + 1)) text (.comparison left relation right) rest := by
  obtain ⟨first, behind, htext, hleft, hbehind⟩ := h.exists_word
  obtain ⟨sign, beyond, hskip, hsign, hbeyond⟩ := hbehind.exists_word
  obtain ⟨last, more, hlast, hright, hmore⟩ := hbeyond.exists_word
  have hstops : Stops behind := hbehind.stops nofun nofun
  cases hsign with
  | comparison relation =>
  have hcompared : readCompared (skip text) = .ok (.comparison left relation right, more) := by
    have hfirst := readOperand_of_spells hleft ((skip_skip text).trans htext) hstops
    have hrelation := readComparison_of_render relation hskip hbeyond.head_ne
    have hsecond := readOperand_of_spells hright hlast (hmore.stops_of_nil hrest)
    simp only [readCompared, hfirst, hrelation, hsecond]
  refine ⟨more, ?_, hmore.skip_eq⟩
  obtain ⟨d, digits, rfl, -⟩ := hleft.exists_cons
  have hhead (c : Char) (hs : c ≠ 's') (hx : c ≠ 'x') (hd : c.isDigit = false) : c ≠ d :=
    hleft.ne_head hs hx hd
  rw [htext, List.cons_append] at hcompared
  rw [readUnary, htext, List.cons_append]
  simp only [eat?_cons_of_ne (hhead '!' (by decide) (by decide) (by decide)),
    eat?_cons_of_ne (hhead '(' (by decide) (by decide) (by decide)),
    eatWord?_cons_of_ne (hhead 't' (by decide) (by decide) (by decide)),
    eatWord?_cons_of_ne (hhead 'f' (by decide) (by decide) (by decide)), hcompared]

end Unary

/-! ## Texts -/

/-- What is derived at a level is read from every text of its tokens that is short enough for the
depth. A chain may go on behind the tokens, but a disjunction is read up to there only if no further
condition is joined to its last conjunction. -/
def Complete : Level → List Token → Activation → Prop
  | .unary, tokens, activation =>
    ∀ {depth : Nat} {text rest : List Char}, Written tokens text rest → Stops rest →
      text.length < depth → Reaches (readUnary depth) text activation rest
  | .conjunction, tokens, activation =>
    ∀ {depth : Nat} {text rest : List Char}, Written tokens text rest → Stops rest →
      text.length < depth →
      ChainReaches ['&', '&'] .conjunction (readUnary depth) text activation rest
  | .disjunction, tokens, activation =>
    ∀ {depth : Nat} {text rest : List Char}, Written tokens text rest → Stops rest →
      text.length < depth → eat? ['&', '&'] (skip rest) = none →
      ChainReaches ['|', '|'] .disjunction
        (readJoined ['&', '&'] .conjunction (readUnary depth)) text activation rest

/-- Behind a word there is less text than in front of it. -/
theorem length_behind {text word more : List Char} {c : Char} (h : skip text = c :: word ++ more) :
    more.length < text.length := by
  have hlength := length_skip_le text
  rw [h, List.cons_append, List.length_cons, List.length_append] at hlength
  omega

variable {tokens : List Token} {activation : Activation}

/-- By induction on the derivation, for every depth: what stands in parentheses is read one depth
further down. -/
theorem Derives.complete {level : Level} (h : Derives level tokens activation) :
    Complete level tokens activation := by
  induction h with
  | ofConjunction _ ih =>
    intro depth text rest hwritten hrest hdepth hend
    exact .single ((ih hwritten hrest hdepth).finish hend)
  | disjunction _ _ ihleft ihright =>
    intro depth text rest hwritten hrest hdepth hend
    obtain ⟨middle, hleft, hmiddle⟩ := hwritten.exists_middle
    obtain ⟨sign, more, hskip, hsign, hmore⟩ := hmiddle.exists_word
    have hstops : Stops middle := hmiddle.stops nofun nofun
    cases hsign
    have hshort := Nat.lt_of_lt_of_le (length_behind hskip) hleft.length_le
    have hclosed : eat? ['&', '&'] (skip middle) = none := by
      rw [hskip]
      exact eat?_cons_of_ne (by decide)
    have hsecond := (ihright hmore hrest (Nat.lt_trans hshort hdepth)).finish hend
    exact (ihleft hleft hstops hdepth hclosed).joined nofun hskip hsecond hmore.length_le
  | ofUnary _ ih =>
    intro depth text rest hwritten hrest hdepth
    exact .single (ih hwritten hrest hdepth)
  | conjunction _ _ ihleft ihright =>
    intro depth text rest hwritten hrest hdepth
    obtain ⟨middle, hleft, hmiddle⟩ := hwritten.exists_middle
    obtain ⟨sign, more, hskip, hsign, hmore⟩ := hmiddle.exists_word
    have hstops : Stops middle := hmiddle.stops nofun nofun
    cases hsign
    have hshort := Nat.lt_of_lt_of_le (length_behind hskip) hleft.length_le
    have hsecond := ihright hmore hrest (Nat.lt_trans hshort hdepth)
    exact (ihleft hleft hstops hdepth).joined nofun hskip hsecond hmore.length_le
  | negation _ ih =>
    intro depth text rest hwritten hrest hdepth
    obtain ⟨depth, rfl⟩ := Nat.exists_eq_add_one.2 (Nat.zero_lt_of_lt hdepth)
    obtain ⟨sign, more, hskip, hsign, hmore⟩ := hwritten.exists_word
    cases hsign
    have hshort := Nat.lt_of_lt_of_le (length_behind hskip) (Nat.le_of_lt_succ hdepth)
    exact reaches_negation hskip (ih hmore hrest hshort)
  | parentheses _ ih =>
    intro depth text rest hwritten hrest hdepth
    obtain ⟨depth, rfl⟩ := Nat.exists_eq_add_one.2 (Nat.zero_lt_of_lt hdepth)
    obtain ⟨sign, more, hskip, hsign, hmore⟩ := hwritten.exists_word
    obtain ⟨middle, hinner, hmiddle⟩ := hmore.exists_middle
    obtain ⟨last, behind, hclosing, hlast, hbehind⟩ := hmiddle.exists_word
    have hstops : Stops middle := hmiddle.stops nofun nofun
    cases hsign
    cases hlast
    have hshort := Nat.lt_of_lt_of_le (length_behind hskip) (Nat.le_of_lt_succ hdepth)
    have hends {c : Char} (hc : c ≠ ')') : eat? [c, c] (skip middle) = none := by
      rw [hclosing]
      exact eat?_cons_of_ne hc
    have hread := (ih hinner hstops hshort (hends (by decide))).finish (hends (by decide))
    exact reaches_parentheses hskip hread hclosing hbehind.skip_eq
  | constant value =>
    intro depth text rest hwritten hrest hdepth
    obtain ⟨depth, rfl⟩ := Nat.exists_eq_add_one.2 (Nat.zero_lt_of_lt hdepth)
    exact reaches_constant hwritten hrest
  | comparison left relation right =>
    intro depth text rest hwritten hrest hdepth
    obtain ⟨depth, rfl⟩ := Nat.exists_eq_add_one.2 (Nat.zero_lt_of_lt hdepth)
    exact reaches_comparison hwritten hrest

/-- A text that is derived is read. -/
theorem readAll_of_derives {text : List Char} (h : Derives .disjunction tokens activation)
    (hwritten : Written tokens text []) : readAll text = .ok activation := by
  have hchain := h.complete hwritten rfl (Nat.lt_succ_self text.length) rfl
  obtain ⟨left, hread, hskip⟩ := hchain.finish rfl
  rw [readAll, readDisjunction, hread]
  simp only [hskip]
  rfl

end Activation

end PathCensus
