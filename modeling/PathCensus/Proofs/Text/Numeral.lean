import PathCensus.Text.Blank
import PathCensus.Text.Numeral

/-!
# Numerals of numbers

The decimal digits of a number are read as that number if it is below the limit, and refused as too
large otherwise. They hold no white space and no sign.
-/

namespace PathCensus.Text

/-- Reading on never makes the number smaller. -/
theorem le_ofDigitChars (digits : List Char) (value : Nat) :
    value ≤ Nat.ofDigitChars 10 digits value := by
  induction digits generalizing value with
  | nil => simp
  | cons c rest ih =>
    rw [Nat.ofDigitChars_cons]
    refine Nat.le_trans ?_ (ih _)
    omega

/-- Digits are read as their number, if that is below the limit. -/
theorem readDigits_eq {value : Nat} (hv : value < numeralLimit) {digits : List Char}
    (hd : ∀ c ∈ digits, c.isDigit = true) :
    readDigits value digits =
      if Nat.ofDigitChars 10 digits value < numeralLimit then
        .ok (Nat.ofDigitChars 10 digits value)
      else .error .tooLarge := by
  induction digits generalizing value with
  | nil => simp [readDigits, hv]
  | cons c rest ih =>
    have hc : c.isDigit = true := hd c List.mem_cons_self
    rw [readDigits, Nat.ofDigitChars_cons, if_pos hc]
    by_cases hnext : 10 * value + (c.toNat - '0'.toNat) < numeralLimit
    · simp only [if_pos hnext]
      exact ih hnext fun d hd' => hd d (List.mem_cons_of_mem c hd')
    · have hge := le_ofDigitChars rest (10 * value + (c.toNat - '0'.toNat))
      have htotal : ¬ Nat.ofDigitChars 10 rest (10 * value + (c.toNat - '0'.toNat)) <
          numeralLimit := by omega
      simp only [if_neg hnext, if_neg htotal]

/-- The code points of digits. -/
theorem toNat_of_isDigit {c : Char} (h : c.isDigit = true) : 48 ≤ c.toNat ∧ c.toNat ≤ 57 := by
  simp only [Char.isDigit, Bool.and_eq_true, decide_eq_true_eq, ge_iff_le,
    UInt32.le_iff_toNat_le] at h
  exact h

/-- A digit is not white space. -/
theorem isBlank_of_isDigit {c : Char} (h : c.isDigit = true) : isBlank c = false := by
  have hc := toNat_of_isDigit h
  simp only [isBlank, Bool.or_eq_false_iff, Bool.and_eq_false_iff, decide_eq_false_iff_not,
    beq_eq_false_iff_ne]
  omega

/-- The digits of a number are digits. -/
theorem isDigit_of_mem_repr {n : Nat} {c : Char} (h : c ∈ n.repr.toList) : c.isDigit = true := by
  rw [Nat.toList_repr] at h
  exact Nat.isDigit_of_mem_toDigits (by decide) (by decide) h

/-- The digits of a number leave out any other character. -/
theorem notMem_repr {n : Nat} {c : Char} (h : c.isDigit = false) : c ∉ n.repr.toList := by
  intro hc
  rw [isDigit_of_mem_repr hc] at h
  cases h

theorem repr_toList_ne_nil (n : Nat) : n.repr.toList ≠ [] := by
  rw [Nat.toList_repr]
  exact Nat.toDigits_ne_nil

/-- Digits alone are read from the first of them on. -/
theorem readNumeral_of_digits {digits : List Char} (hne : digits ≠ [])
    (hd : ∀ c ∈ digits, c.isDigit = true) : readNumeral digits = readDigits 0 digits := by
  have hplus : '+' ∉ digits := by
    intro hp
    have h := hd '+' hp
    revert h
    decide
  unfold readNumeral
  split
  · exact absurd rfl hne
  · exact absurd (by simp) hplus
  · exact absurd (by simp) hplus
  · rfl

/-- The numeral of a number is read as the number, if that is below the limit. -/
theorem readNumeral_repr (n : Nat) :
    readNumeral n.repr.toList = if n < numeralLimit then .ok n else .error .tooLarge := by
  have hdigits : ∀ c ∈ n.repr.toList, c.isDigit = true := fun c hc => isDigit_of_mem_repr hc
  rw [readNumeral_of_digits (repr_toList_ne_nil n) hdigits, readDigits_eq (by decide) hdigits,
    Nat.toList_repr, Nat.ofDigitChars_ten_toDigits]

/-- What is read on as digits are digits. -/
theorem isDigit_of_readDigits {value n : Nat} {digits : List Char}
    (h : readDigits value digits = .ok n) : ∀ c ∈ digits, c.isDigit = true := by
  induction digits generalizing value with
  | nil => exact nofun
  | cons c rest ih =>
    rw [readDigits] at h
    split at h
    · next hc =>
      dsimp only at h
      split at h
      · exact List.forall_mem_cons.2 ⟨hc, ih h⟩
      · cases h
    · cases h

/-- A numeral has digits, and perhaps a sign in front of them. -/
theorem mem_of_readNumeral {numeral : List Char} {n : Nat} (h : readNumeral numeral = .ok n) :
    ∀ c ∈ numeral, c = '+' ∨ c.isDigit = true := by
  unfold readNumeral at h
  split at h
  · cases h
  · cases h
  · exact List.forall_mem_cons.2 ⟨.inl rfl, fun c hc => .inr (isDigit_of_readDigits h c hc)⟩
  · exact fun c hc => .inr (isDigit_of_readDigits h c hc)

/-! ## What numerals name -/

/-- Digits name a number if there are some and their decimal value is the number, which has at most
64 bits. -/
structure Names (digits : List Char) (value : Nat) : Prop where
  /-- There is a digit. -/
  ne_nil : digits ≠ []
  /-- There is nothing but digits. -/
  isDigit : ∀ c ∈ digits, c.isDigit = true
  /-- The decimal value. -/
  ofDigitChars_eq : Nat.ofDigitChars 10 digits 0 = value
  /-- The number is not too large. -/
  lt : value < numeralLimit

/-- A numeral names a number by digits, which a plus sign may lead. -/
inductive Numeral : List Char → Nat → Prop where
  /-- Digits alone. -/
  | plain {digits : List Char} {value : Nat} : Names digits value → Numeral digits value
  /-- A plus sign and digits. -/
  | signed {digits : List Char} {value : Nat} : Names digits value → Numeral ('+' :: digits) value

/-- A text is read as the number that its digits name. -/
theorem readDigits_eq_ok_iff {digits : List Char} (hne : digits ≠ []) {value : Nat} :
    readDigits 0 digits = .ok value ↔ Names digits value := by
  constructor
  · intro h
    have hd := isDigit_of_readDigits h
    rw [readDigits_eq (by decide) hd] at h
    split at h
    · next hlt =>
      obtain rfl := Except.ok.inj h
      exact ⟨hne, hd, rfl, hlt⟩
    · cases h
  · intro h
    rw [readDigits_eq (by decide) h.isDigit, h.ofDigitChars_eq, if_pos h.lt]

/-- Digits are read as a number exactly if they name it. -/
theorem readNumeral_eq_ok_iff {digits : List Char} (hd : ∀ c ∈ digits, c.isDigit = true)
    {value : Nat} : readNumeral digits = .ok value ↔ Names digits value := by
  by_cases hne : digits = []
  · subst hne
    exact ⟨nofun, fun h => absurd rfl h.ne_nil⟩
  · rw [readNumeral_of_digits hne hd, readDigits_eq_ok_iff hne]

/-- A text is read as a number exactly if it is a numeral of it. -/
theorem readNumeral_iff {text : List Char} {value : Nat} :
    readNumeral text = .ok value ↔ Numeral text value := by
  constructor
  · intro h
    unfold readNumeral at h
    split at h
    · cases h
    · cases h
    · next hne =>
      exact .signed ((readDigits_eq_ok_iff hne).1 h)
    · next hne _ _ =>
      exact .plain ((readDigits_eq_ok_iff hne).1 h)
  · intro h
    cases h with
    | plain hn => exact (readNumeral_eq_ok_iff hn.isDigit).2 hn
    | @signed digits _ hn =>
      cases digits with
      | nil => exact absurd rfl hn.ne_nil
      | cons c rest => exact (readDigits_eq_ok_iff hn.ne_nil).2 hn

/-! ## Cutting off white space -/

/-- A text without white space at its start loses nothing there. -/
theorem trimStart_of_head {text : List Char} (h : ∀ c ∈ text.head?, isBlank c = false) :
    trimStart text = text := by
  cases text with
  | nil => rfl
  | cons c rest => rw [trimStart, List.dropWhile_cons_of_neg (by simp [h c rfl])]

/-- A text without white space at its end loses nothing there. -/
theorem trimEnd_of_last {text : List Char} (h : ∀ c ∈ text.getLast?, isBlank c = false) :
    trimEnd text = text := by
  have hr : trimStart text.reverse = text.reverse := trimStart_of_head (by simpa using h)
  rw [trimEnd, ← trimStart, hr, List.reverse_reverse]

/-- A text without white space is not trimmed. -/
theorem trim_of_forall {text : List Char} (h : ∀ c ∈ text, isBlank c = false) :
    trim text = text := by
  rw [trim, trimStart_of_head fun c hc => h c (List.mem_of_mem_head? hc),
    trimEnd_of_last fun c hc => h c (List.mem_of_getLast? hc)]

/-- Only white space is cut off the end. -/
theorem exists_trimEnd_append (text : List Char) :
    ∃ blanks, text = trimEnd text ++ blanks ∧ ∀ c ∈ blanks, isBlank c = true := by
  refine ⟨(text.reverse.takeWhile isBlank).reverse, ?_, ?_⟩
  · rw [trimEnd, ← List.reverse_append, List.takeWhile_append_dropWhile, List.reverse_reverse]
  · intro c hc
    exact List.all_eq_true.1 List.all_takeWhile c (List.mem_reverse.1 hc)

/-- White space behind a text is cut off it. -/
theorem trimEnd_append {text blanks : List Char} (hb : ∀ c ∈ blanks, isBlank c = true) :
    trimEnd (text ++ blanks) = trimEnd text := by
  have hreverse : ∀ c ∈ blanks.reverse, isBlank c = true := fun c hc => hb c (List.mem_reverse.1 hc)
  rw [trimEnd, List.reverse_append, List.dropWhile_append_of_pos hreverse, trimEnd]

/-- White space in front of a text is cut off it. -/
theorem trim_append_left {text blanks : List Char} (hb : ∀ c ∈ blanks, isBlank c = true) :
    trim (blanks ++ text) = trim text := by
  rw [trim, trimStart, List.dropWhile_append_of_pos hb, trim, trimStart]

/-- White space behind a text is cut off it, also where nothing else is left. -/
theorem trim_append_right {text blanks : List Char} (hb : ∀ c ∈ blanks, isBlank c = true) :
    trim (text ++ blanks) = trim text := by
  rw [trim, trimStart, List.dropWhile_append]
  split
  · next hnil =>
    have hblanks := @List.dropWhile_append_of_pos _ isBlank blanks [] hb
    rw [List.append_nil] at hblanks
    rw [hblanks, trim, trimStart, List.isEmpty_iff.1 hnil]
    rfl
  · exact trimEnd_append hb

/-- A text is what trimming leaves of it, with white space on both sides. -/
theorem exists_trim (text : List Char) :
    ∃ front behind, text = front ++ trim text ++ behind ∧
      (∀ c ∈ front, isBlank c = true) ∧ ∀ c ∈ behind, isBlank c = true := by
  obtain ⟨behind, hsplit, hbehind⟩ := exists_trimEnd_append (trimStart text)
  refine ⟨text.takeWhile isBlank, behind, ?_, List.all_eq_true.1 List.all_takeWhile, hbehind⟩
  rw [List.append_assoc, trim, ← hsplit, trimStart, List.takeWhile_append_dropWhile]

/-- Trimming leaves nothing exactly of white space. -/
theorem trim_eq_nil_iff {text : List Char} : trim text = [] ↔ ∀ c ∈ text, isBlank c = true := by
  constructor
  · intro h
    obtain ⟨front, behind, hsplit, hfront, hbehind⟩ := exists_trim text
    rw [h, List.append_nil] at hsplit
    rw [hsplit]
    exact List.forall_mem_append.2 ⟨hfront, hbehind⟩
  · intro h
    have htext := @trim_append_left [] text h
    rwa [List.append_nil] at htext

/-- A text whose start is cut off does not start with white space. -/
theorem isBlank_of_mem_head?_trimStart {text : List Char} {c : Char}
    (h : c ∈ (trimStart text).head?) : isBlank c = false := by
  have hnot := List.head?_dropWhile_not isBlank text
  rw [trimStart, Option.mem_def] at h
  rw [h] at hnot
  simpa using hnot

/-- A trimmed text has white space at neither end. -/
theorem ends_trim (text : List Char) :
    (∀ c ∈ (trim text).head?, isBlank c = false) ∧
      ∀ c ∈ (trim text).getLast?, isBlank c = false := by
  constructor
  · intro c hc
    obtain ⟨blanks, hsplit, -⟩ := exists_trimEnd_append (trimStart text)
    apply @isBlank_of_mem_head?_trimStart text
    rw [hsplit, List.head?_append, ← trim, Option.mem_def.1 hc]
    rfl
  · intro c hc
    apply @isBlank_of_mem_head?_trimStart (trimStart text).reverse
    rwa [trim, trimEnd, List.getLast?_reverse] at hc

/-- Trimming leaves a text as it is exactly if it has white space at neither end. -/
theorem trim_eq_self_iff {text : List Char} :
    trim text = text ↔ (∀ c ∈ text.head?, isBlank c = false) ∧
      ∀ c ∈ text.getLast?, isBlank c = false := by
  constructor
  · intro h
    have hends := ends_trim text
    rwa [h] at hends
  · rintro ⟨hhead, hlast⟩
    rw [trim, trimStart_of_head hhead, trimEnd_of_last hlast]

/-- Trimming takes letters away and adds none. -/
theorem mem_of_mem_trim {text : List Char} {c : Char} (h : c ∈ trim text) : c ∈ text := by
  obtain ⟨front, behind, hsplit, -⟩ := exists_trim text
  rw [hsplit]
  exact List.mem_append_left _ (List.mem_append_right _ h)

/-- A numeral is not trimmed. -/
theorem trim_repr (n : Nat) : trim n.repr.toList = n.repr.toList :=
  trim_of_forall fun _ hc => isBlank_of_isDigit (isDigit_of_mem_repr hc)

end PathCensus.Text
