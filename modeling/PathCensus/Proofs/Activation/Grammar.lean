import PathCensus.Activation.Parser
import PathCensus.Activation.Printer
import PathCensus.Proofs.Text.Numeral

/-!
# The grammar of activations

A text of an activation is a sequence of tokens with white space between them, and the tokens derive
the activation by a grammar with three levels. Chains lean left: the last item of a chain joins what
the items before it derive. Nothing here says how a text is read.
-/

namespace PathCensus

namespace Activation

/-- What texts of activations are made of. -/
inductive Token where
  /-- Joins two conditions one of which must hold. -/
  | or
  /-- Joins two conditions both of which must hold. -/
  | and
  /-- Negates the condition behind it. -/
  | not
  /-- Starts a condition in parentheses. -/
  | opening
  /-- Ends a condition in parentheses. -/
  | closing
  /-- Always or never. -/
  | constant (value : Bool)
  /-- A side of a comparison. -/
  | operand (operand : Operand)
  /-- Compares the operands around it. -/
  | comparison (relation : Comparison)

/-- The words that stand for a token. Leading zeros give a number many words. -/
inductive Spells : Token → List Char → Prop where
  /-- Two bars. -/
  | or : Spells .or ['|', '|']
  /-- Two ampersands. -/
  | and : Spells .and ['&', '&']
  /-- An exclamation mark. -/
  | not : Spells .not ['!']
  /-- A parenthesis that opens. -/
  | opening : Spells .opening ['(']
  /-- A parenthesis that closes. -/
  | closing : Spells .closing [')']
  /-- The word for always. -/
  | truth : Spells (.constant true) ['t', 'r', 'u', 'e']
  /-- The word for never. -/
  | falsity : Spells (.constant false) ['f', 'a', 'l', 's', 'e']
  /-- The word for the sum. -/
  | sum : Spells (.operand .sum) ['s', 'u', 'm']
  /-- An x and, at once, the number of a path. -/
  | count {digits : List Char} {index : Nat} : Text.Names digits index →
      Spells (.operand (.count index)) ('x' :: digits)
  /-- A number. -/
  | literal {digits : List Char} {value : Nat} : Text.Names digits value →
      Spells (.operand (.literal value)) digits
  /-- One of the six signs of comparisons. -/
  | comparison (relation : Comparison) : Spells (.comparison relation) relation.render.toList

/-- A text starts with words for tokens, with any white space before, between and behind them, and
goes on with `rest`. -/
inductive Written : List Token → List Char → List Char → Prop where
  /-- White space stands for no token. -/
  | nil {blanks rest : List Char} : (∀ c ∈ blanks, Text.isBlank c = true) →
      Written [] (blanks ++ rest) rest
  /-- A word stands for the first token. -/
  | cons {blanks word text rest : List Char} {token : Token} {tokens : List Token} :
      (∀ c ∈ blanks, Text.isBlank c = true) → Spells token word → Written tokens text rest →
      Written (token :: tokens) (blanks ++ (word ++ text)) rest

/-- The levels of the grammar, the loosest first. -/
inductive Level where
  /-- Conjunctions joined by or. -/
  | disjunction
  /-- Conditions joined by and. -/
  | conjunction
  /-- Conditions that are no chain. -/
  | unary

/-- Tokens derive an activation at a level. -/
inductive Derives : Level → List Token → Activation → Prop where
  /-- A conjunction is a disjunction of one. -/
  | ofConjunction {tokens : List Token} {activation : Activation} :
      Derives .conjunction tokens activation → Derives .disjunction tokens activation
  /-- A disjunction goes on with one more conjunction. -/
  | disjunction {left right : List Token} {first second : Activation} :
      Derives .disjunction left first → Derives .conjunction right second →
      Derives .disjunction (left ++ .or :: right) (.disjunction first second)
  /-- A condition is a conjunction of one. -/
  | ofUnary {tokens : List Token} {activation : Activation} :
      Derives .unary tokens activation → Derives .conjunction tokens activation
  /-- A conjunction goes on with one more condition. -/
  | conjunction {left right : List Token} {first second : Activation} :
      Derives .conjunction left first → Derives .unary right second →
      Derives .conjunction (left ++ .and :: right) (.conjunction first second)
  /-- A negation binds the condition behind it, and nothing further. -/
  | negation {tokens : List Token} {activation : Activation} :
      Derives .unary tokens activation → Derives .unary (.not :: tokens) (.negation activation)
  /-- Anything may stand in parentheses. -/
  | parentheses {tokens : List Token} {activation : Activation} :
      Derives .disjunction tokens activation →
      Derives .unary (.opening :: (tokens ++ [.closing])) activation
  /-- A constant is a condition. -/
  | constant (value : Bool) : Derives .unary [.constant value] (.constant value)
  /-- A comparison of two operands is a condition. -/
  | comparison (left : Operand) (relation : Comparison) (right : Operand) :
      Derives .unary [.operand left, .comparison relation, .operand right]
        (.comparison left relation right)

/-- The tokens of the whole text derive the activation. -/
def Denotes (text : String) (activation : Activation) : Prop :=
  ∃ tokens, Derives .disjunction tokens activation ∧ Written tokens text.toList []

/-! ## White space -/

theorem skip_append {blanks rest : List Char} (h : ∀ c ∈ blanks, Text.isBlank c = true) :
    skip (blanks ++ rest) = skip rest :=
  List.dropWhile_append_of_pos h

/-- The white space in front of a text. -/
theorem exists_blanks (text : List Char) :
    ∃ blanks, (∀ c ∈ blanks, Text.isBlank c = true) ∧ text = blanks ++ skip text :=
  ⟨text.takeWhile Text.isBlank, List.all_eq_true.1 List.all_takeWhile,
    List.takeWhile_append_dropWhile.symm⟩

@[simp] theorem skip_skip (text : List Char) : skip (skip text) = skip text := by
  refine Text.trimStart_of_head fun c hc => ?_
  have hstop := List.head?_dropWhile_not Text.isBlank text
  rwa [← Text.trimStart, Option.mem_def.1 hc] at hstop

theorem skip_isSuffix (text : List Char) : skip text <:+ text :=
  List.dropWhile_suffix _

/-- A word has a first character, and that is no white space. -/
theorem Spells.exists_cons {token : Token} {word : List Char} (h : Spells token word) :
    ∃ c rest, word = c :: rest ∧ Text.isBlank c = false := by
  cases h with
  | literal hn =>
    obtain ⟨c, rest, rfl⟩ := List.exists_cons_of_ne_nil hn.ne_nil
    exact ⟨c, rest, rfl, Text.isBlank_of_isDigit (hn.isDigit c List.mem_cons_self)⟩
  | comparison relation => cases relation <;> exact ⟨_, _, rfl, by decide⟩
  | _ => exact ⟨_, _, rfl, by decide⟩

theorem Spells.skip_append {token : Token} {word : List Char} (h : Spells token word)
    (rest : List Char) : skip (word ++ rest) = word ++ rest := by
  obtain ⟨c, more, rfl, hc⟩ := h.exists_cons
  exact Text.trimStart_of_head (by simpa using hc)

/-! ## Tokens one after another -/

namespace Written

variable {token : Token} {tokens more : List Token} {word text middle rest : List Char}

theorem ofBlanks {blanks : List Char} (hb : ∀ c ∈ blanks, Text.isBlank c = true)
    (h : Written tokens text rest) : Written tokens (blanks ++ text) rest := by
  cases h with
  | @nil others rest ho =>
    rw [← List.append_assoc]
    refine .nil fun c hc => ?_
    rcases List.mem_append.1 hc with hc | hc
    · exact hb c hc
    · exact ho c hc
  | @cons others word text rest token tokens ho hs h =>
    rw [← List.append_assoc]
    refine .cons (fun c hc => ?_) hs h
    rcases List.mem_append.1 hc with hc | hc
    · exact hb c hc
    · exact ho c hc

/-- White space in front makes no difference. -/
theorem ofSkip (h : Written tokens (skip text) rest) : Written tokens text rest := by
  obtain ⟨blanks, hb, he⟩ := exists_blanks text
  rw [he]
  exact h.ofBlanks hb

theorem ofWord (hs : Spells token word) (h : Written tokens text rest) :
    Written (token :: tokens) (word ++ text) rest :=
  @cons [] _ _ _ _ _ nofun hs h

theorem refl (rest : List Char) : Written [] rest rest :=
  @nil [] rest nofun

theorem append (h : Written tokens text middle) (hm : Written more middle rest) :
    Written (tokens ++ more) text rest := by
  induction h with
  | nil hb => exact hm.ofBlanks hb
  | cons hb hs _ ih => exact .cons hb hs (ih hm)

/-- White space at the end makes no difference. -/
theorem toSkip (h : Written tokens text rest) : Written tokens text (skip rest) := by
  have hrest := h.append (ofSkip (refl (skip rest)))
  rwa [List.append_nil] at hrest

/-- What is written in two parts goes through the place between them. -/
theorem exists_middle (h : Written (tokens ++ more) text rest) :
    ∃ middle, Written tokens text middle ∧ Written more middle rest := by
  induction tokens generalizing text with
  | nil => exact ⟨text, refl text, h⟩
  | cons token tokens ih =>
    cases h with
    | cons hb hs h =>
      obtain ⟨middle, hleft, hright⟩ := ih h
      exact ⟨middle, .cons hb hs hleft, hright⟩

/-- Behind the white space stands a word for the first token. -/
theorem exists_word (h : Written (token :: tokens) text rest) :
    ∃ word more, skip text = word ++ more ∧ Spells token word ∧ Written tokens more rest := by
  cases h with
  | @cons blanks word more _ _ _ hb hs h =>
    refine ⟨word, more, ?_, hs, h⟩
    rw [skip_append hb, hs.skip_append]

theorem skip_eq (h : Written [] text rest) : skip text = skip rest := by
  cases h with
  | nil hb => exact skip_append hb

theorem length_le (h : Written tokens text rest) : rest.length ≤ text.length := by
  induction h with
  | nil =>
    rw [List.length_append]
    exact Nat.le_add_left _ _
  | cons _ _ _ ih =>
    rw [List.length_append, List.length_append]
    omega

end Written

end Activation

end PathCensus
