import PathCensus.Proofs.Activation.Exactness

/-!
# Reading what is rendered

The text of an activation denotes this very activation, not only one that holds of the same vectors.
All that matters is that a numeral can name the numbers in it, and it can in what is read from a text.
-/

namespace PathCensus

/-- The digits of a number name it, if it is not too large. -/
theorem Text.names_repr {n : Nat} (h : n < numeralLimit) : Names n.repr.toList n where
  ne_nil := repr_toList_ne_nil n
  isDigit _ hc := isDigit_of_mem_repr hc
  ofDigitChars_eq := by rw [Nat.toList_repr, Nat.ofDigitChars_ten_toDigits]
  lt := h

namespace Operand

/-- The number of the operand, if it has one, is not too large for a numeral. -/
def Nameable : Operand → Prop
  | .count index => index < Text.numeralLimit
  | .sum => True
  | .literal value => value < Text.numeralLimit

instance : (operand : Operand) → Decidable operand.Nameable
  | .count index => inferInstanceAs (Decidable (index < Text.numeralLimit))
  | .sum => .isTrue trivial
  | .literal value => inferInstanceAs (Decidable (value < Text.numeralLimit))

end Operand

namespace Activation

/-- No number in the activation is too large for a numeral. -/
def Nameable : Activation → Prop
  | .comparison left _ right => left.Nameable ∧ right.Nameable
  | .negation inner => inner.Nameable
  | .conjunction left right => left.Nameable ∧ right.Nameable
  | .disjunction left right => left.Nameable ∧ right.Nameable
  | .constant _ => True

/-! ## Rendered activations denote themselves -/

section Rendering

variable {level inner outer : Level} {left right word : List Char} {operand : Operand}
  {first second activation : Activation}

theorem spells_render (h : operand.Nameable) :
    Spells (.operand operand) operand.render.toList := by
  cases operand with
  | count index =>
    rw [Operand.render, String.toList_append]
    exact .count (Text.names_repr h)
  | sum => exact .sum
  | literal value => exact .literal (Text.names_repr h)

/-- A blank stands in front of a word. -/
theorem Written.ofBlank {tokens : List Token} {text rest : List Char}
    (h : Written tokens text rest) : Written tokens (' ' :: text) rest := by
  have hblank : ∀ c ∈ [' '], Text.isBlank c = true := List.forall_mem_singleton.2 rfl
  exact h.ofBlanks hblank

/-- A text is written, whatever stands behind it, for tokens that derive an activation at a level. -/
def Presents (level : Level) (word : List Char) (activation : Activation) : Prop :=
  ∃ tokens, Derives level tokens activation ∧ ∀ rest, Written tokens (word ++ rest) rest

theorem Presents.parentheses (h : Presents .disjunction word activation) :
    Presents .unary ('(' :: (word ++ [')'])) activation := by
  obtain ⟨tokens, hderives, hwritten⟩ := h
  refine ⟨_, .parentheses hderives, fun rest => ?_⟩
  rw [List.cons_append, List.append_assoc]
  exact .ofWord .opening ((hwritten _).append (.ofWord .closing (.refl rest)))

theorem Presents.negation (h : Presents .unary word activation) :
    Presents .unary ('!' :: word) (.negation activation) := by
  obtain ⟨tokens, hderives, hwritten⟩ := h
  refine ⟨_, .negation hderives, fun rest => ?_⟩
  rw [List.cons_append]
  exact .ofWord .not (hwritten rest)

theorem Presents.single {sign : List Char} {token : Token}
    {join : Activation → Activation → Activation} (hchained : Chained sign token join inner outer)
    (h : Presents inner word activation) : Presents outer word activation := by
  obtain ⟨tokens, hderives, hwritten⟩ := h
  exact ⟨tokens, hchained.single hderives, hwritten⟩

/-- Parts of a chain stand on either side of its sign. -/
theorem Presents.joined {sign : List Char} {token : Token}
    {join : Activation → Activation → Activation} (hchained : Chained sign token join inner outer)
    (hfirst : Presents inner left first) (hsecond : Presents inner right second) :
    Presents outer (left ++ ' ' :: (sign ++ ' ' :: right)) (join first second) := by
  obtain ⟨tokens, hfirst, hleft⟩ := hfirst
  obtain ⟨more, hsecond, hright⟩ := hsecond
  refine ⟨_, hchained.joined (hchained.single hfirst) hsecond, fun rest => ?_⟩
  have hsign := Written.ofWord hchained.spells (hright rest).ofBlank
  simpa only [List.append_assoc, List.cons_append] using (hleft _).append hsign.ofBlank

theorem presents_comparison {first second : Operand} (hfirst : first.Nameable)
    (hsecond : second.Nameable) (relation : Comparison) :
    Presents .unary (Activation.comparison first relation second).render.toList
      (.comparison first relation second) := by
  refine ⟨_, .comparison first relation second, fun rest => ?_⟩
  have hright := Written.ofWord (spells_render hsecond) (.refl rest)
  have hsign := Written.ofWord (.comparison relation) hright.ofBlank
  have hleft := Written.ofWord (spells_render hfirst) hsign.ofBlank
  simpa [render] using hleft

theorem presents_constant (value : Bool) :
    Presents .unary (Activation.constant value).render.toList (.constant value) := by
  refine ⟨_, .constant value, fun rest => ?_⟩
  cases value with
  | true => exact .ofWord .truth (.refl rest)
  | false => exact .ofWord .falsity (.refl rest)

/-- By induction on the activation: parts of a condition stand in parentheses, so each of them may be
any condition again. -/
theorem presents_render (h : activation.Nameable) :
    Presents .disjunction activation.render.toList activation := by
  induction activation with
  | comparison first relation second =>
    exact ((presents_comparison h.1 h.2 relation).single .conjunctions).single .disjunctions
  | negation activation ih =>
    have hpresents := ((ih h).parentheses.negation.single .conjunctions).single .disjunctions
    simpa [render] using hpresents
  | conjunction first second ihfirst ihsecond =>
    have hpresents := (ihfirst h.1).parentheses.joined .conjunctions (ihsecond h.2).parentheses
    simpa [render] using hpresents.single .disjunctions
  | disjunction first second ihfirst ihsecond =>
    have hleft := (ihfirst h.1).parentheses.single .conjunctions
    have hright := (ihsecond h.2).parentheses.single .conjunctions
    simpa [render] using hleft.joined .disjunctions hright
  | constant value =>
    exact ((presents_constant value).single .conjunctions).single .disjunctions

theorem denotes_render (h : activation.Nameable) : Denotes activation.render activation := by
  obtain ⟨tokens, hderives, hwritten⟩ := presents_render h
  have hwhole := hwritten []
  rw [List.append_nil] at hwhole
  exact ⟨tokens, hderives, hwhole⟩

end Rendering

/-! ## Activations that are read can be named -/

section Naming

variable {level : Level} {tokens : List Token} {word text rest : List Char} {operand : Operand}
  {activation : Activation}

theorem Spells.nameable (h : Spells (.operand operand) word) : operand.Nameable := by
  cases h with
  | sum => trivial
  | count hn => exact hn.lt
  | literal hn => exact hn.lt

theorem Written.nameable (h : Written tokens text rest) :
    ∀ operand, Token.operand operand ∈ tokens → operand.Nameable := by
  induction h with
  | nil => exact nofun
  | cons _ hs _ ih =>
    intro operand hmem
    rcases List.mem_cons.1 hmem with rfl | hmem
    · exact hs.nameable
    · exact ih operand hmem

/-- The operands of an activation are among the tokens that derive it. -/
theorem Derives.nameable (h : Derives level tokens activation)
    (ho : ∀ operand, Token.operand operand ∈ tokens → operand.Nameable) : activation.Nameable := by
  induction h with
  | ofConjunction _ ih => exact ih ho
  | ofUnary _ ih => exact ih ho
  | disjunction _ _ ihleft ihright =>
    exact ⟨ihleft fun operand hm => ho operand (List.mem_append_left _ hm),
      ihright fun operand hm => ho operand (List.mem_append_right _ (.tail _ hm))⟩
  | conjunction _ _ ihleft ihright =>
    exact ⟨ihleft fun operand hm => ho operand (List.mem_append_left _ hm),
      ihright fun operand hm => ho operand (List.mem_append_right _ (.tail _ hm))⟩
  | negation _ ih => exact ih fun operand hm => ho operand (.tail _ hm)
  | parentheses _ ih =>
    exact ih fun operand hm => ho operand (.tail _ (List.mem_append_left _ hm))
  | constant => trivial
  | comparison left relation right => exact ⟨ho left (by simp), ho right (by simp)⟩

theorem Denotes.nameable {text : String} (h : Denotes text activation) :
    activation.Nameable := by
  obtain ⟨tokens, hderives, hwritten⟩ := h
  exact hderives.nameable hwritten.nameable

end Naming

/-! ## The round trip -/

/-- An activation is read back from its text exactly if its numbers can be named. -/
theorem parse_render_eq_ok_iff {activation : Activation} :
    parse activation.render = .ok activation ↔ activation.Nameable :=
  ⟨fun h => (parse_eq_ok_iff.1 h).nameable, fun h => parse_eq_ok_iff.2 (denotes_render h)⟩

/-- Reading the text of an activation gives the same activation, exactly if its numbers can be named.
So what is read from a text and rendered is read again as the same activation, which holds of the same
vectors. -/
theorem render_round_trip :
    (∀ activation : Activation, parse activation.render = .ok activation ↔ activation.Nameable) ∧
    (∀ text activation, parse text = .ok activation →
      ∃ again, parse activation.render = .ok again ∧ again = activation ∧
        ∀ counts, again.eval counts = activation.eval counts) := by
  refine ⟨fun activation => parse_render_eq_ok_iff, fun text activation h => ?_⟩
  have hnameable := (parse_eq_ok_iff.1 h).nameable
  exact ⟨activation, parse_render_eq_ok_iff.2 hnameable, rfl, fun _ => rfl⟩

/-- A condition with a constituent of each kind. -/
def mixed : Activation :=
  .disjunction
    (.conjunction (.negation (.comparison (.count 0) .greaterOrEqual (.literal 2)))
      (.comparison (.count 1) .notEqual .sum))
    (.constant true)

set_option maxRecDepth 4096 in
/-- Leading zeros and missing blanks do not come back, the activation does. -/
theorem render_round_trip_mixed :
    parse " !x00>=2&&(x1!=sum) || true" = .ok mixed ∧ mixed.Nameable ∧
      parse mixed.render = .ok mixed ∧
      ∃ again, parse mixed.render = .ok again ∧ again = mixed ∧
        ∀ counts, again.eval counts = mixed.eval counts := by
  have hparse : parse " !x00>=2&&(x1!=sum) || true" = .ok mixed := rfl
  have hnameable : mixed.Nameable :=
    ⟨⟨⟨by decide, by decide⟩, ⟨by decide, by decide⟩⟩, trivial⟩
  exact ⟨hparse, hnameable, (render_round_trip.1 mixed).2 hnameable,
    render_round_trip.2 _ mixed hparse⟩

end Activation

end PathCensus
