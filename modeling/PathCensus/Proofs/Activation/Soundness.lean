import PathCensus.Proofs.Activation.Grammar

/-!
# What is read is derived

Whatever a reader takes from the front of a text is written there as tokens that derive the activation
it gives. The depth and the bound of the readers do not matter here: to read less than there is can
only leave more behind.
-/

namespace PathCensus

namespace Activation

/-! ## Signs and words -/

section Signs

variable {sign text rest : List Char}

/-- What is left when a sign is taken off the front. -/
theorem eat?_eq_some_iff : eat? sign text = some rest ↔ text = sign ++ rest := by
  induction sign generalizing text with
  | nil =>
    rw [eat?, Option.some.injEq]
    rfl
  | cons c sign ih =>
    cases text with
    | nil => simp [eat?]
    | cons d text =>
      by_cases hcd : c = d
      · rw [eat?, if_pos hcd, ih, List.cons_append, hcd, List.cons.injEq, and_iff_right rfl]
      · rw [eat?, if_neg hcd, List.cons_append, List.cons.injEq]
        exact ⟨nofun, fun h => absurd h.1.symm hcd⟩

/-- A text that does not go on a word in front of it. -/
def Stops (text : List Char) : Prop :=
  text.head?.any goesOn = false

instance (text : List Char) : Decidable (Stops text) :=
  inferInstanceAs (Decidable (_ = _))

/-- A word is taken off the front if the text does not go on with it. -/
theorem eatWord?_eq_some_iff :
    eatWord? sign text = some rest ↔ text = sign ++ rest ∧ Stops rest := by
  rw [eatWord?]
  cases he : eat? sign text with
  | none =>
    refine ⟨nofun, fun h => ?_⟩
    rw [eat?_eq_some_iff.2 h.1] at he
    cases he
  | some left =>
    rw [eat?_eq_some_iff.1 he, List.append_cancel_left_eq]
    change (if left.head?.any goesOn then none else some left) = some rest ↔ _
    by_cases hg : left.head?.any goesOn = true
    · rw [if_pos hg]
      refine ⟨nofun, fun ⟨h, hr⟩ => ?_⟩
      rw [Stops, ← h, hg] at hr
      cases hr
    · rw [if_neg hg, Option.some.injEq]
      refine ⟨?_, And.left⟩
      rintro rfl
      exact ⟨rfl, eq_false_of_ne_true hg⟩

theorem eat?_of_eatWord? (h : eatWord? sign text = some rest) : eat? sign text = some rest :=
  eat?_eq_some_iff.2 (eatWord?_eq_some_iff.1 h).1

end Signs

/-! ## Operands and comparisons -/

section Compared

variable {text rest : List Char}

theorem Written.ofSign {sign middle : List Char} {token : Token} {tokens : List Token}
    (he : eat? sign (skip text) = some middle) (hs : Spells token sign)
    (h : Written tokens middle rest) : Written (token :: tokens) text rest := by
  refine .ofSkip ?_
  rw [eat?_eq_some_iff.1 he]
  exact .ofWord hs h

theorem written_of_readIndex {start : List Char} {operand : Operand}
    (h : readIndex start text = .ok (operand, rest)) :
    Written [.operand operand] ('x' :: text) rest := by
  rw [readIndex] at h
  split at h
  · next index hread =>
    obtain ⟨rfl, rfl⟩ := Prod.mk.inj (Except.ok.inj h)
    have hnames := (Text.readNumeral_eq_ok_iff (List.all_eq_true.1 List.all_takeWhile)).1 hread
    have hword := Written.ofWord (.count hnames) (.refl (text.dropWhile Char.isDigit))
    rwa [List.cons_append, List.takeWhile_append_dropWhile] at hword
  · cases h

theorem written_of_readLiteral {operand : Operand} (h : readLiteral text = .ok (operand, rest)) :
    Written [.operand operand] text rest := by
  rw [readLiteral] at h
  split at h
  · cases h
  · split at h
    · next value hread =>
      obtain ⟨rfl, rfl⟩ := Prod.mk.inj (Except.ok.inj h)
      have hnames := (Text.readNumeral_eq_ok_iff (List.all_eq_true.1 List.all_takeWhile)).1 hread
      have hword := Written.ofWord (.literal hnames) (.refl (text.dropWhile Char.isDigit))
      rwa [List.takeWhile_append_dropWhile] at hword
    · cases h

theorem written_of_readOperand {operand : Operand} (h : readOperand text = .ok (operand, rest)) :
    Written [.operand operand] text rest := by
  rw [readOperand] at h
  split at h
  · next left hsum =>
    obtain ⟨rfl, rfl⟩ := Prod.mk.inj (Except.ok.inj h)
    exact .ofSign (eat?_of_eatWord? hsum) .sum (.refl left)
  · split at h
    · next left hx =>
      refine .ofSkip ?_
      rw [eat?_eq_some_iff.1 hx]
      exact written_of_readIndex h
    · exact .ofSkip (written_of_readLiteral h)

/-- Each sign of a comparison is the text of it. -/
theorem comparisonSigns_render {sign : List Char × Comparison} (h : sign ∈ comparisonSigns) :
    sign.1 = sign.2.render.toList := by
  revert sign
  decide

theorem written_of_readComparison {relation : Comparison}
    (h : readComparison text = .ok (relation, rest)) :
    Written [.comparison relation] text rest := by
  rw [readComparison] at h
  split at h
  · next found hfound =>
    obtain rfl := Except.ok.inj h
    obtain ⟨sign, hsign, hsome⟩ := List.exists_of_findSome?_eq_some hfound
    obtain ⟨left, heat, hleft⟩ := Option.map_eq_some_iff.1 hsome
    obtain ⟨rfl, rfl⟩ := Prod.mk.inj hleft
    refine .ofSign heat ?_ (.refl left)
    rw [comparisonSigns_render hsign]
    exact .comparison sign.2
  · cases h

end Compared

/-! ## Chains -/

/-- A reader gives what the tokens that it takes derive at a level. -/
def Sound (level : Level) (item : Reader Activation) : Prop :=
  ∀ text activation rest, item text = .ok (activation, rest) →
    ∃ tokens, Derives level tokens activation ∧ Written tokens text rest

/-- Items of one level, with a token between them, derive what is joined from the left. -/
structure Chained (sign : List Char) (token : Token)
    (join : Activation → Activation → Activation) (inner outer : Level) : Prop where
  /-- The sign is a word for the token. -/
  spells : Spells token sign
  /-- An item is a chain. -/
  single : ∀ {tokens : List Token} {activation : Activation},
    Derives inner tokens activation → Derives outer tokens activation
  /-- A chain goes on with one more item. -/
  joined : ∀ {left right : List Token} {first second : Activation},
    Derives outer left first → Derives inner right second →
    Derives outer (left ++ token :: right) (join first second)

theorem Chained.disjunctions :
    Chained ['|', '|'] .or .disjunction .conjunction .disjunction :=
  ⟨.or, .ofConjunction, .disjunction⟩

theorem Chained.conjunctions : Chained ['&', '&'] .and .conjunction .unary .conjunction :=
  ⟨.and, .ofUnary, .conjunction⟩

section Chains

variable {sign : List Char} {token : Token} {join : Activation → Activation → Activation}
  {inner outer : Level} {item : Reader Activation}

/-- A chain that derives what is read so far is read on as a chain. -/
theorem derives_of_readChain (hchained : Chained sign token join inner outer) (hitem : Sound inner item)
    {bound : Nat} {start text rest : List Char} {tokens : List Token} {left activation : Activation}
    (hleft : Derives outer tokens left) (hstart : Written tokens start text)
    (h : readChain sign join item bound left text = .ok (activation, rest)) :
    ∃ all, Derives outer all activation ∧ Written all start rest := by
  induction bound generalizing left tokens text with
  | zero =>
    obtain ⟨rfl, rfl⟩ := Prod.mk.inj (Except.ok.inj h)
    exact ⟨tokens, hleft, hstart.toSkip⟩
  | succ bound ih =>
    rw [readChain] at h
    split at h
    · obtain ⟨rfl, rfl⟩ := Prod.mk.inj (Except.ok.inj h)
      exact ⟨tokens, hleft, hstart.toSkip⟩
    · next behind heat =>
      split at h
      · cases h
      · next right middle hread =>
        obtain ⟨more, hright, hmore⟩ := hitem _ _ _ hread
        have hjoined := hchained.joined hleft hright
        exact ih hjoined (hstart.append (.ofSign heat hchained.spells hmore)) h

theorem sound_readJoined (hchained : Chained sign token join inner outer)
    (hitem : Sound inner item) : Sound outer (readJoined sign join item) := by
  intro text activation rest h
  rw [readJoined] at h
  split at h
  · cases h
  · next first left hread =>
    obtain ⟨tokens, hfirst, hwritten⟩ := hitem _ _ _ hread
    exact derives_of_readChain hchained hitem (hchained.single hfirst) hwritten h

theorem sound_readDisjunction (hitem : Sound .unary item) :
    Sound .disjunction (readDisjunction item) :=
  sound_readJoined .disjunctions (sound_readJoined .conjunctions hitem)

end Chains

/-! ## Conditions -/

theorem sound_readCompared : Sound .unary readCompared := by
  intro text activation rest h
  rw [readCompared] at h
  split at h
  · cases h
  · next left behind hleft =>
    split at h
    · cases h
    · next relation beyond hrelation =>
      split at h
      · cases h
      · next right last hright =>
        obtain ⟨rfl, rfl⟩ := Prod.mk.inj (Except.ok.inj h)
        have hmore := (written_of_readComparison hrelation).append (written_of_readOperand hright)
        exact ⟨_, .comparison left relation right, (written_of_readOperand hleft).append hmore⟩

/-- What stands in parentheses is read by the reader of one depth less. -/
theorem sound_readUnary (depth : Nat) : Sound .unary (readUnary depth) := by
  induction depth with
  | zero => exact nofun
  | succ depth ih =>
    intro text activation rest h
    rw [readUnary] at h
    split at h
    · next behind hnot =>
      split at h
      · cases h
      · next inner left hinner =>
        obtain ⟨rfl, rfl⟩ := Prod.mk.inj (Except.ok.inj h)
        obtain ⟨tokens, hderives, hwritten⟩ := ih _ _ _ hinner
        exact ⟨_, .negation hderives, .ofSign hnot .not hwritten⟩
    split at h
    · next behind hopening =>
      split at h
      · cases h
      · next inner left hinner =>
        split at h
        · next last hclosing =>
          obtain ⟨rfl, rfl⟩ := Prod.mk.inj (Except.ok.inj h)
          obtain ⟨tokens, hderives, hwritten⟩ := sound_readDisjunction ih _ _ _ hinner
          have hclosed := hwritten.append (.ofSign hclosing .closing (.refl last))
          exact ⟨_, .parentheses hderives, .ofSign hopening .opening hclosed⟩
        · cases h
    split at h
    · next left htrue =>
      obtain ⟨rfl, rfl⟩ := Prod.mk.inj (Except.ok.inj h)
      exact ⟨_, .constant true, .ofSign (eat?_of_eatWord? htrue) .truth (.refl left)⟩
    split at h
    · next left hfalse =>
      obtain ⟨rfl, rfl⟩ := Prod.mk.inj (Except.ok.inj h)
      exact ⟨_, .constant false, .ofSign (eat?_of_eatWord? hfalse) .falsity (.refl left)⟩
    · obtain ⟨tokens, hderives, hwritten⟩ := sound_readCompared _ _ _ h
      exact ⟨tokens, hderives, .ofSkip hwritten⟩

/-- A text that is read is derived. -/
theorem derives_of_readAll {text : List Char} {activation : Activation}
    (h : readAll text = .ok activation) :
    ∃ tokens, Derives .disjunction tokens activation ∧ Written tokens text [] := by
  rw [readAll] at h
  split at h
  · cases h
  · next read left hread =>
    split at h
    · next hend =>
      obtain rfl := Except.ok.inj h
      obtain ⟨tokens, hderives, hwritten⟩ := sound_readDisjunction (sound_readUnary _) _ _ _ hread
      exact ⟨tokens, hderives, hend ▸ hwritten.toSkip⟩
    · cases h

end Activation

end PathCensus
