import PathCensus.Proofs.Activation.Completeness

/-!
# The texts that are read

Exactly the texts that the grammar derives are read, each as the activation that it denotes. Any other
text is refused at a place in it that cuts no character.
-/

namespace PathCensus

namespace Activation

/-! ## What readers leave

A reader looks at the front of its text and leaves an end of it, also when it refuses.
-/

section Leaving

variable {α : Type} {text rest : List Char}

/-- What a reader leaves, or the text from the place of the fault on. -/
def remaining : Except Refusal (α × List Char) → List Char
  | .ok (_, rest) => rest
  | .error refusal => refusal.rest

/-- Whatever the text, the reader leaves an end of it. -/
def LeavesEnds (reader : Reader α) : Prop :=
  ∀ text, remaining (reader text) <:+ text

theorem LeavesEnds.ok {reader : Reader α} (hreader : LeavesEnds reader) {found : α}
    (h : reader text = .ok (found, rest)) : rest <:+ text := by
  have hends := hreader text
  rwa [h] at hends

theorem LeavesEnds.error {reader : Reader α} (hreader : LeavesEnds reader) {refusal : Refusal}
    (h : reader text = .error refusal) : refusal.rest <:+ text := by
  have hends := hreader text
  rwa [h] at hends

theorem eat?_isSuffix {sign : List Char} (h : eat? sign (skip text) = some rest) :
    rest <:+ text :=
  (List.suffix_append sign rest).trans (eat?_eq_some_iff.1 h ▸ skip_isSuffix text)

theorem leavesEnds_readOperand : LeavesEnds readOperand := by
  intro text
  rw [readOperand]
  split
  · next rest hsum =>
    exact eat?_isSuffix (eat?_of_eatWord? hsum)
  split
  · next rest hx =>
    rw [readIndex]
    split
    · exact (List.dropWhile_suffix _).trans (eat?_isSuffix hx)
    · exact skip_isSuffix text
  · rw [readLiteral]
    split
    · exact skip_isSuffix text
    split
    · exact (List.dropWhile_suffix _).trans (skip_isSuffix text)
    · exact skip_isSuffix text

theorem leavesEnds_readComparison : LeavesEnds readComparison := by
  intro text
  rw [readComparison]
  split
  · next found hfound =>
    obtain ⟨sign, -, hsome⟩ := List.exists_of_findSome?_eq_some hfound
    obtain ⟨rest, heat, rfl⟩ := Option.map_eq_some_iff.1 hsome
    exact eat?_isSuffix heat
  · exact skip_isSuffix text

theorem leavesEnds_readCompared : LeavesEnds readCompared := by
  intro text
  rw [readCompared]
  split
  · next refusal hleft => exact leavesEnds_readOperand.error hleft
  · next left behind hleft =>
    have hbehind := leavesEnds_readOperand.ok hleft
    split
    · next refusal hrelation => exact (leavesEnds_readComparison.error hrelation).trans hbehind
    · next relation beyond hrelation =>
      have hbeyond := (leavesEnds_readComparison.ok hrelation).trans hbehind
      split
      · next refusal hright => exact (leavesEnds_readOperand.error hright).trans hbeyond
      · next right last hright => exact (leavesEnds_readOperand.ok hright).trans hbeyond

theorem leavesEnds_readChain {sign : List Char} {join : Activation → Activation → Activation}
    {item : Reader Activation} (hitem : LeavesEnds item) (bound : Nat) (left : Activation) :
    LeavesEnds (readChain sign join item bound left) := by
  induction bound generalizing left with
  | zero => exact skip_isSuffix
  | succ bound ih =>
    intro text
    rw [readChain]
    split
    · exact skip_isSuffix text
    · next behind heat =>
      have hbehind := eat?_isSuffix heat
      split
      · next refusal hread => exact (hitem.error hread).trans hbehind
      · next right middle hread => exact (ih _ middle).trans ((hitem.ok hread).trans hbehind)

theorem leavesEnds_readJoined {sign : List Char} {join : Activation → Activation → Activation}
    {item : Reader Activation} (hitem : LeavesEnds item) :
    LeavesEnds (readJoined sign join item) := by
  intro text
  rw [readJoined]
  split
  · next refusal hread => exact hitem.error hread
  · next first behind hread =>
    exact (leavesEnds_readChain hitem _ first behind).trans (hitem.ok hread)

theorem leavesEnds_readDisjunction {item : Reader Activation} (hitem : LeavesEnds item) :
    LeavesEnds (readDisjunction item) :=
  leavesEnds_readJoined (leavesEnds_readJoined hitem)

theorem leavesEnds_readUnary (depth : Nat) : LeavesEnds (readUnary depth) := by
  induction depth with
  | zero => exact skip_isSuffix
  | succ depth ih =>
    intro text
    rw [readUnary]
    split
    · next behind hnot =>
      have hbehind := eat?_isSuffix hnot
      split
      · next refusal hinner => exact (ih.error hinner).trans hbehind
      · next inner left hinner => exact (ih.ok hinner).trans hbehind
    split
    · next behind hopening =>
      have hbehind := eat?_isSuffix hopening
      split
      · next refusal hinner => exact ((leavesEnds_readDisjunction ih).error hinner).trans hbehind
      · next inner left hinner =>
        have hleft := ((leavesEnds_readDisjunction ih).ok hinner).trans hbehind
        split
        · next last hclosing => exact (eat?_isSuffix hclosing).trans hleft
        · exact (skip_isSuffix left).trans hleft
    split
    · next left htrue =>
      exact eat?_isSuffix (eat?_of_eatWord? htrue)
    split
    · next left hfalse =>
      exact eat?_isSuffix (eat?_of_eatWord? hfalse)
    · exact (leavesEnds_readCompared (skip text)).trans (skip_isSuffix text)

/-- A fault is placed in the text. -/
theorem rest_isSuffix_of_readAll {refusal : Refusal} (h : readAll text = .error refusal) :
    refusal.rest <:+ text := by
  have hreader := leavesEnds_readDisjunction (leavesEnds_readUnary (text.length + 1))
  rw [readAll] at h
  split at h
  · next refused hread =>
    obtain rfl := Except.error.inj h
    exact hreader.error hread
  · next read left hread =>
    have hleft := (skip_isSuffix left).trans (hreader.ok hread)
    split at h
    · cases h
    · next c more hmore =>
      obtain rfl := Except.error.inj h
      exact hmore ▸ hleft

end Leaving

/-! ## Offsets -/

section Offsets

variable {text : String}

theorem byteLength_eq (text : List Char) :
    byteLength text = (String.ofList text).utf8ByteSize := by
  induction text with
  | nil => rfl
  | cons c text ih =>
    rw [byteLength, sumBy_cons, ← byteLength, ih, String.ofList_cons, String.utf8ByteSize_append,
      String.utf8ByteSize_singleton]

/-- A fault lies where a character of the text starts or the text ends. -/
theorem parse_offset_isValid {error : SyntaxError} (h : parse text = .error error) :
    (⟨error.offset⟩ : String.Pos.Raw).IsValid text := by
  rw [parse] at h
  split at h
  · cases h
  · next refusal hread =>
    obtain rfl := Except.error.inj h
    obtain ⟨front, hfront⟩ := rest_isSuffix_of_readAll hread
    have hlength : byteLength text.toList - byteLength refusal.rest = byteLength front := by
      rw [← hfront, byteLength, sumBy_append, ← byteLength, ← byteLength]
      exact Nat.add_sub_cancel _ _
    refine String.Pos.Raw.isValid_iff_exists_append.2
      ⟨String.ofList front, String.ofList refusal.rest, ?_, ?_⟩
    · rw [← String.ofList_append, hfront, String.ofList_toList]
    · rw [hlength, byteLength_eq]
      rfl

end Offsets

/-! ## Exactness -/

/-- A text is read as an activation exactly if it denotes it. -/
theorem parse_eq_ok_iff {text : String} {activation : Activation} :
    parse text = .ok activation ↔ Denotes text activation := by
  constructor
  · intro h
    rw [parse] at h
    split at h
    · next read hread =>
      obtain rfl := Except.ok.inj h
      exact derives_of_readAll hread
    · cases h
  · rintro ⟨tokens, hderives, hwritten⟩
    rw [parse, readAll_of_derives hderives hwritten]

/-- The grammar is not ambiguous. -/
theorem Denotes.unique {text : String} {first second : Activation} (hfirst : Denotes text first)
    (hsecond : Denotes text second) : first = second :=
  Except.ok.inj ((parse_eq_ok_iff.2 hfirst).symm.trans (parse_eq_ok_iff.2 hsecond))

/-- A text is read as an activation exactly if its tokens derive the activation. It is refused exactly
if it has no tokens that derive one, at an offset up to its length that cuts no character. -/
theorem parse_exact (text : String) :
    (∀ activation, parse text = .ok activation ↔ Denotes text activation) ∧
    ((∀ activation, ¬ Denotes text activation) ↔
      ∃ error, parse text = .error error ∧ error.offset ≤ text.utf8ByteSize ∧
        (⟨error.offset⟩ : String.Pos.Raw).IsValid text) := by
  refine ⟨fun activation => parse_eq_ok_iff, ?_⟩
  constructor
  · intro hnone
    cases hparse : parse text with
    | ok activation => exact absurd (parse_eq_ok_iff.1 hparse) (hnone activation)
    | error error =>
      have hvalid := parse_offset_isValid hparse
      exact ⟨error, rfl, hvalid.le_rawEndPos, hvalid⟩
  · rintro ⟨error, hparse, -⟩ activation hdenotes
    rw [parse_eq_ok_iff.2 hdenotes] at hparse
    cases hparse

end Activation

end PathCensus
