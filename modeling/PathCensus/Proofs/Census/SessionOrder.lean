import Mathlib.Data.List.Forall2
import PathCensus.Proofs.Census.Session
import PathCensus.Proofs.Census.SiblingOrder

/-!
# Sessions side by side

Two sessions whose censuses agree, number by number, answer every call alike: both refuse it for the
same reason, or the censuses agree again afterwards. So they agree however they go on with the same
calls.
-/

namespace PathCensus

/-! ## Outcomes -/

section

variable {ε δ α β : Type} {R : α → α → Prop} {S : β → β → Prop}

theorem SameOutcome.bind {x y : Except ε α} {f g : α → Except ε β} (h : SameOutcome R x y)
    (hstep : ∀ a b, R a b → SameOutcome S (f a) (g b)) : SameOutcome S (x >>= f) (y >>= g) := by
  cases h with
  | ok hr => exact hstep _ _ hr
  | error refusal => exact .error refusal

/-- The results may be related otherwise, by what is known of them. -/
theorem SameOutcome.imp {R' : α → α → Prop} {x y : Except ε α} (h : SameOutcome R x y)
    (himp : ∀ a b, x = .ok a → y = .ok b → R a b → R' a b) : SameOutcome R' x y := by
  cases h with
  | ok hr => exact .ok (himp _ _ rfl rfl hr)
  | error refusal => exact .error refusal

theorem SameOutcome.mapError {x y : Except ε α} (h : SameOutcome R x y) (f : ε → δ) :
    SameOutcome R (x.mapError f) (y.mapError f) := by
  cases h with
  | ok hr => exact .ok hr
  | error refusal => exact .error (f refusal)

end

namespace Session

open Census

/-- Well-formed censuses that agree. -/
structure Twins (a b : Census) : Prop where
  /-- The first one is well-formed. -/
  first : a.WellFormed
  /-- The second one is well-formed. -/
  second : b.WellFormed
  /-- They agree. -/
  agrees : a.Agrees b

/-- As many censuses in both sessions, and those with the same number agree. -/
abbrev Agree : Session → Session → Prop :=
  List.Forall₂ Twins

variable {s t : Session}

private theorem twins_refl {census : Census} (h : census.WellFormed) : Twins census census :=
  ⟨h, h, .refl census⟩

/-- The censuses with a number agree, or neither session has one. -/
theorem Agree.census (h : Agree s t) (number : Nat) :
    SameOutcome Twins (s.census number) (t.census number) := by
  obtain ⟨hlength, hget⟩ := List.forall₂_iff_get.1 h
  rw [Session.census, Session.census]
  by_cases hs : number < s.length
  · have ht : number < t.length := hlength ▸ hs
    rw [List.getElem?_eq_getElem hs, List.getElem?_eq_getElem ht]
    exact .ok (hget number hs ht)
  · have ht : ¬number < t.length := hlength ▸ hs
    rw [List.getElem?_eq_none (Nat.le_of_not_lt hs), List.getElem?_eq_none (Nat.le_of_not_lt ht)]
    exact .error _

theorem Agree.record (h : Agree s t) {a b : Census} (hab : Twins a b) :
    Agree (s.record a) (t.record b) := by
  induction h with
  | nil => exact .cons hab .nil
  | cons hcd _ ih => exact .cons hcd ih

theorem Agree.set (h : Agree s t) {a b : Census} (hab : Twins a b) (number : Nat) :
    Agree (s.set number a) (t.set number b) := by
  induction h generalizing number with
  | nil => exact .nil
  | cons hcd hrest ih =>
    cases number with
    | zero => exact .cons hab hrest
    | succ number => exact .cons hcd (ih number)

/-- A call has the same outcome in sessions that agree. -/
theorem Agree.attempt (h : Agree s t) (call : Call) :
    SameOutcome Agree (s.attempt call) (t.attempt call) := by
  cases call with
  | create treeCount => exact .ok (h.record (twins_refl (wellFormed_ofTreeCount treeCount)))
  | read lines =>
    have hread : SameOutcome Twins (ofLines lines) (ofLines lines) := by
      cases hl : ofLines lines with
      | error fault => exact .error fault
      | ok census => exact .ok (twins_refl (wellFormed_ofLines hl))
    exact (hread.mapError Refusal.unreadable).bind fun _ _ hab => .ok (h.record hab)
  | count trees =>
    exact .ok (h.record (twins_refl (reachable_ofParts .all trees).wellFormed))
  | restructure source label =>
    refine (h.census source).bind fun a b hab => .ok (h.record ?_)
    exact ⟨hab.first.restructure label, hab.second.restructure label,
      hab.agrees.restructure hab.first hab.second label⟩
  | addTree target tree =>
    refine (h.census target).bind fun a b hab => .ok (h.set ?_ target)
    exact ⟨hab.first.addTree tree, hab.second.addTree tree, hab.agrees.addTree tree⟩
  | addPath target labels tree =>
    refine (h.census target).bind fun a b hab => ?_
    have hpath : SameOutcome Twins (a.addPath labels tree) (b.addPath labels tree) :=
      (hab.agrees.addPath labels tree).imp fun after after' ha hb hafter =>
        ⟨hab.first.addPath ha, hab.second.addPath hb, hafter⟩
    exact (hpath.mapError Refusal.unknownTree).bind fun _ _ hafter => .ok (h.set hafter target)
  | addCounts target source =>
    refine (h.census target).bind fun a b hab => (h.census source).bind fun c d hcd =>
      .ok (h.set ?_ target)
    exact ⟨hab.first.addCounts hcd.first, hab.second.addCounts hcd.second,
      hab.agrees.addCounts hcd.agrees hcd.first hcd.second⟩
  | merge target source =>
    refine (h.census target).bind fun a b hab => (h.census source).bind fun c d hcd =>
      .ok (h.set ?_ target)
    exact ⟨hab.first.merge hcd.first, hab.second.merge hcd.second,
      hab.agrees.merge hcd.agrees hcd.first hcd.second⟩

theorem Agree.perform (h : Agree s t) (call : Call) : Agree (s.perform call) (t.perform call) := by
  have hsame := h.attempt call
  rw [Session.perform, Session.perform]
  generalize s.attempt call = x at hsame
  generalize t.attempt call = y at hsame
  cases hsame with
  | ok hafter => exact hafter
  | error refusal => exact h

/-- Sessions that agree still agree after the same calls. -/
theorem Agree.foldl_perform (h : Agree s t) (calls : List Call) :
    Agree (calls.foldl Session.perform s) (calls.foldl Session.perform t) := by
  induction calls generalizing s t with
  | nil => exact h
  | cons call rest ih => exact ih (h.perform call)

end Session

end PathCensus
