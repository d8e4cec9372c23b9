import PathCensus.Proofs.Dump.Format
import PathCensus.Proofs.Tree.Reaching

/-!
# Attempts to attach nodes

A node that comes too deep is refused and leaves the builder as it was. So after any attempts the
builder is what the accepted ones alone make of it, and what becomes of the next one depends on their
number and on the depth of the last. Building in one go ends with the first refusal. It succeeds for
the depths of a preorder, and the tree that is built from leaves is the only one of sequences whose
walk shows these leaves.
-/

namespace PathCensus

open Dump (WellNested wellNested_iff)

variable {V : Type}

/-- The depth of a visit and its node, without what is below the node. -/
def Visit.bare (visit : Visit V) : Nat × Node V :=
  (visit.depth, .leaf visit.node.label visit.node.value visit.node.layout)

/-- The tree starts at a bare root with the given value, and all its nodes keep their children in
order. -/
structure Node.IsOrderedTree (blank : V) (tree : Node V) : Prop where
  /-- The root has the label of all roots. -/
  label : tree.label = rootLabel
  /-- The root has the given value. -/
  value : tree.value = blank
  /-- Every node keeps its children in order. -/
  sequential : tree.Sequential

/-- The refusal of the first depth that is more than one below the one before it. -/
inductive FirstJump (depths : List Nat) : DepthJump → Prop where
  /-- All depths in front fit, and they say how deep the next one may be. -/
  | intro {before after : List Nat} {depth : Nat} : depths = before ++ depth :: after →
      WellNested before → before.getLast?.elim 0 (· + 1) < depth →
      FirstJump depths ⟨before.length + 1, depth, before.getLast?⟩

/-- An attempt to attach a node. -/
structure Attempt (V : Type) where
  /-- Where the node was met, if this is not its number among the accepted nodes. -/
  position : Option Nat
  /-- The depth that is asked for. -/
  depth : Nat
  /-- The node, which may have nodes below it. -/
  node : Node V

/-- What is handed to a builder. -/
def Attempt.entry (a : Attempt V) : Nat × Node V := (a.depth, a.node)

namespace Builder

/-- What becomes of an attempt. -/
def attempt (builder : Builder V) (a : Attempt V) : Except DepthJump (Builder V) :=
  match a.position with
  | none => builder.push a.depth a.node
  | some position => builder.pushAt position a.depth a.node

/-- The builder after attempts in turn. A refused attempt leaves it as it was. -/
def afterAll (builder : Builder V) : List (Attempt V) → Builder V
  | [] => builder
  | a :: rest =>
    match builder.attempt a with
    | .ok next => next.afterAll rest
    | .error _ => builder.afterAll rest

/-- Those of attempts in turn that are accepted. -/
def accepting (builder : Builder V) : List (Attempt V) → List (Attempt V)
  | [] => []
  | a :: rest =>
    match builder.attempt a with
    | .ok next => a :: next.accepting rest
    | .error _ => builder.accepting rest

variable {builder : Builder V}

/-! ## Accepted nodes -/

theorem accepted_close (n : Nat) (builder : Builder V) :
    (builder.close n).accepted = builder.accepted := by
  induction n generalizing builder with
  | zero => rfl
  | succ n ih =>
    rw [close, ih]
    obtain ⟨root, _ | ⟨node, _ | ⟨parent, above⟩⟩, accepted⟩ := builder <;> rfl

theorem accepted_attachAll (builder : Builder V) (nodes : List (Nat × Node V)) :
    (builder.attachAll nodes).accepted = builder.accepted + nodes.length := by
  induction nodes generalizing builder with
  | nil => rfl
  | cons n rest ih =>
    have hone : (builder.attach n.1 n.2).accepted = builder.accepted + 1 :=
      congrArg (· + 1) (accepted_close _ builder)
    refine (ih (builder.attach n.1 n.2)).trans ?_
    rw [hone, List.length_cons]
    omega

/-- From the start, nodes that fit are counted and the last of them gives the last depth. -/
theorem attachAll_start (root : Node V) {nodes : List (Nat × Node V)}
    (hfits : Fits (start root).branch.length (nodes.map Prod.fst)) :
    ((start root).attachAll nodes).accepted = nodes.length ∧
      ((start root).attachAll nodes).lastDepth? = (nodes.map Prod.fst).getLast? := by
  rw [accepted_attachAll, lastDepth?_attachAll hfits]
  exact ⟨Nat.zero_add _, Option.or_none⟩

/-! ## One attempt, and attempts in turn -/

/-- An attempt is accepted exactly if it is not too deep. -/
theorem attempt_eq (builder : Builder V) (a : Attempt V) :
    builder.attempt a =
      if a.depth ≤ builder.branch.length then .ok (builder.attach a.depth a.node)
      else .error ⟨a.position.getD (builder.accepted + 1), a.depth, builder.lastDepth?⟩ := by
  unfold attempt
  cases a.position <;> exact pushAt_eq builder _ a.depth a.node

/-- The accepted attempts fit, and they alone make the builder what it is. -/
theorem afterAll_eq (builder : Builder V) (attempts : List (Attempt V)) :
    Fits builder.branch.length ((builder.accepting attempts).map Attempt.depth) ∧
      builder.afterAll attempts =
        builder.attachAll ((builder.accepting attempts).map Attempt.entry) := by
  induction attempts generalizing builder with
  | nil => exact ⟨trivial, rfl⟩
  | cons a rest ih =>
    by_cases hd : a.depth ≤ builder.branch.length
    · have hok : builder.attempt a = .ok (builder.attach a.depth a.node) := by
        rw [attempt_eq, if_pos hd]
      obtain ⟨hfits, hafter⟩ := ih (builder.attach a.depth a.node)
      rw [length_branch_attach hd] at hfits
      simp only [accepting, afterAll, hok]
      exact ⟨⟨hd, hfits⟩, hafter⟩
    · obtain ⟨jump, herror⟩ : ∃ jump, builder.attempt a = .error jump := by
        rw [attempt_eq, if_neg hd]
        exact ⟨_, rfl⟩
      simp only [accepting, afterAll, herror]
      exact ih builder

/-- What becomes of an attempt after others depends on the number of those that were accepted and on
the depth of the last of these. -/
theorem attempt_afterAll_eq_error_iff (root : Node V) (attempts : List (Attempt V))
    (a : Attempt V) (jump : DepthJump) :
    ((start root).afterAll attempts).attempt a = .error jump ↔
      (((start root).accepting attempts).map Attempt.depth).getLast?.elim 0 (· + 1) < a.depth ∧
        jump = ⟨a.position.getD (((start root).accepting attempts).length + 1), a.depth,
          (((start root).accepting attempts).map Attempt.depth).getLast?⟩ := by
  obtain ⟨hfits, hafter⟩ := afterAll_eq (start root) attempts
  generalize (start root).accepting attempts = kept at hfits hafter ⊢
  have hdepths : (kept.map Attempt.entry).map Prod.fst = kept.map Attempt.depth := by
    rw [List.map_map]
    rfl
  rw [← hdepths] at hfits
  obtain ⟨haccepted, hlast⟩ := attachAll_start root hfits
  rw [hafter, attempt_eq, length_branch_eq, haccepted, hlast, hdepths, List.length_map]
  split
  · next hle => simp only [reduceCtorEq, false_iff, not_and]; omega
  · next hnot =>
    rw [Except.error.injEq, eq_comm]
    exact (and_iff_right (by omega)).symm

/-! ## Building in one go -/

/-- Nodes that fit are attached. -/
theorem pushAll_append {nodes : List (Nat × Node V)}
    (hfits : Fits builder.branch.length (nodes.map Prod.fst)) (more : List (Nat × Node V)) :
    builder.pushAll (nodes ++ more) = (builder.attachAll nodes).pushAll more := by
  induction nodes generalizing builder with
  | nil => rfl
  | cons n rest ih =>
    obtain ⟨hd, hrest⟩ := hfits
    have hpush : builder.push n.1 n.2 = .ok (builder.attach n.1 n.2) := by
      unfold push
      rw [pushAt_eq, if_pos hd]
    rw [List.cons_append, pushAll]
    simp only [hpush]
    apply ih
    rwa [length_branch_attach hd]

/-- Depths are those of a preorder or have a first jump. -/
theorem wellNested_or_firstJump (depths : List Nat) :
    WellNested depths ∨ ∃ jump, FirstJump depths jump := by
  induction depths using List.reverseRecOn with
  | nil => exact .inl ⟨nofun, .nil⟩
  | append_singleton before depth ih =>
    rcases ih with hn | ⟨jump, @⟨first, rest, jumping, he, hn, hdeep⟩⟩
    · by_cases hd : depth ≤ before.getLast?.elim 0 (· + 1)
      · left
        rw [wellNested_iff, fits_append_singleton]
        exact ⟨wellNested_iff.1 hn, hd⟩
      · exact .inr ⟨_, .intro rfl hn (by omega)⟩
    · right
      have happend : before ++ [depth] = first ++ jumping :: (rest ++ [depth]) := by
        rw [he, List.append_assoc, List.cons_append]
      exact ⟨_, .intro happend hn hdeep⟩

end Builder

namespace Node

open Builder (leaves)

variable {top : Node V} {nodes : List (Nat × Node V)}

/-- Nodes in preorder are built. -/
theorem ofPreorder_of_wellNested (h : WellNested (nodes.map Prod.fst)) :
    ofPreorder top nodes = .ok ((Builder.start top).attachAll nodes).finish := by
  have hfits : Builder.Fits (Builder.start top).branch.length (nodes.map Prod.fst) :=
    wellNested_iff.1 h
  have hpush := Builder.pushAll_append hfits []
  rw [List.append_nil] at hpush
  unfold ofPreorder
  rw [hpush]
  rfl

/-- The first jump is reported. -/
theorem ofPreorder_of_firstJump {jump : DepthJump} (h : FirstJump (nodes.map Prod.fst) jump) :
    ofPreorder top nodes = .error jump := by
  obtain @⟨before, after, depth, he, hn, hdeep⟩ := h
  obtain ⟨front, rest, rfl, rfl, hrest⟩ := List.map_eq_append_iff.1 he
  obtain ⟨node, behind, rfl, rfl, rfl⟩ := List.map_eq_cons_iff.1 hrest
  have hfits : Builder.Fits (Builder.start top).branch.length (front.map Prod.fst) :=
    wellNested_iff.1 hn
  obtain ⟨haccepted, hlast⟩ := Builder.attachAll_start top hfits
  have hnot : ¬node.1 ≤ ((Builder.start top).attachAll front).branch.length := by
    rw [Builder.length_branch_eq, hlast]
    omega
  have hpush : ((Builder.start top).attachAll front).push node.1 node.2 =
      .error ⟨front.length + 1, node.1, (front.map Prod.fst).getLast?⟩ := by
    unfold Builder.push
    rw [Builder.pushAt_eq, if_neg hnot, haccepted, hlast]
  unfold ofPreorder
  rw [Builder.pushAll_append hfits, Builder.pushAll]
  simp only [hpush, List.length_map]
  rfl

variable {blank : V} {items : List (Nat × String × V)}

/-- Where all children are kept in order, a walk without what is below its nodes is a list of leaves
of sequences. -/
theorem Sequential.map_bare_walk {tree : Node V} (h : tree.Sequential) :
    tree.walk.map Visit.bare = leaves .sequence (tree.walk.map Visit.listed) := by
  rw [leaves, List.map_map]
  refine List.map_congr_left fun visit hv => ?_
  have hlayout : visit.node.layout = .sequence :=
    everywhere_below_iff_walk.1 (fun c hc => (h.child hc).mono fun _ hn => hn) visit hv
  simp only [Visit.bare, Visit.listed, Function.comp_apply, hlayout]

/-- Leaves in preorder are built into the tree of sequences whose walk shows them. -/
theorem isOrderedTree_of_ofPreorder {tree : Node V} (h : WellNested (items.map Prod.fst))
    (ht : ofPreorder (.root blank .sequence) (leaves .sequence items) = .ok tree) :
    tree.IsOrderedTree blank ∧ tree.walk.map Visit.bare = leaves .sequence items := by
  have hstart : (Builder.start (.root blank .sequence) : Builder V).All Sequential :=
    ⟨sequential_leaf _ _, nofun⟩
  obtain ⟨hall, hlisted⟩ := Builder.attachAll_leaves hstart (wellNested_iff.1 h)
  obtain ⟨hlabel, hvalue⟩ :=
    Builder.root_finish_attachAll (.start (.root blank .sequence)) (leaves .sequence items)
  have hsequential := hall.finish Sequential.push
  rw [ofPreorder_of_wellNested (by rwa [Builder.map_fst_leaves]), Except.ok.injEq] at ht
  subst ht
  refine ⟨⟨hlabel, hvalue, hsequential⟩, ?_⟩
  rw [Sequential.map_bare_walk hsequential, Builder.map_listed_walk_finish hall, hlisted]
  rfl

/-- A tree of sequences is built from its walk. -/
theorem IsOrderedTree.ofPreorder_walk {tree : Node V} (h : tree.IsOrderedTree blank) :
    ofPreorder (.root blank .sequence) (tree.walk.map Visit.bare) = .ok tree := by
  rw [h.sequential.map_bare_walk, ofPreorder_of_wellNested]
  · have hroot : (root blank .sequence : Node V) = .leaf tree.label tree.value .sequence := by
      rw [h.label, h.value]
      rfl
    rw [hroot, Builder.finish_attachAll_listed h.sequential]
  · rw [Builder.map_fst_leaves]
    exact Dump.wellNested_walk tree

/-- Leaves of sequences are built into a tree exactly if the first has depth 0 and each other one is
at most one level below the one before it, and then the walk of the tree shows these leaves; else what
is reported is the first jump, with its number, its depth and the depth before it. A tree of sequences
below a bare root is built from its walk. After any attempts, the builder is finished to the tree that
is built from the accepted ones alone, whatever their nodes are; and the next attempt is refused
exactly if it is more than one level below the last accepted one, with its given position or else the
number that it would have had, its depth and the last accepted depth. -/
theorem ofPreorder_exact (blank : V) (items : List (Nat × String × V)) (top : Node V)
    (attempts : List (Attempt V)) :
    ((∃ tree, ofPreorder (.root blank .sequence) (leaves .sequence items) = .ok tree) ↔
        WellNested (items.map Prod.fst)) ∧
      (∀ tree, ofPreorder (.root blank .sequence) (leaves .sequence items) = .ok tree →
        tree.walk.map Visit.bare = leaves .sequence items) ∧
      (∀ jump, ofPreorder (.root blank .sequence) (leaves .sequence items) = .error jump ↔
        FirstJump (items.map Prod.fst) jump) ∧
      (∀ tree : Node V, tree.IsOrderedTree blank →
        ofPreorder (.root blank .sequence) (tree.walk.map Visit.bare) = .ok tree) ∧
      ofPreorder top (((Builder.start top).accepting attempts).map Attempt.entry) =
        .ok ((Builder.start top).afterAll attempts).finish ∧
      ∀ a jump, ((Builder.start top).afterAll attempts).attempt a = .error jump ↔
        (((Builder.start top).accepting attempts).map Attempt.depth).getLast?.elim 0 (· + 1) <
            a.depth ∧
          jump = ⟨a.position.getD (((Builder.start top).accepting attempts).length + 1), a.depth,
            (((Builder.start top).accepting attempts).map Attempt.depth).getLast?⟩ := by
  have hdepths := Builder.map_fst_leaves .sequence items
  have hbuilt : WellNested (items.map Prod.fst) →
      ∃ tree, ofPreorder (.root blank .sequence) (leaves .sequence items) = .ok tree := by
    intro h
    exact ⟨_, ofPreorder_of_wellNested (by rwa [hdepths])⟩
  have hrefused : ∀ jump, FirstJump (items.map Prod.fst) jump →
      ofPreorder (.root blank .sequence) (leaves .sequence items) = .error jump := by
    intro jump h
    apply ofPreorder_of_firstJump
    rwa [hdepths]
  have hnested : ∀ tree, ofPreorder (.root blank .sequence) (leaves .sequence items) = .ok tree →
      WellNested (items.map Prod.fst) := by
    intro tree ht
    rcases Builder.wellNested_or_firstJump (items.map Prod.fst) with h | ⟨jump, hjump⟩
    · exact h
    · rw [hrefused jump hjump] at ht
      cases ht
  refine ⟨⟨fun ⟨tree, ht⟩ => hnested tree ht, hbuilt⟩, ?_, ?_, ?_, ?_, ?_⟩
  · intro tree ht
    exact (isOrderedTree_of_ofPreorder (hnested tree ht) ht).2
  · refine fun jump => ⟨fun herror => ?_, hrefused jump⟩
    rcases Builder.wellNested_or_firstJump (items.map Prod.fst) with h | ⟨other, hother⟩
    · obtain ⟨tree, ht⟩ := hbuilt h
      rw [herror] at ht
      cases ht
    · rw [hrefused other hother, Except.error.injEq] at herror
      exact herror ▸ hother
  · exact fun tree h => h.ofPreorder_walk
  · obtain ⟨hfits, hafter⟩ := Builder.afterAll_eq (.start top) attempts
    rw [hafter]
    apply ofPreorder_of_wellNested
    rw [wellNested_iff, List.map_map]
    exact hfits
  · exact Builder.attempt_afterAll_eq_error_iff top attempts

/-- A leaf of depth 2 behind one of depth 0 is refused in one go, and when it was attempted and
refused, the next one still has the number 2; a tree of one leaf is built from its walk. -/
theorem ofPreorder_exact_jump :
    ofPreorder (root none .sequence : Tree)
        (leaves .sequence [(0, "A", none), (2, "B", none)]) = .error ⟨2, 2, some 0⟩ ∧
      ((Builder.start (root none .sequence : Tree)).afterAll
          [⟨none, 0, .leaf "A" none .keyed⟩, ⟨some 7, 2, .leaf "B" none .keyed⟩]).attempt
        ⟨none, 3, .leaf "C" none .keyed⟩ = .error ⟨2, 3, some 0⟩ ∧
      ofPreorder (root none .sequence : Tree)
          (((root none .sequence : Tree).push (.leaf "A" none .sequence)).walk.map Visit.bare) =
        .ok ((root none .sequence : Tree).push (.leaf "A" none .sequence)) := by
  obtain ⟨-, -, hjump, htree, -, hattempt⟩ := ofPreorder_exact none
    [(0, "A", none), (2, "B", none)] (root none .sequence : Tree)
    [⟨none, 0, .leaf "A" none .keyed⟩, ⟨some 7, 2, .leaf "B" none .keyed⟩]
  have hfirst : WellNested [0] := ⟨by simp, .singleton 0⟩
  refine ⟨(hjump _).2 (@FirstJump.intro _ [0] [] 2 rfl hfirst (by decide)),
    (hattempt _ _).2 ⟨by decide, rfl⟩, htree _ ⟨rfl, rfl, ?_⟩⟩
  exact Sequential.push (sequential_leaf _ _) (sequential_leaf _ _)

end Node

end PathCensus
