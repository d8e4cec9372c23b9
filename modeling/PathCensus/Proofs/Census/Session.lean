import PathCensus.Census.Session
import PathCensus.Proofs.Census.Merging
import PathCensus.Proofs.Tree.Addressing
import PathCensus.Proofs.Tree.Indexed

/-!
# Invariants of sessions

A call makes a census or changes one that is there; either comes of the operations on censuses, and
a census that is changed never gives an id back. So whatever is called in a session, and in whatever
order, its censuses are well-formed. A path of labels then leads to at most one node of a census,
the one that the walk meets there, and the children of every node can be looked up in an index.
-/

namespace PathCensus

/-- In a census, labels are addresses. -/
structure Census.Addressed (census : Census) : Prop where
  /-- The children of every node are kept with an index, and all work on them can go through it. -/
  indexed : census.root.Everywhere fun node =>
    ∃ index, node.IndexedBy index ∧ node.ServedBy index
  /-- The walk meets no two nodes with the same labels on the way. -/
  distinct : (census.root.chains.map Node.labels).Nodup
  /-- What is found along labels is what the walk meets there. -/
  found : ∀ labels, labels ≠ [] → ∀ node, census.find? labels = some node ↔
    ∃ chain ∈ census.root.chains, Node.labels chain = labels ∧ chain.getLast? = some node

theorem Census.WellFormed.addressed {census : Census} (h : census.WellFormed) :
    census.Addressed := by
  refine ⟨h.keyed.mono fun node hk => ?_, h.keyed.nodup_labels_chains,
    fun _ hne _ => h.keyed.descend?_eq_some_iff hne⟩
  obtain ⟨index, hi⟩ := Node.exists_index_iff.2 hk.distinct
  exact ⟨index, hi, hi.servedBy hk.layout⟩

namespace Session

open Census

variable {session after : Session} {call : Call}

/-! ## One call -/

theorem census_eq_ok_iff {number : Nat} {census : Census} :
    session.census number = .ok census ↔ session[number]? = some census := by
  rw [Session.census]
  cases session[number]? with
  | none => simp only [reduceCtorEq]
  | some found => simp only [Except.ok.injEq, Option.some.injEq]

private theorem bind_eq_ok {ε α β : Type} {x : Except ε α} {f : α → Except ε β} {b : β}
    (h : (x >>= f) = .ok b) : ∃ a, x = .ok a ∧ f a = .ok b := by
  cases x with
  | error e => cases h
  | ok a => exact ⟨a, rfl, h⟩

private theorem mapError_eq_ok {ε δ α : Type} {x : Except ε α} {f : ε → δ} {a : α}
    (h : x.mapError f = .ok a) : x = .ok a := by
  cases x with
  | error e => cases h
  | ok b => exact congrArg Except.ok (Except.ok.inj h)

/-- All censuses of the session come of the operations on censuses. -/
def AllReachable (session : Session) : Prop :=
  ∀ census ∈ session, Reachable .all census

theorem AllReachable.census (h : session.AllReachable) {number : Nat} {census : Census}
    (hn : session.census number = .ok census) : Reachable .all census :=
  h census (List.mem_of_getElem? (census_eq_ok_iff.1 hn))

/-- A call that changes a census: the one before it and the one after it. -/
structure Changes (session after : Session) (target : Nat) (old changed : Census) : Prop where
  /-- The census was there. -/
  there : session[target]? = some old
  /-- It is replaced. -/
  replaced : after = session.set target changed
  /-- It comes of the operations. -/
  reachable : Reachable .all changed
  /-- It gives no id back. -/
  keepsIds : old.treeCount ≤ changed.treeCount

/-- What a call does that is not refused: it makes a census or changes one. -/
theorem attempt_cases (hs : session.AllReachable) (h : session.attempt call = .ok after) :
    (∃ made, Reachable .all made ∧ after = session.record made) ∨
      ∃ target old changed, Changes session after target old changed := by
  cases call with
  | create treeCount => exact .inl ⟨_, .ofTreeCount treeCount, (Except.ok.inj h).symm⟩
  | read lines =>
    obtain ⟨made, hm, h⟩ := bind_eq_ok h
    exact .inl ⟨made, .ofLines rfl (mapError_eq_ok hm), (Except.ok.inj h).symm⟩
  | count trees => exact .inl ⟨_, reachable_ofParts .all trees, (Except.ok.inj h).symm⟩
  | restructure source label =>
    obtain ⟨old, ho, h⟩ := bind_eq_ok h
    exact .inl ⟨_, .restructure label (hs.census ho), (Except.ok.inj h).symm⟩
  | addTree target tree =>
    obtain ⟨old, ho, h⟩ := bind_eq_ok h
    refine .inr ⟨target, old, _, census_eq_ok_iff.1 ho, (Except.ok.inj h).symm,
      .addTree tree (hs.census ho), ?_⟩
    rw [treeCount_addTree]
    exact Nat.le_succ _
  | addPath target labels tree =>
    obtain ⟨old, ho, h⟩ := bind_eq_ok h
    obtain ⟨changed, hc, h⟩ := bind_eq_ok h
    have hadded := mapError_eq_ok hc
    refine .inr ⟨target, old, changed, census_eq_ok_iff.1 ho, (Except.ok.inj h).symm,
      .addPath rfl (hs.census ho) hadded, ?_⟩
    obtain ⟨-, rfl⟩ := addPath_eq_ok_iff.1 hadded
    exact Nat.le_of_eq (treeCount_foldl_put old _).symm
  | addCounts target source =>
    obtain ⟨old, ho, h⟩ := bind_eq_ok h
    obtain ⟨other, hother, h⟩ := bind_eq_ok h
    exact .inr ⟨target, old, _, census_eq_ok_iff.1 ho, (Except.ok.inj h).symm,
      .addCounts (hs.census ho) (hs.census hother), Nat.le_max_left _ _⟩
  | merge target source =>
    obtain ⟨old, ho, h⟩ := bind_eq_ok h
    obtain ⟨other, hother, h⟩ := bind_eq_ok h
    exact .inr ⟨target, old, _, census_eq_ok_iff.1 ho, (Except.ok.inj h).symm,
      .merge (hs.census ho) (hs.census hother), Nat.le_max_left _ _⟩

/-- A call either changes nothing or is not refused. -/
theorem perform_cases (session : Session) (call : Call) :
    session.perform call = session ∨ session.attempt call = .ok (session.perform call) := by
  rw [perform]
  cases session.attempt call with
  | error refusal => exact .inl rfl
  | ok after => exact .inr rfl

theorem AllReachable.perform (h : session.AllReachable) (call : Call) :
    (session.perform call).AllReachable := by
  rcases perform_cases session call with he | ha
  · rwa [he]
  rcases attempt_cases h ha with ⟨made, hm, he⟩ | ⟨target, old, changed, hc⟩
  · rw [he]
    intro census hmem
    rcases List.mem_append.1 hmem with hmem | hmem
    · exact h census hmem
    · exact List.mem_singleton.1 hmem ▸ hm
  · rw [hc.replaced]
    intro census hmem
    rcases List.mem_or_eq_of_mem_set hmem with hmem | rfl
    · exact h census hmem
    · exact hc.reachable

/-- A census stays under its number and gives no id back. -/
theorem AllReachable.exists_perform (h : session.AllReachable) (call : Call) {number : Nat}
    {census : Census} (hn : session[number]? = some census) :
    ∃ now, (session.perform call)[number]? = some now ∧ census.treeCount ≤ now.treeCount := by
  have hlt := (List.getElem?_eq_some_iff.1 hn).1
  rcases perform_cases session call with he | ha
  · exact ⟨census, (congrArg (·[number]?) he).trans hn, Nat.le_refl _⟩
  rcases attempt_cases h ha with ⟨made, -, he⟩ | ⟨target, old, changed, hc⟩
  · refine ⟨census, ?_, Nat.le_refl _⟩
    rw [he, record, List.getElem?_append_left hlt, hn]
  · rw [hc.replaced]
    by_cases ht : target = number
    · subst ht
      obtain rfl := Option.some.inj (hn.symm.trans hc.there)
      exact ⟨changed, List.getElem?_set_self hlt, hc.keepsIds⟩
    · exact ⟨census, (List.getElem?_set_ne ht).trans hn, Nat.le_refl _⟩

/-- A refused call changes nothing. -/
theorem perform_of_error {refusal : Refusal} (h : session.attempt call = .error refusal) :
    session.perform call = session := by
  rw [perform, h]

/-- Counting a path is refused exactly for a tree without an id. -/
theorem attempt_addPath_eq_error_iff {target tree : Nat} {labels : List String} {census : Census}
    (ht : session[target]? = some census) {refusal : Refusal} :
    session.attempt (.addPath target labels tree) = .error refusal ↔
      census.treeCount ≤ tree ∧ refusal = .unknownTree ⟨tree, census.treeCount⟩ := by
  cases ha : census.addPath labels tree with
  | ok changed =>
    have hlt := (addPath_eq_ok_iff.1 ha).1
    simp only [attempt, census_eq_ok_iff.2 ht, ha, Except.mapError, bind, Except.bind, pure,
      Except.pure, reduceCtorEq, Nat.not_le_of_lt hlt, false_and]
  | error unknown =>
    obtain ⟨hle, rfl⟩ := addPath_eq_error_iff.1 ha
    simp only [attempt, census_eq_ok_iff.2 ht, ha, Except.mapError, bind, Except.bind,
      Except.error.injEq, hle, true_and, eq_comm]

/-! ## Runs -/

theorem allReachable_foldl (h : session.AllReachable) (calls : List Call) :
    AllReachable (calls.foldl perform session) := by
  induction calls generalizing session with
  | nil => exact h
  | cons call rest ih => exact ih (h.perform call)

/-- The censuses of a run come of the operations on censuses. -/
theorem allReachable_run (calls : List Call) : (run calls).AllReachable :=
  allReachable_foldl (fun _ hc => absurd hc List.not_mem_nil) calls

/-- However the session goes on, a census stays under its number and gives no id back. -/
theorem AllReachable.exists_foldl (h : session.AllReachable) (calls : List Call) {number : Nat}
    {census : Census} (hn : session[number]? = some census) :
    ∃ now, (calls.foldl Session.perform session)[number]? = some now ∧
      census.treeCount ≤ now.treeCount := by
  induction calls generalizing session census with
  | nil => exact ⟨census, hn, Nat.le_refl _⟩
  | cons call rest ih =>
    obtain ⟨next, hnext, hle⟩ := h.exists_perform call hn
    obtain ⟨now, hnow, hrest⟩ := ih (h.perform call) hnext
    exact ⟨now, hnow, Nat.le_trans hle hrest⟩

theorem run_append (calls more : List Call) :
    run (calls ++ more) = more.foldl Session.perform (run calls) :=
  List.foldl_append

/-- Whatever is called, in whatever order and on whichever censuses: every census is well-formed and
its labels are addresses; a census stays under its number and gives no id back, however the session
goes on; and counting a path is refused exactly for a tree without an id, and then changes nothing.
Trees that are counted for themselves and merged in some other order and grouping are a run of calls
that create, add and merge. -/
theorem run_invariant (calls : List Call) :
    (∀ census ∈ run calls, census.WellFormed ∧ census.Addressed) ∧
      (∀ (number : Nat) (census : Census) (more : List Call), (run calls)[number]? = some census →
        ∃ now : Census, (run (calls ++ more))[number]? = some now ∧
          census.treeCount ≤ now.treeCount) ∧
      ∀ (target : Nat) (census : Census) (labels : List String) (tree : Nat),
        (run calls)[target]? = some census →
        ((∃ refusal, (run calls).attempt (.addPath target labels tree) = .error refusal) ↔
            census.treeCount ≤ tree) ∧
          (census.treeCount ≤ tree →
            (run calls).attempt (.addPath target labels tree) =
                .error (.unknownTree ⟨tree, census.treeCount⟩) ∧
              run (calls ++ [.addPath target labels tree]) = run calls) := by
  have hreach := allReachable_run calls
  refine ⟨fun census hc => ?_, fun number census more hn => ?_,
    fun target census labels tree ht => ?_⟩
  · have hwell := (hreach census hc).wellFormed
    exact ⟨hwell, hwell.addressed⟩
  · rw [run_append]
    exact hreach.exists_foldl more hn
  · constructor
    · constructor
      · rintro ⟨refusal, hr⟩
        exact ((attempt_addPath_eq_error_iff ht).1 hr).1
      · exact fun hle => ⟨_, (attempt_addPath_eq_error_iff ht).2 ⟨hle, rfl⟩⟩
    · intro hle
      have hrefused : (run calls).attempt (.addPath target labels tree) =
          .error (.unknownTree ⟨tree, census.treeCount⟩) :=
        (attempt_addPath_eq_error_iff ht).2 ⟨hle, rfl⟩
      refine ⟨hrefused, ?_⟩
      rw [run_append]
      exact perform_of_error hrefused

/-- Calls on two censuses: the first is read from a dump whose header gives too few trees and in
which A comes twice, the second grows from a tree and from the first. -/
def mixedCalls : List Call :=
  [.read (Dump.linesOfText "head 1\nA 7:2\n| B 0:1\nA 4:3\n| C 4:1\n".toList), .create 0,
    .addTree 1 loopTree, .merge 1 0, .addPath 1 ["A", "C"] 3, .addPath 1 ["A", "D"] 5,
    .addCounts 0 1, .restructure 0 "A"]

/-- The header and the first A are overruled, the ids of both censuses go up to 4 after the merge,
and a sixth tree is refused, before the last calls and after them. -/
theorem run_invariant_mixed :
    (run mixedCalls).map Census.treeCount = [5, 5, 5] ∧
      (∀ census ∈ run mixedCalls, census.WellFormed ∧ census.Addressed) ∧
      run (mixedCalls ++ [.addPath 1 ["A"] 5]) = run mixedCalls := by
  obtain ⟨hcensuses, -, hpaths⟩ := run_invariant mixedCalls
  have hcounts : (run mixedCalls).map Census.treeCount = [5, 5, 5] := by decide +kernel
  refine ⟨hcounts, hcensuses, ?_⟩
  have hcount : ((run mixedCalls)[1]?.map Census.treeCount) = some 5 := by
    rw [← List.getElem?_map, hcounts]
    rfl
  obtain ⟨census, hthere, hfive⟩ := Option.map_eq_some_iff.1 hcount
  exact ((hpaths 1 census ["A"] 5 hthere).2 (Nat.le_of_eq hfive)).2

end Session

end PathCensus
