import PathCensus.Proofs.Census.RoundTrip
import PathCensus.Proofs.Command.Gathering
import PathCensus.Proofs.Command.Services
import PathCensus.Proofs.Files.Keeping

/-!
# Both ways to count

Trees can be added in turn or counted for themselves and merged, and then in any order and grouping. The
censuses that come of it agree, so of one location either all of them can be saved or none.
-/

namespace PathCensus

namespace Workspace

/-- Whether a text is saved is whether its file is written. -/
theorem refusal_save_ok (workspace : Workspace) (location text : String) :
    (workspace.save location (.ok text)).2 =
      (workspace.store.writeFile workspace.place location (Text.encode text)).2.map .os := rfl

/-- Of two texts at one location none is saved or both, unless a text is missing. -/
theorem refusal_save_alike (workspace : Workspace) (location : String)
    {first second : Except Dump.WriteFault String}
    (h : (∃ text, first = .ok text) ↔ ∃ text, second = .ok text) :
    (workspace.save location first).2 = (workspace.save location second).2 ∨
      ∃ fault other, (workspace.save location first).2 = some (.dump fault) ∧
        (workspace.save location second).2 = some (.dump other) := by
  cases first with
  | error fault =>
    cases second with
    | error other => exact .inr ⟨fault, other, rfl, rfl⟩
    | ok text =>
      obtain ⟨_, he⟩ := h.2 ⟨text, rfl⟩
      cases he
  | ok text =>
    obtain ⟨other, rfl⟩ := h.1 ⟨text, rfl⟩
    refine .inl ?_
    rw [refusal_save_ok, refusal_save_ok, Store.refusal_writeFile]

end Workspace

namespace Command

variable {services : Services} {reduce : (Census → Census → Census) → Census → List Census → Census}

/-- Trees that are counted for themselves and then merged as a whole are as good as added in turn. -/
theorem reduceTrees_agrees (h : ReducesAll services.reduce) (trees : List Tree) :
    (reduceTrees services trees).WellFormed ∧
      (reduceTrees services trees).Agrees (Census.empty.addTrees trees) := by
  obtain ⟨order, hperm, hreduced⟩ :=
    h Census.merge Census.empty (trees.mapIdx Census.ofTree)
  exact hreduced.combined.agrees hperm

/-- Restructured or not, both ways to count trees come to what adding them in turn comes to. -/
theorem censusOf_agrees (h : ReducesAll services.reduce) (options : BuildOptions)
    (trees : List Tree) :
    (censusOf services options trees).WellFormed ∧
      (censusOf services options trees).Agrees
        (restructureAt options.restructure (Census.empty.addTrees trees)) := by
  have hempty : Census.Reachable .trees Census.empty := .ofTreeCount 0
  have hadded := (Census.reachable_addTrees hempty trees).wellFormed
  have hplain : (if options.parallel then reduceTrees services trees
        else Census.empty.addTrees trees).WellFormed ∧
      (if options.parallel then reduceTrees services trees
        else Census.empty.addTrees trees).Agrees (Census.empty.addTrees trees) := by
    split
    · exact reduceTrees_agrees h trees
    · exact ⟨hadded, .refl _⟩
  rw [censusOf]
  cases options.restructure with
  | none => exact hplain
  | some label => exact ⟨hplain.1.restructure label, hplain.2.restructure hplain.1 hadded label⟩

/-- However trees are counted, a build fails alike; but if labels cannot be written, they need not be
the same that are reported. -/
theorem failure_alike (h : ReducesAll services.reduce) (hreduce : ReducesAll reduce)
    (workspace : Workspace) (options : BuildOptions) (parallel : Bool) :
    (runBuild { services with reduce } workspace { options with parallel }).failure =
        (runBuild services workspace options).failure ∨
      ∃ fault other,
        (runBuild { services with reduce } workspace { options with parallel }).failure =
          some (.save (.dump fault)) ∧
        (runBuild services workspace options).failure = some (.save (.dump other)) := by
  have hgather : gatherTrees { services with reduce } workspace { options with parallel } =
      gatherTrees services workspace options := rfl
  cases hg : gatherTrees services workspace options with
  | error failure =>
    rw [(runBuild_of_error hg).1, (runBuild_of_error (hgather.trans hg)).1]
    exact .inl rfl
  | ok trees =>
    by_cases hempty : trees = []
    · subst hempty
      rw [(runBuild_of_nil hg).1, (runBuild_of_nil (hgather.trans hg)).1]
      exact .inl rfl
    · rw [(runBuild_of_ne_nil hg hempty).1, (runBuild_of_ne_nil (hgather.trans hg) hempty).1]
      obtain ⟨hsecond, hsecondAgrees⟩ := censusOf_agrees h options trees
      obtain ⟨hfirst, hfirstAgrees⟩ := @censusOf_agrees { services with reduce } hreduce
        { options with parallel } trees
      have hagrees := hfirstAgrees.trans hsecondAgrees.symm
      rcases workspace.refusal_save_alike options.output
        (hagrees.exists_render_iff hfirst hsecond) with hsame | ⟨fault, other, hf, ho⟩
      · exact .inl (congrArg _ hsame)
      · refine .inr ⟨fault, other, ?_, ?_⟩
        · rw [Workspace.saveCensus, hf, Option.map_some]
        · rw [Workspace.saveCensus, ho, Option.map_some]

end Command

end PathCensus
