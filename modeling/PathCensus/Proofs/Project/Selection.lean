import PathCensus.Project.Discovery
import PathCensus.Proofs.Files.Walking
import PathCensus.Proofs.Text.Order

/-!
# Projects and their dumps

Which settings hold in a working directory and which files are its dumps is told here without the
search for them. A walk meets the files in some order, but the order of lists of names is total, so
the dumps do not depend on it.
-/

namespace PathCensus

/-! ## Settings -/

/-- A configuration lies in the directory at a place. -/
def Store.HasConfig (store : Store) (place : List String) : Prop :=
  ∃ found, store.resolve place (Location.join (Location.ofNames place) "treecount.toml") = .ok found

/-- The settings that hold in a working directory, and the directory that they are for: what the
configuration says that lies nearest from there upwards, or nothing if there is none. -/
inductive Configured (readConfig? : List Char → Option ProjectSettings) (store : Store)
    (workingPlace : List String) : String → ProjectSettings → Prop
  | written {root : List String} {bytes : List UInt8} {config : List Char}
      {settings : ProjectSettings} (habove : root <+: workingPlace) (hthere : store.HasConfig root)
      (hnearest : ∀ other, other <+: workingPlace → store.HasConfig other → other <+: root)
      (hbytes : store.readBytes workingPlace
        (Location.join (Location.ofNames root) "treecount.toml") = .ok bytes)
      (htext : Text.decode? bytes = some config) (hread : readConfig? config = some settings) :
      Configured readConfig? store workingPlace (Location.ofNames root) settings
  | unwritten (hnone : ∀ root, root <+: workingPlace → ¬store.HasConfig root) :
      Configured readConfig? store workingPlace (Location.ofNames workingPlace) ⟨none⟩

namespace Project

variable {store : Store} {names root : List String}

theorem hasConfig_iff {place : List String} : hasConfig store place = true ↔ store.HasConfig place := by
  rw [hasConfig, Store.has, Store.HasConfig, configName]
  cases store.resolve place (Location.join (Location.ofNames place) "treecount.toml") <;>
    simp [Except.toOption]

theorem findRoot?_eq_none_iff : findRoot? store names = none ↔
    ∀ root, root <+: names.reverse → ¬store.HasConfig root := by
  simp only [← hasConfig_iff, Bool.not_eq_true]
  induction names with
  | nil =>
    rw [findRoot?]
    by_cases hhere : hasConfig store [] = true
    · rw [if_pos hhere]
      simp [hhere]
    · rw [if_neg hhere]
      simpa using hhere
  | cons name above ih =>
    rw [findRoot?]
    have hsplit : ∀ root, root <+: (name :: above).reverse ↔
        root = (name :: above).reverse ∨ root <+: above.reverse := by
      intro root
      rw [List.reverse_cons]
      exact List.prefix_concat_iff
    by_cases hhere : hasConfig store (name :: above).reverse = true
    · rw [if_pos hhere]
      simp only [reduceCtorEq, false_iff]
      intro hall
      rw [hall _ (List.prefix_refl _)] at hhere
      cases hhere
    · rw [if_neg hhere, ih]
      simp only [hsplit, forall_eq_or_imp]
      exact (and_iff_right (Bool.not_eq_true _ ▸ hhere)).symm

/-- The place that is found is the nearest one with a configuration. -/
theorem findRoot?_eq_some_iff : findRoot? store names = some root ↔
    root <+: names.reverse ∧ store.HasConfig root ∧
      ∀ other, other <+: names.reverse → store.HasConfig other → other <+: root := by
  simp only [← hasConfig_iff]
  induction names with
  | nil =>
    rw [findRoot?]
    by_cases hhere : hasConfig store [] = true
    · rw [if_pos hhere]
      simp only [Option.some.injEq, List.reverse_nil, List.prefix_nil]
      constructor
      · rintro rfl
        exact ⟨rfl, hhere, fun other hother _ => hother ▸ List.prefix_refl _⟩
      · exact fun h => h.1.symm
    · rw [if_neg hhere]
      simp only [reduceCtorEq, List.reverse_nil, List.prefix_nil, false_iff]
      rintro ⟨rfl, hthere, -⟩
      exact hhere hthere
  | cons name above ih =>
    rw [findRoot?]
    by_cases hhere : hasConfig store (name :: above).reverse = true
    · rw [if_pos hhere, Option.some.injEq]
      constructor
      · rintro rfl
        exact ⟨List.prefix_refl _, hhere, fun _ hother _ => hother⟩
      · rintro ⟨habove, -, hnearest⟩
        exact (hnearest _ (List.prefix_refl _) hhere).eq_of_length_le habove.length_le
    · rw [if_neg hhere, ih, List.reverse_cons]
      constructor
      · rintro ⟨habove, hthere, hnearest⟩
        refine ⟨habove.trans (List.prefix_append _ _), hthere, fun other hother hconfig => ?_⟩
        rcases List.prefix_concat_iff.1 hother with rfl | hother
        · rw [← List.reverse_cons] at hconfig
          exact absurd hconfig hhere
        · exact hnearest other hother hconfig
      · rintro ⟨habove, hthere, hnearest⟩
        rcases List.prefix_concat_iff.1 habove with rfl | habove
        · rw [← List.reverse_cons] at hthere
          exact absurd hthere hhere
        · exact ⟨habove, hthere, fun other hother =>
            hnearest other (hother.trans (List.prefix_append _ _))⟩

/-- If an empty configuration says nothing, the project of a working directory is the one of the
settings that hold there. -/
theorem discover_eq_ok_iff {readConfig? : List Char → Option ProjectSettings}
    (hempty : readConfig? [] = some ⟨none⟩) {store : Store} {workingPlace : List String}
    {project : Project} :
    discover readConfig? store workingPlace = .ok project ↔
      ∃ root settings, Configured readConfig? store workingPlace root settings ∧
        project = ofSettings root settings := by
  rw [discover]
  constructor
  · intro h
    cases hroot : findRoot? store workingPlace.reverse with
    | none =>
      rw [findRoot?_eq_none_iff, List.reverse_reverse] at hroot
      simp only [findRoot?_eq_none_iff.2 (List.reverse_reverse workingPlace ▸ hroot), ofConfig,
        hempty, Except.ok.injEq] at h
      exact ⟨_, _, .unwritten hroot, h.symm⟩
    | some root =>
      simp only [hroot, load, Store.readText] at h
      rw [findRoot?_eq_some_iff, List.reverse_reverse] at hroot
      obtain ⟨habove, hthere, hnearest⟩ := hroot
      cases hbytes : store.readBytes workingPlace
          (Location.join (Location.ofNames root) configName) with
      | error e => simp [hbytes] at h
      | ok bytes =>
        cases htext : Text.decode? bytes with
        | none => simp [hbytes, htext] at h
        | some config =>
          cases hread : readConfig? config with
          | none => simp [hbytes, htext, ofConfig, hread] at h
          | some settings =>
            simp only [hbytes, htext, ofConfig, hread, Except.ok.injEq] at h
            exact ⟨_, _, .written habove hthere hnearest hbytes htext hread, h.symm⟩
  · rintro ⟨root, settings, hconfigured, rfl⟩
    cases hconfigured with
    | written habove hthere hnearest hbytes htext hread =>
      rename_i place bytes config
      have hroot : findRoot? store workingPlace.reverse = some place := by
        rw [findRoot?_eq_some_iff, List.reverse_reverse]
        exact ⟨habove, hthere, hnearest⟩
      simp only [hroot, load, Store.readText, configName, hbytes, htext, ofConfig, hread]
    | unwritten hnone =>
      have hroot : findRoot? store workingPlace.reverse = none := by
        rw [findRoot?_eq_none_iff, List.reverse_reverse]
        exact hnone
      simp only [hroot, ofConfig, hempty]

end Project

/-! ## Dumps -/

/-- The first dumps in order: the files that can be come by from a directory and have an extension, by
their names, as many as a limit allows. They are named as seen from where the directory is named. -/
def Store.Selects (store : Store) (workingPlace : List String) (dataDir extension : String)
    (limit : Option Nat) (dumps : List String) : Prop :=
  ∃ (place : List String) (access : Access) (files : List (List String)),
    store.resolve workingPlace dataDir = .ok (place, .directory access) ∧
    (∀ names, names ∈ files ↔
      store.Lists place names ∧ names.getLast?.bind Location.extension? = some extension) ∧
    files.Pairwise (List.Lex (· < ·)) ∧
    dumps = (files.take (limit.getD files.length)).map fun names =>
      Location.join dataDir ("/".intercalate names)

namespace Store

/-- What a location names is there. -/
theorem entry?_of_resolve {store : Store} {workingPlace place : List String} {location : String}
    {entry : StoreEntry} (h : store.resolve workingPlace location = .ok (place, entry)) :
    store.entry? place = some entry := by
  simp only [resolve] at h
  cases hc : checkLocation location with
  | error e => simp [hc] at h
  | ok _ =>
    cases hf : store.follow (start workingPlace location) (Location.names location) with
    | error e => simp [hc, hf] at h
    | ok found =>
      cases he : store.entry? found with
      | none => simp [hc, hf, he] at h
      | some there =>
        cases there with
        | directory access =>
          simp only [hc, hf, he, Except.ok.injEq, Prod.mk.injEq] at h
          obtain ⟨rfl, rfl⟩ := h
          exact he
        | file bytes access =>
          simp only [hc, hf, he] at h
          split at h
          · cases h
          · simp only [Except.ok.injEq, Prod.mk.injEq] at h
            obtain ⟨rfl, rfl⟩ := h
            exact he

end Store

namespace Project

/-- Files are in order, each one once, just when each comes before those behind it. -/
theorem pairwise_lex_iff {files : List (List String)} : files.Pairwise (List.Lex (· < ·)) ↔
    files.Nodup ∧ files.Pairwise fun a b => Text.namesLe a b = true := by
  constructor
  · intro h
    constructor
    · refine h.imp fun {a b} hab heq => ?_
      subst heq
      exact List.lex_irrefl String.lt_irrefl a hab
    · exact h.imp fun hab => Text.namesLe_iff.2 (.inr hab)
  · rintro ⟨hnodup, hsorted⟩
    exact hnodup.imp₂ (fun _ _ hne hle => (Text.namesLe_iff.1 hle).resolve_left hne) hsorted

/-- The files of a directory that have the right extension are in order in one way only. -/
theorem eq_mergeSort_of_pairwise {found files : List (List String)} (hfound : found.Nodup)
    (hmem : ∀ names, names ∈ files ↔ names ∈ found)
    (hordered : files.Pairwise (List.Lex (· < ·))) : files = found.mergeSort Text.namesLe := by
  obtain ⟨hfiles, hsorted⟩ := pairwise_lex_iff.1 hordered
  have hperm : files.Perm (found.mergeSort Text.namesLe) :=
    ((List.perm_ext_iff_of_nodup hfiles hfound).2 hmem).trans
      (List.mergeSort_perm found Text.namesLe).symm
  have hother := @List.pairwise_mergeSort _ Text.namesLe (fun _ _ _ => Text.namesLe_trans)
    Text.namesLe_total found
  exact hperm.eq_of_pairwise (fun _ _ _ _ => Text.namesLe_antisymm) hsorted hother

theorem atMost_map {α β : Type} (limit : Option Nat) (f : α → β) (items : List α) :
    atMost limit (items.map f) = (items.take (limit.getD items.length)).map f := by
  cases limit with
  | none => rw [atMost, Option.getD_none, List.take_length]
  | some limit => exact List.map_take.symm

/-- Dumps that are met in order need no sorting. -/
theorem findDumps_of_pairwise {walk : Store → List String → List (Except OsError Met)}
    {project : Project} {store : Store} {workingPlace place : List String} {access : Access}
    {files : List (List String)}
    (hresolve : store.resolve workingPlace project.dataDir = .ok (place, .directory access))
    (hfiles : ((filesMet (walk store place)).filter fun names =>
      (names.getLast?.bind Location.extension?) = some project.extension) = files)
    (hsorted : files.Pairwise fun a b => Text.namesLe a b = true) :
    project.findDumps walk store workingPlace = .ok (atMost project.limit
      (files.map fun names => Location.join project.dataDir ("/".intercalate names))) := by
  simp only [findDumps, hresolve, hfiles, List.mergeSort_of_pairwise hsorted]

/-- If walks meet the files that can be come by, the dumps that are found are the first ones in
order. -/
theorem findDumps_eq_ok_iff {walk : Store → List String → List (Except OsError Met)}
    (hwalk : MeetsFiles walk) {project : Project} {store : Store}
    {workingPlace dumps : List String} :
    project.findDumps walk store workingPlace = .ok dumps ↔
      store.Selects workingPlace project.dataDir project.extension project.limit dumps := by
  rw [findDumps]
  constructor
  · intro h
    split at h
    · next place access hresolve =>
      obtain ⟨hnodup, hmem⟩ := hwalk store place access (Store.entry?_of_resolve hresolve)
      rw [Except.ok.injEq, atMost_map] at h
      refine ⟨place, access, _, hresolve, fun names => ?_, pairwise_lex_iff.2 ⟨?_, ?_⟩, h.symm⟩
      · rw [List.mem_mergeSort, List.mem_filter, hmem, decide_eq_true_eq]
      · exact (List.mergeSort_perm _ _).nodup_iff.2 (hnodup.filter _)
      · exact @List.pairwise_mergeSort _ Text.namesLe (fun _ _ _ => Text.namesLe_trans)
          Text.namesLe_total _
    · cases h
  · rintro ⟨place, access, files, hresolve, hmem, hordered, rfl⟩
    obtain ⟨hnodup, hmet⟩ := hwalk store place access (Store.entry?_of_resolve hresolve)
    have heq := eq_mergeSort_of_pairwise (hnodup.filter fun names =>
      (names.getLast?.bind Location.extension?) = some project.extension)
      (fun names => by rw [hmem, List.mem_filter, hmet, decide_eq_true_eq]) hordered
    simp only [hresolve, atMost_map, ← heq]

end Project

end PathCensus
