import PathCensus.Files.Walk
import PathCensus.Proofs.Files.Writing

/-!
# The files that a walk lists

A walk from a directory meets each file below it once that can be come by: the directories on the way
there may be read. In which order it meets them does not matter.
-/

namespace PathCensus

/-- A file that can be come by from a place: the directories on the way to it may be read. -/
structure Store.Lists (store : Store) (place names : List String) : Prop where
  /-- There is a file. -/
  isFile : ∃ bytes access, store.entry? (place ++ names) = some (.file bytes access)
  /-- What is above it from the place on is a directory that may be read. -/
  passage : ∀ above, above <+: names → above ≠ names →
    ∃ access, store.entry? (place ++ above) = some (.directory access) ∧ access ≠ .closed

/-- From every directory a walk meets the files that can be come by, each of them once. -/
def MeetsFiles (walk : Store → List String → List (Except OsError Met)) : Prop :=
  ∀ (store : Store) (place : List String) (access : Access),
    store.entry? place = some (.directory access) →
      (filesMet (walk store place)).Nodup ∧
        ∀ names, names ∈ filesMet (walk store place) ↔ store.Lists place names

/-- Nothing is left twice. -/
theorem nodup_eraseDups {α : Type} [BEq α] [LawfulBEq α] : ∀ items : List α, items.eraseDups.Nodup
  | [] => List.nodup_nil
  | item :: rest => by
    rw [List.eraseDups_cons, List.nodup_cons, List.mem_eraseDups, List.mem_filter]
    exact ⟨by simp, nodup_eraseDups (rest.filter fun other => !other == item)⟩
termination_by items => items.length
decreasing_by exact Nat.lt_succ_of_le (List.length_filter_le _ _)

theorem filesMet_flatMap {α : Type} (items : List α) (f : α → List (Except OsError Met)) :
    filesMet (items.flatMap f) = items.flatMap fun item => filesMet (f item) :=
  List.filterMap_flatMap

namespace Store

variable {store : Store} {place names : List String}

/-- At the end of names a file is met if there is one. -/
theorem mem_filesMet_meet_iff {found : List String} : found ∈ filesMet (store.meet place names) ↔
    found = names ∧ ∃ bytes access, store.entry? (place ++ names) = some (.file bytes access) := by
  rw [meet]
  cases store.entry? (place ++ names) with
  | none => simp [filesMet]
  | some entry =>
    cases entry with
    | file bytes access => simp [filesMet]
    | directory access => cases access <;> simp [filesMet]

theorem filesMet_meet_sublist : (filesMet (store.meet place names)).Sublist [names] := by
  rw [meet]
  cases store.entry? (place ++ names) with
  | none => simp [filesMet]
  | some entry =>
    cases entry with
    | file bytes access => simp [filesMet]
    | directory access => cases access <;> simp [filesMet]

theorem isPassable_iff : store.isPassable place names = true ↔
    ∀ above, above <+: names → above ≠ names → store.checkPassage (place ++ above) = .ok () := by
  have hsome : ∀ above, (store.checkPassage (place ++ above)).toOption.isSome = true ↔
      store.checkPassage (place ++ above) = .ok () := by
    intro above
    cases store.checkPassage (place ++ above) <;> simp [Except.toOption]
  simp only [isPassable, List.all_eq_true, List.mem_range, hsome]
  constructor
  · intro h above habove hne
    have hshort : above.length < names.length :=
      Nat.lt_of_le_of_ne habove.length_le fun he => hne (habove.eq_of_length he)
    have htake := h above.length hshort
    rwa [← List.prefix_iff_eq_take.1 habove] at htake
  · intro h n hn
    refine h (names.take n) (List.take_prefix n names) fun he => ?_
    have hlength := congrArg List.length he
    rw [List.length_take] at hlength
    omega

/-- What is not the start itself is below it if it is there. -/
theorem mem_namesBelow_of_isSome (h : (store.entry? (place ++ names)).isSome) :
    names ∈ store.namesBelow place := by
  rw [namesBelow, List.mem_eraseDups]
  by_cases hnil : place ++ names = []
  · rw [(List.append_eq_nil_iff.1 hnil).2]
    exact List.mem_cons_self
  · refine List.mem_cons_of_mem _ (List.mem_filterMap.2 ?_)
    have hempty : (place ++ names).isEmpty = false := by rwa [List.isEmpty_eq_false_iff]
    unfold Store.entry? at h
    rw [hempty] at h
    obtain ⟨entry, hlookup⟩ := Option.isSome_iff_exists.1 h
    obtain ⟨before, after, hentries, -⟩ := List.lookup_eq_some_iff.1 hlookup
    exact ⟨(place ++ names, entry), hentries ▸ by simp, by simp⟩

/-- Files that can be come by are met, and each of them once. -/
theorem meetsFiles_walk : MeetsFiles walk := by
  intro store place access _
  rw [walk, filesMet_flatMap]
  constructor
  · have hsublist : ∀ found : List (List String),
        (found.flatMap fun names => filesMet (store.meet place names)).Sublist found := by
      intro found
      induction found with
      | nil => exact List.Sublist.refl _
      | cons names rest ih => exact filesMet_meet_sublist.append ih
    exact (hsublist _).nodup ((nodup_eraseDups _).filter _)
  · intro names
    simp only [List.mem_flatMap, List.mem_filter, mem_filesMet_meet_iff, isPassable_iff,
      checkPassage_eq_ok_iff]
    constructor
    · rintro ⟨found, ⟨-, hpassage⟩, rfl, hfile⟩
      exact ⟨hfile, hpassage⟩
    · rintro ⟨⟨bytes, access, hentry⟩, hpassage⟩
      exact ⟨names, ⟨mem_namesBelow_of_isSome (Option.isSome_of_eq_some hentry), hpassage⟩, rfl,
        bytes, access, hentry⟩

end Store

end PathCensus
