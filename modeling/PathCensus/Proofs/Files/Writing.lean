import PathCensus.Files.Store

/-!
# Reading what was written

A file is written where its location leads, and the way there passes directories only. Giving bytes
to a place that is no directory leaves this way as it was, so the same location then leads to the
file and the file has these bytes.
-/

namespace PathCensus.Store

/-- What was put at a place is there. -/
theorem entry?_set_self (store : Store) {place : List String} (h : place ≠ [])
    (entry : StoreEntry) : Store.entry? (store.set place entry) place = some entry := by
  have hlookup : ∀ entries : List (List String × StoreEntry),
      (setEntries place entry entries).lookup place = some entry := by
    intro entries
    induction entries with
    | nil => simp [setEntries]
    | cons e rest ih =>
      obtain ⟨p, old⟩ := e
      unfold setEntries
      by_cases hp : p = place
      · subst hp
        simp
      · have hb : (place == p) = false := by simpa using Ne.symm hp
        rw [if_neg hp, List.lookup_cons, hb]
        exact ih
  have hempty : place.isEmpty = false := by simpa using h
  unfold Store.entry?
  rw [hempty]
  exact hlookup store.entries

/-- Elsewhere everything stays. -/
theorem entry?_set_of_ne (store : Store) {place other : List String} (h : other ≠ place)
    (entry : StoreEntry) : Store.entry? (store.set place entry) other = store.entry? other := by
  have hlookup : ∀ entries : List (List String × StoreEntry),
      (setEntries place entry entries).lookup other = entries.lookup other := by
    intro entries
    induction entries with
    | nil =>
      have hb : (other == place) = false := by simpa using h
      rw [setEntries, List.lookup_cons, hb]
    | cons e rest ih =>
      obtain ⟨p, old⟩ := e
      unfold setEntries
      by_cases hp : p = place
      · subst hp
        have hb : (other == p) = false := by simpa using h
        rw [if_pos rfl, List.lookup_cons, List.lookup_cons, hb]
      · rw [if_neg hp, List.lookup_cons, List.lookup_cons, ih]
  unfold Store.entry?
  by_cases hempty : other.isEmpty = true
  · rw [if_pos hempty, if_pos hempty]
    rfl
  · rw [if_neg hempty, if_neg hempty]
    exact hlookup store.entries

/-- Names are followed one after another. -/
theorem follow_append (store : Store) (here : List String) (names rest : List String) :
    store.follow here (names ++ rest) =
      match store.follow here names with
      | .error e => .error e
      | .ok place => store.follow place rest := by
  induction names generalizing here with
  | nil => rfl
  | cons name names ih =>
    rw [List.cons_append, follow, follow]
    cases store.checkPassage here with
    | error e => rfl
    | ok _ =>
      by_cases hdot : name = "."
      · simp only [if_pos hdot, ih]
      · by_cases hdots : name = ".."
        · simp only [if_neg hdot, if_pos hdots, ih]
        · by_cases hlong : isTooLong name = true
          · simp only [if_neg hdot, if_neg hdots, if_pos hlong]
          · simp only [if_neg hdot, if_neg hdots, if_neg hlong]
            cases store.entry? (here ++ [name]) with
            | none => rfl
            | some _ => exact ih (here ++ [name])

/-- Names can be looked up in the directories that may be read. -/
theorem checkPassage_eq_ok_iff {store : Store} {place : List String} :
    store.checkPassage place = .ok () ↔
      ∃ access, store.entry? place = some (.directory access) ∧ access ≠ .closed := by
  rw [checkPassage]
  cases store.entry? place with
  | none => simp
  | some entry =>
    cases entry with
    | file bytes access => simp
    | directory access => cases access <;> simp

/-- Names lead on where they led before if directories stay and nothing is taken away. -/
theorem follow_mono {before after : Store}
    (hdirectory : ∀ place access, before.entry? place = some (.directory access) →
      after.entry? place = some (.directory access))
    (hsome : ∀ place, (before.entry? place).isSome → (after.entry? place).isSome)
    {here found : List String} {names : List String} (h : before.follow here names = .ok found) :
    after.follow here names = .ok found := by
  induction names generalizing here with
  | nil => exact h
  | cons name names ih =>
    rw [follow] at h ⊢
    cases hpass : before.checkPassage here with
    | error e => simp [hpass] at h
    | ok _ =>
      obtain ⟨access, hentry, hopen⟩ := checkPassage_eq_ok_iff.1 hpass
      rw [checkPassage_eq_ok_iff.2 ⟨access, hdirectory here access hentry, hopen⟩]
      simp only [hpass] at h ⊢
      by_cases hdot : name = "."
      · rw [if_pos hdot] at h ⊢
        exact ih h
      · by_cases hdots : name = ".."
        · rw [if_neg hdot, if_pos hdots] at h ⊢
          exact ih h
        · by_cases hlong : isTooLong name = true
          · rw [if_neg hdot, if_neg hdots, if_pos hlong] at h
            cases h
          · rw [if_neg hdot, if_neg hdots, if_neg hlong] at h ⊢
            cases hs : before.entry? (here ++ [name]) with
            | none => simp [hs] at h
            | some old =>
              simp only [hs] at h
              obtain ⟨entry, hnext⟩ :=
                Option.isSome_iff_exists.1 (hsome _ (Option.isSome_of_eq_some hs))
              rw [hnext]
              exact ih h

/-- A way to a directory does not pass a place that is none, so it stays when a file is put there. -/
theorem follow_set {store : Store} {place : List String} (hp : place ≠ [])
    (hfile : ∀ access, store.entry? place ≠ some (.directory access)) (bytes : List UInt8)
    (access : Access) {here found : List String} {names : List String}
    (h : store.follow here names = .ok found) :
    (store.set place (.file bytes access)).follow here names = .ok found := by
  refine follow_mono (fun other old hother => ?_) (fun other hother => ?_) h
  · have hne : other ≠ place := by
      rintro rfl
      exact hfile old hother
    rw [entry?_set_of_ne store hne, hother]
  · by_cases hne : other = place
    · rw [hne, entry?_set_self store hp]
      rfl
    · rwa [entry?_set_of_ne store hne]

/-- What it takes for all but the last name of a location to lead to a directory. -/
theorem resolveLast_eq_ok {store : Store} {workingPlace place : List String} {location name : String}
    (h : store.resolveLast workingPlace location = .ok (place, some name)) :
    checkLocation location = .ok () ∧
      store.follow (start workingPlace location) (Location.names location).dropLast = .ok place ∧
      store.checkPassage place = .ok () ∧
      Location.names location = (Location.names location).dropLast ++ [name] := by
  simp only [resolveLast] at h
  cases hc : checkLocation location with
  | error e => simp [hc] at h
  | ok _ =>
    cases hf : store.follow (start workingPlace location) (Location.names location).dropLast with
    | error e => simp [hc, hf] at h
    | ok found =>
      cases hl : (Location.names location).getLast? with
      | none => simp [hc, hf, hl] at h
      | some last =>
        cases hp : store.checkPassage found with
        | error e => simp [hc, hf, hl, hp, Except.map] at h
        | ok _ =>
          simp only [hc, hf, hl, hp, Except.map, Except.ok.injEq, Prod.mk.injEq,
            Option.some.injEq] at h
          obtain ⟨rfl, rfl⟩ := h
          obtain ⟨front, hfront⟩ := List.getLast?_eq_some_iff.1 hl
          exact ⟨rfl, rfl, hp, by rw [hfront, List.dropLast_concat]⟩

/-- What it takes for a file to be made, and where it is. -/
theorem makeFile_eq_ok {store made : Store} {workingPlace : List String} {location : String}
    {bytes : List UInt8} (h : store.makeFile workingPlace location bytes = .ok made) :
    ∃ place name, checkLocation location = .ok () ∧
      Location.names location = (Location.names location).dropLast ++ [name] ∧
      store.follow (start workingPlace location) (Location.names location).dropLast = .ok place ∧
      store.checkPassage place = .ok () ∧ Location.endsInSlash location = false ∧
      isDots name = false ∧ isTooLong name = false ∧
      (∀ access, store.entry? (place ++ [name]) ≠ some (.directory access)) ∧
      made = store.set (place ++ [name]) (.file bytes .full) := by
  rw [makeFile] at h
  split at h
  · cases h
  · cases h
  · next place name hresolve =>
    obtain ⟨hcheck, hfollow, hpassage, hnames⟩ := resolveLast_eq_ok hresolve
    by_cases hslash : (Location.endsInSlash location || isDots name) = true
    · rw [if_pos hslash] at h
      cases h
    · by_cases hlong : isTooLong name = true
      · rw [if_neg hslash, if_pos hlong] at h
        cases h
      · rw [if_neg hslash, if_neg hlong] at h
        rw [Bool.not_eq_true, Bool.or_eq_false_iff] at hslash
        rw [Bool.not_eq_true] at hlong
        refine ⟨place, name, hcheck, hnames, hfollow, hpassage, hslash.1, hslash.2, hlong, ?_⟩
        split at h
        · cases h
        · next hthere =>
          split at h
          · exact ⟨by simp [hthere], (Except.ok.inj h).symm⟩
          · cases h
        · next hthere =>
          split at h
          · exact ⟨by simp [hthere], (Except.ok.inj h).symm⟩
          · cases h

/-- The bytes of a file that was made are read back. -/
theorem readBytes_makeFile {store made : Store} {workingPlace : List String} {location : String}
    {bytes : List UInt8} (h : store.makeFile workingPlace location bytes = .ok made) :
    made.readBytes workingPlace location = .ok bytes := by
  obtain ⟨place, name, hc, hnames, hf, hp, hslash, hdots, hlong, hfile, rfl⟩ := makeFile_eq_ok h
  have hne : place ++ [name] ≠ [] := by simp
  have hplace : place ≠ place ++ [name] := by simp
  have hpassage : (store.set (place ++ [name]) (.file bytes .full)).checkPassage place = .ok () := by
    rw [checkPassage, entry?_set_of_ne store hplace, ← checkPassage, hp]
  have hlast : (store.set (place ++ [name]) (.file bytes .full)).follow place [name] =
      .ok (place ++ [name]) := by
    rw [isDots, Bool.or_eq_false_iff] at hdots
    have hdot : name ≠ "." := by simpa using hdots.1
    have hdotdot : name ≠ ".." := by simpa using hdots.2
    rw [follow, hpassage]
    simp only [if_neg hdot, if_neg hdotdot, hlong, Bool.false_eq_true, if_false,
      entry?_set_self store hne, follow]
  have hfollow : (store.set (place ++ [name]) (.file bytes .full)).follow
      (start workingPlace location) (Location.names location) = .ok (place ++ [name]) := by
    rw [hnames, follow_append, follow_set hne hfile bytes .full hf]
    exact hlast
  simp only [readBytes, resolve, hc, hfollow, entry?_set_self store hne, hslash,
    Bool.false_eq_true, if_false]

/-- The bytes of a file that was written are read back. -/
theorem readBytes_writeFile {store after : Store} {workingPlace : List String} {location : String}
    {bytes : List UInt8} (h : store.writeFile workingPlace location bytes = (after, none)) :
    after.readBytes workingPlace location = .ok bytes := by
  simp only [writeFile] at h
  split at h
  · cases h
  · next ready _ =>
    cases hm : ready.makeFile workingPlace location bytes with
    | error e => simp [hm] at h
    | ok made =>
      simp only [hm, Prod.mk.injEq, and_true] at h
      subst h
      exact readBytes_makeFile hm

end PathCensus.Store
