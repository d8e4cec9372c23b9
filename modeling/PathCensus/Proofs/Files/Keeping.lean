import PathCensus.Proofs.Files.Writing

/-!
# Writing that is given up

Before a file is written the directories above it are made, and these stay if the file cannot be
written. So an attempt that is given up has changed nothing that was there, and has made directories
at most. Whether it is given up depends on the location and not on the bytes.
-/

namespace PathCensus.Store

/-- Everything stays as it is, and what is new is a directory. -/
def GainsDirectories (before after : Store) : Prop :=
  ∀ place, after.entry? place = before.entry? place ∨
    before.entry? place = none ∧ after.entry? place = some (.directory .full)

namespace GainsDirectories

variable {before between after : Store}

theorem refl (store : Store) : store.GainsDirectories store :=
  fun _ => .inl rfl

theorem trans (hfirst : before.GainsDirectories between) (hsecond : between.GainsDirectories after) :
    before.GainsDirectories after := by
  intro place
  rcases hsecond place with hs | ⟨hnone, hs⟩
  · rw [hs]
    exact hfirst place
  · rcases hfirst place with hf | ⟨-, hf⟩
    · exact .inr ⟨hf ▸ hnone, hs⟩
    · rw [hf] at hnone
      cases hnone

/-- What was there is there. -/
theorem entry?_eq (h : before.GainsDirectories after) {place : List String} {entry : StoreEntry}
    (he : before.entry? place = some entry) : after.entry? place = some entry := by
  rcases h place with hs | ⟨hnone, -⟩
  · rw [hs, he]
  · rw [he] at hnone
    cases hnone

/-- There are the same files as before. -/
theorem file_iff (h : before.GainsDirectories after) {place : List String} {bytes : List UInt8}
    {access : Access} :
    after.entry? place = some (.file bytes access) ↔
      before.entry? place = some (.file bytes access) := by
  constructor
  · intro hafter
    rcases h place with hs | ⟨-, hs⟩
    · rw [← hs, hafter]
    · rw [hafter] at hs
      cases hs
  · exact h.entry?_eq

/-- A file that could be read is read as before. -/
theorem readBytes_eq (h : before.GainsDirectories after) {workingPlace : List String}
    {location : String} {bytes : List UInt8}
    (hread : before.readBytes workingPlace location = .ok bytes) :
    after.readBytes workingPlace location = .ok bytes := by
  have hsome : ∀ place, (before.entry? place).isSome → (after.entry? place).isSome := by
    intro place hs
    obtain ⟨entry, he⟩ := Option.isSome_iff_exists.1 hs
    exact Option.isSome_of_eq_some (h.entry?_eq he)
  simp only [readBytes, resolve] at hread ⊢
  cases hc : checkLocation location with
  | error e => simp [hc] at hread
  | ok _ =>
    cases hf : before.follow (start workingPlace location) (Location.names location) with
    | error e => simp [hc, hf] at hread
    | ok place =>
      have hfollow := follow_mono (fun _ _ => h.entry?_eq) hsome hf
      cases he : before.entry? place with
      | none => simp [hc, hf, he] at hread
      | some entry =>
        simp only [hc, hf, he] at hread
        simp only [hfollow, h.entry?_eq he]
        exact hread

end GainsDirectories

/-! ## Attempts -/

/-- A directory is made where nothing was. -/
theorem makeDirectory_eq_ok {store made : Store} {workingPlace : List String} {location : String}
    (h : store.makeDirectory workingPlace location = .ok made) :
    ∃ place, place ≠ [] ∧ store.entry? place = none ∧ made = store.set place (.directory .full) := by
  rw [makeDirectory] at h
  split at h
  · cases h
  · cases h
  · next place name _ =>
    by_cases hthere : (isDots name || (store.entry? (place ++ [name])).isSome) = true
    · rw [if_pos hthere] at h
      cases h
    · by_cases hlong : isTooLong name = true
      · rw [if_neg hthere, if_pos hlong] at h
        cases h
      · rw [if_neg hthere, if_neg hlong] at h
        rw [Bool.not_eq_true, Bool.or_eq_false_iff] at hthere
        split at h
        · exact ⟨place ++ [name], by simp, by simpa using hthere.2, (Except.ok.inj h).symm⟩
        · cases h

theorem gainsDirectories_ensureDirectory (store : Store) (workingPlace : List String)
    (location : String) :
    store.GainsDirectories (store.ensureDirectory workingPlace location).1 := by
  rw [ensureDirectory]
  split
  · next made hmade =>
    obtain ⟨new, hne, hnone, rfl⟩ := makeDirectory_eq_ok hmade
    intro place
    by_cases hplace : place = new
    · subst hplace
      exact .inr ⟨hnone, entry?_set_self store hne (.directory .full)⟩
    · exact .inl (entry?_set_of_ne store hplace (.directory .full))
  · split
    · exact .refl store
    · exact .refl store

theorem gainsDirectories_makeDirectories (store : Store) (workingPlace : List String) (bound : Nat)
    (location : String) :
    store.GainsDirectories (store.makeDirectories workingPlace bound location).1 := by
  induction bound generalizing store location with
  | zero => exact .refl store
  | succ bound ih =>
    have hfirst := gainsDirectories_ensureDirectory store workingPlace location
    rw [makeDirectories]
    split
    · exact .refl store
    split
    · next ready hready =>
      rw [hready] at hfirst
      split
      · exact hfirst
      · next above _ =>
        have habove := hfirst.trans (ih ready above)
        split
        · next stopped _ hstopped =>
          rw [hstopped] at habove
          exact habove
        · next cleared hopen =>
          rw [hopen] at habove
          exact habove.trans (gainsDirectories_ensureDirectory cleared workingPlace location)
    · exact hfirst

/-- A file that cannot be written leaves directories at most. -/
theorem gainsDirectories_writeFile {store after : Store} {workingPlace : List String}
    {location : String} {bytes : List UInt8} {e : OsError}
    (h : store.writeFile workingPlace location bytes = (after, some e)) :
    store.GainsDirectories after := by
  rw [writeFile] at h
  cases hparent : Location.parent? location with
  | none =>
    simp only [hparent] at h
    cases hmake : store.makeFile workingPlace location bytes with
    | error refusal =>
      simp only [hmake] at h
      obtain ⟨rfl, -⟩ := Prod.mk.inj h
      exact .refl store
    | ok made => simp [hmake] at h
  | some above =>
    have hmade := gainsDirectories_makeDirectories store workingPlace (location.length + 1) above
    rcases hattempt : store.makeDirectories workingPlace (location.length + 1) above with
      ⟨ready, _ | refusal⟩
    · rw [hattempt] at hmade
      simp only [hparent, hattempt] at h
      cases hmake : ready.makeFile workingPlace location bytes with
      | error refusal =>
        simp only [hmake] at h
        obtain ⟨rfl, -⟩ := Prod.mk.inj h
        exact hmade
      | ok made => simp [hmake] at h
    · rw [hattempt] at hmade
      simp only [hparent, hattempt] at h
      obtain ⟨rfl, -⟩ := Prod.mk.inj h
      exact hmade

/-- Whether a file can be made does not depend on its bytes. -/
theorem makeFile_eq_error_iff {store : Store} {workingPlace : List String} {location : String}
    {e : OsError} (bytes other : List UInt8) :
    store.makeFile workingPlace location bytes = .error e ↔
      store.makeFile workingPlace location other = .error e := by
  unfold makeFile
  split
  · rfl
  · rfl
  · split
    · rfl
    · split
      · rfl
      · split
        · rfl
        · split <;> simp only [reduceCtorEq]
        · split <;> simp only [reduceCtorEq]

/-- Whether a file can be written does not depend on its bytes. -/
theorem refusal_writeFile (store : Store) (workingPlace : List String) (location : String)
    (bytes other : List UInt8) :
    (store.writeFile workingPlace location bytes).2 =
      (store.writeFile workingPlace location other).2 := by
  rw [writeFile, writeFile]
  split
  · rfl
  · next ready _ =>
    cases hfirst : ready.makeFile workingPlace location bytes with
    | error e => rw [(makeFile_eq_error_iff bytes other).1 hfirst]
    | ok made =>
      cases hsecond : ready.makeFile workingPlace location other with
      | error e =>
        rw [(makeFile_eq_error_iff bytes other).2 hsecond] at hfirst
        cases hfirst
      | ok again => rfl

end PathCensus.Store
