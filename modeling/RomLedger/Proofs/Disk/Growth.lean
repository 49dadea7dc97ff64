import RomLedger.Proofs.Disk.Place

/- Making directories and new files only adds to a disk: whatever there was is still there, and every path to
   a directory leads where it led. -/
namespace RomLedger.Disk

variable {σ : Type} {d d' d₁ d₂ d₃ : Disk σ} {files more : List Place} {p : Path}

/-- A disk with more on it: directories, and files at some places. -/
structure Grows (d d' : Disk σ) (files : List Place) : Prop where
  start : d'.here = d.here
  keeps : ∀ p e, d.get? p = some e → d'.get? p = some e
  adds : ∀ p, d.get? p = none → d'.get? p = none ∨ d'.get? p = some .dir ∨ p ∈ files

theorem Grows.refl (d : Disk σ) : d.Grows d [] := ⟨rfl, fun _ _ => id, fun _ => .inl⟩

theorem Grows.trans (first : d₁.Grows d₂ files) (second : d₂.Grows d₃ more) :
    d₁.Grows d₃ (files ++ more) where
  start := second.start.trans first.start
  keeps p e found := second.keeps p e (first.keeps p e found)
  adds p absent := by
    rcases first.adds p absent with none | dir | new
    · exact (second.adds p none).imp_right (.imp_right (List.mem_append_right files))
    · exact .inr (.inl (second.keeps p .dir dir))
    · exact .inr (.inr (List.mem_append_left more new))

theorem Grows.leads (grows : d.Grows d' files) {place : Place} (leads : d.Leads p place) :
    d'.Leads p place := by
  refine leads.frame grows.start fun q live => ?_
  cases found : d.get? q with
  | none =>
    rw [found] at live
    exact absurd trivial live
  | some e => exact grows.keeps q e found

theorem Grows.dead (grows : d.Grows d' files) {q : Place} (dead : Dead (d'.get? q)) : Dead (d.get? q) := by
  cases found : d.get? q with
  | none => trivial
  | some e => rwa [grows.keeps q e found] at dead

theorem inner_of_absent {q : Place} (absent : d.get? q = none) : q ≠ [] := by
  rintro rfl
  cases absent

theorem grows_set {q : Place} {e : Entry σ} (absent : d.get? q = none) : d.Grows (d.set q e) [q] where
  start := rfl
  keeps p f found := by
    have apart : p ≠ q := by
      rintro rfl
      rw [absent] at found
      cases found
    rw [get?_set d (inner_of_absent absent), if_neg apart, found]
  adds p none := by
    rw [get?_set d (inner_of_absent absent)]
    split
    · rename_i same
      exact .inr (.inr (List.mem_singleton.mpr same))
    · exact .inl none

theorem grows_makeDirectory (made : d.makeDirectory p = .ok d') : d.Grows d' [] := by
  unfold makeDirectory at made
  split at made
  · cases made
  · rename_i q located
    split at made
    · cases made
    · rename_i absent
      cases made
      have grows := grows_set (e := .dir) absent
      refine ⟨grows.start, grows.keeps, fun p none => ?_⟩
      rcases grows.adds p none with still | dir | new
      · exact .inl still
      · exact .inr (.inl dir)
      · rw [List.mem_singleton.mp new]
        exact .inr (.inl (by simp [get?_set d (inner_of_absent absent)]))

theorem grows_ensureDirectory (made : d.ensureDirectory p = .ok d') : d.Grows d' [] := by
  unfold ensureDirectory at made
  split at made
  · rename_i d'' done
    cases made
    exact grows_makeDirectory done
  · split at made
    · cases made
      exact .refl d
    · cases made

theorem grows_ensureDirectories {ps : List Path} (made : ps.foldlM ensureDirectory d = .ok d') :
    d.Grows d' [] := by
  induction ps generalizing d with
  | nil =>
    cases made
    exact .refl _
  | cons p rest ih =>
    cases first : d.ensureDirectory p with
    | error f =>
      rw [List.foldlM_cons, first] at made
      cases made
    | ok d'' =>
      rw [List.foldlM_cons, first] at made
      exact (grows_ensureDirectory first).trans (ih made)

theorem grows_makeDirectories (made : d.makeDirectories p = .ok d') : d.Grows d' [] := by
  unfold makeDirectories at made
  split at made
  · cases made
    exact .refl d
  · split at made
    · exact grows_ensureDirectories made
    · exact grows_ensureDirectory made

theorem grows_outcome (d : Disk σ) : d.Grows d.outcome.2 [] := by
  unfold outcome
  split
  · exact .refl d
  · exact ⟨rfl, fun _ _ => id, fun _ => .inl⟩

theorem grows_write {content : Bytes} (absent : d.fileExists p = false)
    (written : d.write p content = (.ok (), d')) :
    ∃ q, d.locate true p = .ok q ∧ d.Grows d' [q] ∧ d'.get? q = some (.file content) := by
  unfold fileExists open? at absent
  unfold write at written
  cases located : d.locate true p with
  | error f =>
    rw [located] at written
    cases written
  | ok q =>
    have none : d.get? q = none := by
      cases found : d.get? q with
      | none => rfl
      | some e => simp [located, found, Except.toOption] at absent
    have step := grows_outcome d
    have still : d.outcome.2.get? q = Option.none := by
      unfold outcome
      split <;> exact none
    refine ⟨q, rfl, ?_⟩
    rcases next : d.outcome with ⟨_ | _ | _ | n, d''⟩ <;> rw [next] at step still <;>
      simp only [located, none, next, Prod.mk.injEq, reduceCtorEq, false_and, true_and] at written
    rw [← written]
    exact ⟨step.trans (grows_set still), by rw [get?_set d'' (inner_of_absent still), if_pos rfl]⟩

end RomLedger.Disk
