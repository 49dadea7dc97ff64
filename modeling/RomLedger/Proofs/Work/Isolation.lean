import RomLedger.Proofs.Work.Exact

/-!
When one file costs another its place in the index. A file that does not parse costs nothing to others. A file
with a size that the tables cannot hold is completed like any other and spoils the batch that it is in:
exactly if there is such a file, and its digest is new, some completed file is not in the index.
-/
namespace RomLedger.Refresh

open Crew

variable {σ : Type} {d : Disk σ} {root : Path} {o : Options} {i : Index} {s : State Worker Index Fault}

/-- What each file could expect whatever the others hold: a file that parses and whose sizes fit is
completed and indexed, and a file is completed only if it is indexed. -/
structure Isolated (d : Disk σ) (root : Path) (s : State Worker Index Fault) : Prop where
  indexed : ∀ p size c x, Accepted d root p size → Source.parseFile d p = .ok (c, x) → c.Storable →
    .completed p size ∈ s.events ∧ s.shared.isOrphaned x = some false
  committed : ∀ p size c x, .completed p size ∈ s.events → Source.parseFile d p = .ok (c, x) →
    s.shared.isOrphaned x = some false

def HasRoom (d : Disk σ) (i : Index) (p : Path) : Prop :=
  ∀ c x, Source.parseFile d p = .ok (c, x) → i.knows x = true ∨ c.Storable

def CatalogsApart (d : Disk σ) (root : Path) : Prop :=
  ∀ p q n m c c' x, Accepted d root p n → Accepted d root q m → Source.parseFile d p = .ok (c, x) →
    Source.parseFile d q = .ok (c', x) → c = c'

theorem fits_iff_hasRoom {f : Path × UInt64} :
    (∀ w, writeOf? (Source.parseFile d) f = some w → w.Fits i.orphanAll) ↔ HasRoom d i f.1 := by
  simp only [writeOf?_eq_some_iff, HasRoom]
  constructor
  · intro fit c x parsed
    have := fit _ ⟨c, x, parsed, rfl⟩
    rwa [Write.Fits, Index.knows_orphanAll] at this
  · rintro room _ ⟨c, x, parsed, rfl⟩
    rw [Write.Fits, Index.knows_orphanAll]
    exact room c x parsed

theorem completed_of_room (finished : Finished d root o i s) (calm : s.counts.cancelled = false)
    (room : ∀ f ∈ s.completions, HasRoom d i f.1) {p : Path} {size : UInt64} {c : Catalog} {x : Bytes}
    (accepted : Accepted d root p size) (parsed : Source.parseFile d p = .ok (c, x)) :
    .completed p size ∈ s.events := by
  obtain ⟨_, _, _, unparsed⟩ :=
    finished.settled_of_fit fun f completed => fits_iff_hasRoom.mpr (room f completed)
  obtain ⟨failed, reported, all⟩ := finished.tried calm
  rcases List.mem_append.mp ((all p size).mpr accepted) with completed | lost
  · exact mem_completions_iff.mp completed
  · obtain ⟨r, refused⟩ := unparsed p (reported ▸ List.mem_map_of_mem lost)
    simp [parsed] at refused

theorem committed_of_room (finished : Finished d root o i s)
    (room : ∀ f ∈ s.completions, HasRoom d i f.1) {p : Path} {size : UInt64} {c : Catalog} {x : Bytes}
    (completed : .completed p size ∈ s.events) (parsed : Source.parseFile d p = .ok (c, x)) :
    s.shared.isOrphaned x = some false := by
  obtain ⟨committed, applied, perm, _⟩ :=
    finished.settled_of_fit fun f completed => fits_iff_hasRoom.mpr (room f completed)
  have written : x ∈ committed.filterMap Write.digest? :=
    digest_mem_iff.mpr ⟨c, perm.mem_iff.mp (catalog_mem_iff.mpr ⟨p, size, completed, parsed⟩)⟩
  rw [isOrphaned_of_applied applied, if_pos written]

theorem agree_of_apart (finished : Finished d root o i s) (apart : CatalogsApart d root)
    {committed lost : List Write}
    (perm : (s.completions.filterMap (writeOf? (Source.parseFile d))).Perm (committed ++ lost)) :
    Write.Agree committed := by
  intro c₁ c₂ y first second
  obtain ⟨q₁, n₁, completed₁, parsed₁⟩ :=
    catalog_mem_iff.mp (perm.mem_iff.mpr (List.mem_append_left lost first))
  obtain ⟨q₂, n₂, completed₂, parsed₂⟩ :=
    catalog_mem_iff.mp (perm.mem_iff.mpr (List.mem_append_left lost second))
  exact apart q₁ q₂ n₁ n₂ c₁ c₂ y (finished.completed_accepted (mem_completions_iff.mpr completed₁))
    (finished.completed_accepted (mem_completions_iff.mpr completed₂)) parsed₁ parsed₂

theorem not_committed_of_no_room (finished : Finished d root o i s) (apart : CatalogsApart d root)
    {p : Path} {size : UInt64} {c : Catalog} {x : Bytes} (completed : .completed p size ∈ s.events)
    (parsed : Source.parseFile d p = .ok (c, x)) (unknown : i.knows x = false) (oversized : ¬c.Storable) :
    s.shared.isOrphaned x ≠ some false := by
  obtain ⟨committed, lost, applied, perm, _, _⟩ := finished.settled
  have agree : Write.Agree committed := agree_of_apart finished apart perm
  rw [isOrphaned_of_applied applied, unknown]
  split
  · rename_i written
    obtain ⟨c', member⟩ := digest_mem_iff.mp written
    obtain ⟨q, m, completed', parsed'⟩ :=
      catalog_mem_iff.mp (perm.mem_iff.mpr (List.mem_append_left lost member))
    have same : c' = c := apart q p m size c' c x
      (finished.completed_accepted (mem_completions_iff.mpr completed'))
      (finished.completed_accepted (mem_completions_iff.mpr completed)) parsed' parsed
    have fits := Batch.fits_of_applyAll agree applied _ member
    rw [Write.Fits, Index.knows_orphanAll, unknown, same] at fits
    exact absurd (fits.resolve_left Bool.false_ne_true) oversized
  · simp

/-- Files of a tree are isolated from each other exactly if the index has room for each of them. -/
theorem isolated_iff_room (finished : Finished d root o i s) (calm : s.counts.cancelled = false) :
    ((∀ p size, Accepted d root p size → HasRoom d i p) → Isolated d root s) ∧
    (CatalogsApart d root → Isolated d root s → ∀ p size, Accepted d root p size → HasRoom d i p) ∧
    s.counts.processed = UInt64.ofNat s.completions.length := by
  refine ⟨fun room => ?_, fun apart isolated => ?_, finished.counted.processed⟩
  · have all : ∀ f ∈ s.completions, HasRoom d i f.1 :=
      fun f completed => room f.1 f.2 (finished.completed_accepted completed)
    constructor
    · intro p size c x accepted parsed _
      have completed := completed_of_room finished calm all accepted parsed
      exact ⟨completed, committed_of_room finished all completed parsed⟩
    · exact fun p size c x completed parsed => committed_of_room finished all completed parsed
  · have all : ∀ f ∈ s.completions, HasRoom d i f.1 := by
      rintro ⟨p, size⟩ completed c x parsed
      have reported := mem_completions_iff.mp completed
      refine Decidable.by_contra fun full => ?_
      simp only [not_or, Bool.not_eq_true] at full
      exact not_committed_of_no_room finished apart reported parsed full.1 full.2
        (isolated.committed p size c x reported parsed)
    intro p size accepted c x parsed
    have completed := completed_of_room finished calm all accepted parsed
    exact all (p, size) (mem_completions_iff.mpr completed) c x parsed

theorem isolated_two_files : Isolated twoFiles (.ofString "t") twoFilesRun := by
  have calm : twoFilesRun.counts.cancelled = false := by
    rw [(result_ok_iff.mp result_twoFiles).2]
  refine (isolated_iff_room (finished_refresh refresh_twoFiles) calm).1 fun p size accepted => ?_
  have met := (Disk.mem_walk_iff rfl).mpr accepted.2
  rw [walk_twoFiles] at met
  have path : p ∈ [⟨"t", ["a.dat"]⟩, ⟨"t", ["b.DAT"]⟩] := by
    simp only [List.mem_cons, reduceCtorEq, Visit.file.injEq, List.not_mem_nil, or_false,
      false_or] at met ⊢
    exact met.imp And.left And.left
  have small : ∀ q ∈ [⟨"t", ["a.dat"]⟩, ⟨"t", ["b.DAT"]⟩],
      (Source.parseFile twoFiles q).toOption.all (fun f => f.1.Storable) = true := by
    decide +kernel
  intro c x parsed
  have fits : (Source.parseFile twoFiles p).toOption.all (fun f => f.1.Storable) = true :=
    small p path
  exact .inr (by simpa [parsed, Except.toOption] using fits)

def oversized : Disk Unit where
  entries := [(["t"], .dir), (["t", "a.dat"], .file []),
    (["t", "b.dat"], .file (Bytes.ofString "game(rom(size 9223372036854775808))"))]
  ahead := []
  here := []

def oversizedRun : State Worker Index Fault :=
  (crew (Source.parseFile oversized) 10485760).work (.ofString "t") 1
    [.directory ⟨"t", []⟩, .file ⟨"t", ["a.dat"]⟩ 0, .file ⟨"t", ["b.dat"]⟩ 35] false
    Index.empty.orphanAll

theorem refresh_oversized :
    refresh oversized (.ofString "t") ⟨1, 10485760⟩ false .empty = .ok oversizedRun := by
  have opens : oversized.open? (.ofString "t") = .ok (["t"], .dir) := rfl
  have files : oversized.children ["t"]
      = [("a.dat", []), ("b.dat", Bytes.ofString "game(rom(size 9223372036854775808))")].map
          fun f => (f.1, .file f.2) :=
    List.mergeSort_of_pairwise (by decide +kernel)
  have visits : oversized.walk (.ofString "t")
      = [.directory ⟨"t", []⟩, .file ⟨"t", ["a.dat"]⟩ 0, .file ⟨"t", ["b.dat"]⟩ 35] :=
    Disk.walk_flat opens files
  simp only [refresh, Disk.isDirectory, opens, visits, ↓reduceIte]
  rfl

theorem not_isolated_oversized :
    Finished oversized (.ofString "t") ⟨1, 10485760⟩ .empty oversizedRun ∧
      oversizedRun.counts.cancelled = false ∧
      .completed ⟨"t", ["a.dat"]⟩ 0 ∈ oversizedRun.events ∧
      (∃ c x, Source.parseFile oversized ⟨"t", ["a.dat"]⟩ = .ok (c, x) ∧ c.Storable ∧
        oversizedRun.shared.isOrphaned x = none) ∧
      ¬Isolated oversized (.ofString "t") oversizedRun := by
  obtain ⟨calm, completed, nothing, held⟩ : oversizedRun.counts.cancelled = false ∧
      .completed ⟨"t", ["a.dat"]⟩ 0 ∈ oversizedRun.events ∧ oversizedRun.shared.catalogs = [] ∧
      (Source.parseFile oversized ⟨"t", ["a.dat"]⟩).toOption.any (fun f => f.1.Storable) = true := by
    decide +kernel
  cases parsed : Source.parseFile oversized ⟨"t", ["a.dat"]⟩ with
  | error r => simp [parsed, Except.toOption] at held
  | ok found =>
    obtain ⟨c, x⟩ := found
    have fits : c.Storable := by simpa [parsed, Except.toOption] using held
    have absent : oversizedRun.shared.isOrphaned x = none := by
      simp [Index.isOrphaned, Index.row?, nothing]
    refine ⟨finished_refresh refresh_oversized, calm, completed, ⟨c, x, rfl, fits, absent⟩,
      fun isolated => ?_⟩
    have := isolated.committed _ _ c x completed parsed
    simp [absent] at this

end RomLedger.Refresh
