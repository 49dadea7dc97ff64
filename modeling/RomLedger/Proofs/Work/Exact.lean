import RomLedger.Proofs.Bytes.Collision
import RomLedger.Proofs.Clr.Idle
import RomLedger.Proofs.Work.Finished

/-!
A refresh without a fault is exact. Its index has as current catalogs those of the completed files and no
others, each under the digest of its file; what was known before and did not come again is orphaned, and
catalogs that were known are the ones they were.
-/
namespace RomLedger.Refresh

open Crew

variable {σ : Type} {d : Disk σ} {root : Path} {o : Options} {i : Index} {s : State Worker Index Fault}

/-- Whether a digest is that of a file reported as completed. -/
def Restored (d : Disk σ) (s : State Worker Index Fault) (x : Bytes) : Prop :=
  ∃ p size b, .completed p size ∈ s.events ∧ d.read p = .ok b ∧ x = Sha1.digest b

/-- Whether another completed file, with other bytes, has the digest of a file. -/
def Collides (d : Disk σ) (s : State Worker Index Fault) (p : Path) : Prop :=
  ∃ q size b b', .completed q size ∈ s.events ∧ d.read p = .ok b ∧ d.read q = .ok b' ∧ b ≠ b' ∧
    Sha1.digest b = Sha1.digest b'

theorem catalog_mem_iff {c : Catalog} {x : Bytes} :
    .catalog c x ∈ s.completions.filterMap (writeOf? (Source.parseFile d)) ↔
      ∃ p size, .completed p size ∈ s.events ∧ Source.parseFile d p = .ok (c, x) := by
  simp only [List.mem_filterMap, writeOf?_eq_some_iff, Write.catalog.injEq]
  constructor
  · rintro ⟨⟨p, size⟩, completed, c', x', parsed, rfl, rfl⟩
    exact ⟨p, size, mem_completions_iff.mp completed, parsed⟩
  · rintro ⟨p, size, completed, parsed⟩
    exact ⟨(p, size), mem_completions_iff.mpr completed, c, x, parsed, rfl, rfl⟩

theorem digest_mem_iff {ws : List Write} {x : Bytes} :
    x ∈ ws.filterMap Write.digest? ↔ ∃ c, .catalog c x ∈ ws := by
  rw [List.mem_filterMap]
  constructor
  · rintro ⟨w, member, written⟩
    cases w with
    | catalog c y =>
      cases written
      exact ⟨c, member⟩
    | content r => cases written
  · rintro ⟨c, member⟩
    exact ⟨_, member, rfl⟩

theorem findSome?_catalogFor? {ws : List Write} {c : Catalog} {x : Bytes} (member : .catalog c x ∈ ws) :
    ∃ c', ws.findSome? (Write.catalogFor? x) = some c' ∧ .catalog c' x ∈ ws := by
  have found : (ws.findSome? (Write.catalogFor? x)).isSome = true :=
    List.findSome?_isSome_iff.mpr ⟨_, member, by simp [Write.catalogFor?]⟩
  obtain ⟨c', first⟩ := Option.isSome_iff_exists.mp found
  obtain ⟨w, inside, written⟩ := List.exists_of_findSome?_eq_some first
  refine ⟨c', first, ?_⟩
  cases w with
  | catalog c'' y =>
    simp only [Write.catalogFor?, Option.ite_none_right_eq_some, Option.some.injEq] at written
    obtain ⟨rfl, rfl⟩ := written
    exact inside
  | content r => cases written

theorem isOrphaned_of_applied {committed : List Write}
    (applied : Batch.applyAll i.orphanAll committed = .ok s.shared) (x : Bytes) :
    s.shared.isOrphaned x = if x ∈ committed.filterMap Write.digest? then some false
      else if i.knows x then some true else none := by
  rw [Batch.isOrphaned_applyAll applied, Index.isOrphaned_orphanAll]

theorem restored_iff {committed : List Write}
    (perm : (s.completions.filterMap (writeOf? (Source.parseFile d))).Perm committed)
    (parsed : ∀ f ∈ s.completions, ∃ c x, Source.parseFile d f.1 = .ok (c, x)) (x : Bytes) :
    x ∈ committed.filterMap Write.digest? ↔ Restored d s x := by
  simp only [digest_mem_iff, ← perm.mem_iff, catalog_mem_iff]
  constructor
  · rintro ⟨c, p, size, completed, held⟩
    obtain ⟨b, bytes, digest, _⟩ := Source.parseFile_ok held
    exact ⟨p, size, b, completed, bytes, digest⟩
  · rintro ⟨p, size, b, completed, bytes, rfl⟩
    obtain ⟨c, x, held⟩ := parsed (p, size) (mem_completions_iff.mpr completed)
    obtain ⟨b', bytes', rfl, _⟩ := Source.parseFile_ok held
    rw [bytes] at bytes'
    cases bytes'
    exact ⟨c, p, size, completed, held⟩

theorem refresh_exact {counts : Counts} (sound : i.Consistent) (finished : Finished d root o i s)
    (good : s.result = .ok counts) :
    (∀ x, s.shared.isOrphaned x = some false ↔ Restored d s x) ∧
    (∀ x, s.shared.isOrphaned x = some true ↔ i.knows x = true ∧ ¬Restored d s x) ∧
    (∀ x, s.shared.isOrphaned x = none ↔ i.knows x = false ∧ ¬Restored d s x) ∧
    (counts.cancelled = false →
      ∀ p size, .completed p size ∈ s.events ↔ Accepted d root p size) ∧
    (∀ x, i.knows x = true → s.shared.get? x = i.get? x) ∧
    (∀ p size, .completed p size ∈ s.events → ∃ c x, Source.parseFile d p = .ok (c, x) ∧
      (i.knows x = false → (¬Collides d s p → s.shared.get? x = some c) ∧
        ∃ q size' c', .completed q size' ∈ s.events ∧ Source.parseFile d q = .ok (c', x) ∧
          s.shared.get? x = some c')) := by
  obtain ⟨unfaulted, rfl⟩ := result_ok_iff.mp good
  obtain ⟨committed, lost, applied, perm, parsed, calm⟩ := finished.settled
  obtain ⟨rfl, unfailed⟩ := calm unfaulted
  rw [List.append_nil] at perm
  have marks (x : Bytes) : (s.shared.isOrphaned x = some false ↔ Restored d s x) ∧
      (s.shared.isOrphaned x = some true ↔ i.knows x = true ∧ ¬Restored d s x) ∧
      (s.shared.isOrphaned x = none ↔ i.knows x = false ∧ ¬Restored d s x) := by
    rw [← restored_iff perm parsed, isOrphaned_of_applied applied]
    by_cases written : x ∈ committed.filterMap Write.digest? <;> cases i.knows x <;>
      simp only [written, ↓reduceIte, Bool.false_eq_true] <;> simp
  have catalogs (x : Bytes) := Batch.get?_applyAll (Index.consistent_orphanAll sound) applied x
  refine ⟨fun x => (marks x).1, fun x => (marks x).2.1, fun x => (marks x).2.2, fun whole p size => ?_,
    fun x known => ?_, fun p size completed => ?_⟩
  · obtain ⟨failed, reported, all⟩ := finished.tried whole
    rw [unfailed, List.map_eq_nil_iff] at reported
    rw [← all p size, reported, List.append_nil, mem_completions_iff]
  · rw [catalogs, Index.get?_orphanAll]
    exact Option.or_of_isSome (by rwa [Index.get?_isSome])
  · obtain ⟨c, x, held⟩ := parsed (p, size) (mem_completions_iff.mpr completed)
    refine ⟨c, x, held, fun unknown => ?_⟩
    have written : .catalog c x ∈ committed :=
      perm.mem_iff.mp (catalog_mem_iff.mpr ⟨p, size, completed, held⟩)
    -- of several files with one digest the first to be committed gives the catalog
    obtain ⟨c', first, member⟩ := findSome?_catalogFor? written
    obtain ⟨q, size', completed', held'⟩ := catalog_mem_iff.mp (perm.mem_iff.mpr member)
    have absent : i.get? x = none := by
      rw [← Option.isNone_iff_eq_none, ← Option.isSome_eq_false_iff, Index.get?_isSome, unknown]
    have stored : s.shared.get? x = some c' := by
      rw [catalogs, Index.get?_orphanAll, absent, Option.none_or, first]
    refine ⟨fun alone => ?_, q, size', c', completed', held', stored⟩
    obtain ⟨b, bytes, digest, _⟩ := Source.parseFile_ok held
    obtain ⟨b', bytes', digest', _⟩ := Source.parseFile_ok held'
    have same : b = b' := by
      by_contra other
      exact alone ⟨q, size', b, b', completed', bytes, bytes', other, digest.symm.trans digest'⟩
    subst same
    rw [stored, Source.parseFile_same bytes' bytes held' held]

def twoFiles : Disk Unit where
  entries := [(["t"], .dir), (["t", "a.dat"], .file []),
    (["t", "b.DAT"], .file (Bytes.ofString "game(name x)"))]
  ahead := []
  here := []

def twoFilesRun : State Worker Index Fault :=
  (crew (Source.parseFile twoFiles) 0).work (.ofString "t") 2
    [.directory ⟨"t", []⟩, .file ⟨"t", ["a.dat"]⟩ 0, .file ⟨"t", ["b.DAT"]⟩ 12] false
    Index.empty.orphanAll

theorem walk_twoFiles : twoFiles.walk (.ofString "t")
    = [.directory ⟨"t", []⟩, .file ⟨"t", ["a.dat"]⟩ 0, .file ⟨"t", ["b.DAT"]⟩ 12] := by
  have opens : twoFiles.open? (.ofString "t") = .ok (["t"], .dir) := rfl
  have files : twoFiles.children ["t"]
      = [("a.dat", []), ("b.DAT", Bytes.ofString "game(name x)")].map fun f => (f.1, .file f.2) :=
    List.mergeSort_of_pairwise (by decide +kernel)
  exact Disk.walk_flat opens files

theorem refresh_twoFiles :
    refresh twoFiles (.ofString "t") ⟨2, 0⟩ false .empty = .ok twoFilesRun := by
  have directory : twoFiles.isDirectory (.ofString "t") = true := rfl
  simp only [refresh, directory, walk_twoFiles, ↓reduceIte]
  rfl

theorem result_twoFiles : twoFilesRun.result = .ok ⟨2, 2, 0, 12, false⟩ :=
  result_ok_iff.mpr (by decide +kernel)

theorem refresh_exact_two_files :
    twoFilesRun.result = .ok ⟨2, 2, 0, 12, false⟩ ∧
      (∀ x, twoFilesRun.shared.isOrphaned x = some false ↔ Restored twoFiles twoFilesRun x) ∧
      ∀ p size, .completed p size ∈ twoFilesRun.events ↔ Accepted twoFiles (.ofString "t") p size := by
  have exact_there :=
    refresh_exact Index.consistent_empty (finished_refresh refresh_twoFiles) result_twoFiles
  exact ⟨result_twoFiles, exact_there.1, exact_there.2.2.2.1 rfl⟩

theorem work_pair {parse : Path → Except Source.Refusal (Catalog × Bytes)} {limit : Nat} {p q : Path}
    {n m : UInt64} {c c' : Catalog} {x : Bytes} (root : Path) (sound : i.Consistent) (accepted : accepts p = true)
    (accepted' : accepts q = true) (first : parse p = .ok (c, x)) (second : parse q = .ok (c', x))
    (fits : c.Storable) (fits' : c'.Storable) (room : (Write.catalog c x).size < limit) :
    let s := (crew parse limit).work root 1 [.directory root, .file p n, .file q m] false i
    s.fault = none ∧ s.counts = ⟨2, 2, 0, n + m, false⟩ ∧ s.completions = [(p, n), (q, m)] ∧
      s.shared.get? x = (i.get? x).or (some c) := by
  obtain ⟨j, applied⟩ : ∃ j, Batch.applyAll i [.catalog c x, .catalog c' x] = .ok j :=
    Batch.applyAll_ok_of_fits (by simp [Write.Fits, fits, fits'])
  have catalog := Batch.get?_applyAll sound applied x
  have fresh : ¬limit = 0 := Nat.ne_zero_of_lt room
  have filled : ¬limit ≤ (Write.catalog c x).size := Nat.not_le.mpr room
  simp [Crew.work, start, moveBound, promptMoves, promptMove, run, step, visit, workerMove, take, crew, process,
    relieve, close, accepted, accepted', first, second, fresh, filled, applied, catalog, Write.catalogFor?,
    Batch.empty, Batch.addCatalog, Batch.add, Batch.flush, State.emit, State.record, State.post, State.isOver,
    State.capacity, State.completions, Event.completed?, List.filterMap_cons, queueDepth, Post.isVacant,
    Post.isOpen, Post.isGone, List.findIdx?_cons, conclude, Counts.zero, Counts.discover, Counts.complete]

theorem parseFile_of_text {d : Disk σ} {p : Path} {b x : Bytes} {c : Catalog} (bytes : d.read p = .ok b)
    (plain : Source.isMarkup b = false) (text : Clr.parse (.whole b) = .ok (c, x)) :
    Source.parseFile d p = .ok (c, x) := by
  simp [Source.parseFile, Source.parse, bytes, plain, text, Except.mapError]

def pairOf (b b' : Bytes) : Disk Unit where
  entries := [(["t"], .dir), (["t", "a.dat"], .file b), (["t", "b.dat"], .file b')]
  ahead := []
  here := []

theorem walk_pairOf (b b' : Bytes) : (pairOf b b').walk (.ofString "t") =
    [.directory (.ofString "t"), .file ⟨"t", ["a.dat"]⟩ (UInt64.ofNat b.length),
      .file ⟨"t", ["b.dat"]⟩ (UInt64.ofNat b'.length)] := by
  have opens : (pairOf b b').open? (.ofString "t") = .ok (["t"], .dir) := rfl
  have files : (pairOf b b').children ["t"] = [("a.dat", b), ("b.dat", b')].map fun f => (f.1, .file f.2) :=
    List.mergeSort_of_pairwise (by simp [pairOf])
  exact Disk.walk_flat opens files

/-- What stands behind the blocks of two messages with one digest. The first one leaves three unknown blocks
open, so that the game stands outside them, and the second one four. -/
def ending : Bytes := Bytes.ofString ")))game(name x))"

def gameCatalog : Catalog := ⟨"", "", [⟨"x", "", [], [], [], []⟩], []⟩

def commonDigest : Bytes := Sha1.digest (Sha1.one ++ ending)

def colliding : Disk Unit := pairOf (Sha1.one ++ ending) (Sha1.two ++ ending)

theorem lexes_ending : Clr.Lexer.Lexes ending [⟨.closeBrace, ")", 0⟩, ⟨.closeBrace, ")", 0⟩, ⟨.closeBrace, ")", 0⟩,
    ⟨.keyword .game, "game", 0⟩, ⟨.openBrace, "(", 0⟩, ⟨.keyword .name, "name", 0⟩, ⟨.bare, "x", 0⟩,
    ⟨.closeBrace, ")", 0⟩, ⟨.closeBrace, ")", 0⟩] :=
  ⟨[], Clr.Lexer.scans_of_take? (n := 9) (by decide +kernel), List.forall_mem_nil _⟩

theorem parse_one : Source.parseFile colliding ⟨"t", ["a.dat"]⟩ = .ok (gameCatalog, commonDigest) := by
  have normal : gameCatalog.normalize = gameCatalog := by decide +kernel
  rw [← normal]
  exact parseFile_of_text rfl (by decide +kernel)
    (Clr.parse_behind rfl rfl (by decide +kernel) (by decide +kernel : Clr.passed 0 none Sha1.one = some 3)
      lexes_ending (by decide +kernel) (by decide +kernel))

theorem parse_two : Source.parseFile colliding ⟨"t", ["b.dat"]⟩ = .ok (.blank, commonDigest) := by
  have normal : Catalog.blank.normalize = .blank := by decide +kernel
  rw [← normal, commonDigest, Sha1.collision.2]
  exact parseFile_of_text rfl (by decide +kernel)
    (Clr.parse_behind rfl rfl (by decide +kernel) (by decide +kernel : Clr.passed 0 none Sha1.two = some 4)
      lexes_ending (by decide +kernel) (by decide +kernel))

def collidingRun (visits : List Visit) : State Worker Index Fault :=
  (crew (Source.parseFile colliding) 10485760).work (.ofString "t") 1 visits false Index.empty.orphanAll

theorem room_for_colliding {c : Catalog} (small : (Write.catalog c []).size + 20 < 10485760) :
    (Write.catalog c commonDigest).size < 10485760 := by
  rw [Write.size, commonDigest, Sha1.length_digest]
  rw [Write.size, List.length_nil] at small
  omega

theorem collidingRun_first (n m : UInt64) :
    let s := collidingRun [.directory (.ofString "t"), .file ⟨"t", ["a.dat"]⟩ n, .file ⟨"t", ["b.dat"]⟩ m]
    s.fault = none ∧ s.counts.cancelled = false ∧ .completed ⟨"t", ["b.dat"]⟩ m ∈ s.events ∧
      s.shared.get? commonDigest = some gameCatalog := by
  obtain ⟨fault, counts, completions, stored⟩ := work_pair (n := n) (m := m) (.ofString "t")
    (Index.consistent_orphanAll Index.consistent_empty) (by decide +kernel) (by decide +kernel) parse_one
    parse_two (by decide +kernel) (by decide +kernel) (room_for_colliding (by decide +kernel))
  refine ⟨fault, congrArg Counts.cancelled counts, mem_completions_iff.mp ?_, stored⟩
  rw [collidingRun, completions]
  exact List.mem_cons_of_mem _ List.mem_cons_self

theorem other_catalog_stored : ∃ s counts,
    refresh colliding (.ofString "t") ⟨1, 10485760⟩ false .empty = .ok s ∧ s.result = .ok counts ∧
      counts.cancelled = false ∧
      ¬∀ p size, .completed p size ∈ s.events → ∃ c x, Source.parseFile colliding p = .ok (c, x) ∧
        (Index.empty.knows x = false → s.shared.get? x = some c) := by
  have refreshed : refresh colliding (.ofString "t") ⟨1, 10485760⟩ false .empty =
      .ok (collidingRun (colliding.walk (.ofString "t"))) :=
    if_pos rfl
  rw [colliding, walk_pairOf, ← colliding] at refreshed
  obtain ⟨fault, calm, completed, stored⟩ := collidingRun_first (UInt64.ofNat (Sha1.one ++ ending).length)
    (UInt64.ofNat (Sha1.two ++ ending).length)
  refine ⟨_, _, refreshed, result_ok_iff.mpr ⟨fault, rfl⟩, calm, fun exact_there => ?_⟩
  obtain ⟨c, x, parsed, found⟩ := exact_there _ _ completed
  cases parse_two.symm.trans parsed
  cases stored.symm.trans (found rfl)

end RomLedger.Refresh
