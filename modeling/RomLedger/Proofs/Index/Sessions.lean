import Mathlib
import RomLedger.Proofs.Index.Committing

/-!
The index, seen as what its answers depend on: the catalogs with their digests and orphan marks in the order
in which they came, and the set of contents. A session keeps an index and any number of batches; whatever is
done, the tables answer as this shelf does, on which only what was flushed is put, in the order of the
flushes.
-/
namespace RomLedger

structure Volume where
  digest : Bytes
  catalog : Catalog
  orphaned : Bool

def Volume.restore (digest : Bytes) (v : Volume) : Volume :=
  if v.digest = digest then { v with orphaned := false } else v

/-- The catalogs by their digests, each of which occurs once, and the contents that are known. -/
structure Shelf where
  volumes : List Volume
  contents : Finset Bytes

namespace Shelf

def empty : Shelf := ⟨[], ∅⟩

def find? (s : Shelf) (digest : Bytes) : Option Volume := s.volumes.find? fun v => v.digest = digest

def get? (s : Shelf) (digest : Bytes) : Option Catalog := (s.find? digest).map Volume.catalog

def isOrphaned (s : Shelf) (digest : Bytes) : Option Bool := (s.find? digest).map Volume.orphaned

def stats (s : Shelf) : Index.Stats where
  catalogs := s.volumes.length
  orphaned := s.volumes.countP Volume.orphaned
  games := (s.volumes.map fun v => v.catalog.games.length + v.catalog.software.length).sum
  roms := (s.volumes.map fun v => v.catalog.romCount).sum
  contents := s.contents.card

def knows (s : Shelf) (digest : Bytes) : Bool := s.volumes.any fun v => v.digest = digest

def put (s : Shelf) (c : Catalog) (digest : Bytes) : Option Shelf :=
  if s.knows digest then
    some { s with volumes := s.volumes.map (Volume.restore digest) }
  else if c.Storable then some { s with volumes := s.volumes ++ [⟨digest, c, false⟩] }
  else none

def note (s : Shelf) (r : Rom) : Option Shelf :=
  match r.sha1 with
  | none => some s
  | some sha1 => if r.size.toNat ≤ Numeral.max63 then some { s with contents := insert sha1 s.contents } else none

def apply (s : Shelf) : Write → Option Shelf
  | .catalog c digest => s.put c digest
  | .content r => s.note r

def commit (s : Shelf) (ws : List Write) : Option Shelf := ws.foldlM apply s

def orphanAll (s : Shelf) : Shelf :=
  { s with volumes := s.volumes.map fun v => { v with orphaned := true } }

end Shelf

namespace Index

def volume (i : Index) (row : CatalogRow) : Volume := ⟨row.digest, i.catalog row, row.orphaned⟩

def shelf (i : Index) : Shelf where
  volumes := i.catalogs.map i.volume
  contents := (i.contents.map ContentRow.sha1).toFinset

structure Counted (i : Index) : Prop where
  consistent : i.Consistent
  games : i.games.length = i.shelf.stats.games
  roms : i.roms.length = i.shelf.stats.roms

theorem find?_shelf (i : Index) (digest : Bytes) : i.shelf.find? digest = (i.row? digest).map i.volume :=
  List.find?_map ..

theorem get?_shelf (i : Index) (digest : Bytes) : i.shelf.get? digest = i.get? digest := by
  rw [Shelf.get?, find?_shelf, Option.map_map]
  rfl

theorem isOrphaned_shelf (i : Index) (digest : Bytes) : i.shelf.isOrphaned digest = i.isOrphaned digest := by
  rw [Shelf.isOrphaned, find?_shelf, Option.map_map]
  rfl

theorem knows_shelf (i : Index) (digest : Bytes) : i.shelf.knows digest = i.knows digest :=
  List.any_map ..

theorem stats_shelf {i : Index} (counted : i.Counted) : i.shelf.stats = i.stats := by
  have orphaned : (i.catalogs.map i.volume).countP Volume.orphaned
      = (i.catalogs.filter CatalogRow.orphaned).length := by
    rw [List.countP_map, ← List.countP_eq_length_filter]
    rfl
  have contents : i.shelf.contents.card = i.contents.length := by
    rw [shelf, List.toFinset_card_of_nodup counted.consistent.contents, List.length_map]
  rw [stats, counted.games, counted.roms, ← contents, ← orphaned]
  simp only [Shelf.stats, shelf, List.length_map]

theorem counted_empty : Counted empty := ⟨consistent_empty, rfl, rfl⟩

theorem shelf_marks (i : Index) {f : CatalogRow → CatalogRow} {g : Volume → Volume}
    (same : ∀ row, i.volume (f row) = g (i.volume row)) :
    ({ i with catalogs := i.catalogs.map f } : Index).shelf =
      { i.shelf with volumes := i.shelf.volumes.map g } := by
  have volumes : (i.catalogs.map f).map i.volume = (i.catalogs.map i.volume).map g := by
    rw [List.map_map, List.map_map]
    exact List.map_congr_left fun row _ => same row
  exact congrArg (Shelf.mk · _) volumes

theorem counted_marks {i : Index} (counted : i.Counted) {f : CatalogRow → CatalogRow} {g : Volume → Volume}
    (rows : ∀ row, (f row).id = row.id ∧ (f row).digest = row.digest)
    (same : ∀ row, i.volume (f row) = g (i.volume row)) (keeps : ∀ v, (g v).catalog = v.catalog) :
    ({ i with catalogs := i.catalogs.map f } : Index).Counted := by
  refine ⟨consistent_marks counted.consistent rows, ?_, ?_⟩
  · rw [shelf_marks i same]
    simp only [Shelf.stats, List.map_map, Function.comp_def, keeps]
    exact counted.games
  · rw [shelf_marks i same]
    simp only [Shelf.stats, List.map_map, Function.comp_def, keeps]
    exact counted.roms

theorem length_romRows (n : Nat) (gs : List Game) :
    (romRows n gs).length = (gs.flatMap Game.allRoms).length := by
  induction gs generalizing n with
  | nil => rfl
  | cons g rest ih =>
    rw [romRows, List.length_append, ih, List.length_map, List.flatMap_cons, List.length_append,
      ← map_snd_romsOf g, List.length_map]

theorem shelf_withCatalog {i : Index} (sound : i.Consistent) (c : Catalog) (digest : Bytes) :
    (i.withCatalog c digest).shelf = { i.shelf with volumes := i.shelf.volumes ++ [⟨digest, c, false⟩] } := by
  have old : i.catalogs.map (i.withCatalog c digest).volume = i.catalogs.map i.volume := by
    refine List.map_congr_left fun row member => ?_
    rw [volume, catalog_withCatalog sound member, volume]
  have new : (i.withCatalog c digest).volume ⟨i.catalogs.length + 1, digest, c.name, c.description, false⟩
      = ⟨digest, c, false⟩ := by
    simp [volume, catalog, gamesIn_withCatalog sound]
  have rows : (i.withCatalog c digest).catalogs
      = i.catalogs ++ [⟨i.catalogs.length + 1, digest, c.name, c.description, false⟩] := rfl
  have volumes : (i.withCatalog c digest).catalogs.map (i.withCatalog c digest).volume
      = i.catalogs.map i.volume ++ [⟨digest, c, false⟩] := by
    rw [rows, List.map_append, old, List.map_singleton, new]
  exact congrArg (Shelf.mk · _) volumes

theorem counted_withCatalog {i : Index} (counted : i.Counted) {c : Catalog} {digest : Bytes}
    (unknown : i.knows digest = false) (fits : c.Storable) : (i.withCatalog c digest).Counted := by
  refine ⟨consistent_withCatalog counted.consistent unknown fits, ?_, ?_⟩
  · rw [shelf_withCatalog counted.consistent]
    simp only [withCatalog, withGames, List.length_append, length_gameRows, counted.games, Shelf.stats,
      List.map_append, List.sum_append, List.map_singleton, List.sum_singleton, Nat.add_assoc]
  · rw [shelf_withCatalog counted.consistent]
    simp only [withCatalog, withGames, List.length_append, length_romRows, counted.roms, Shelf.stats,
      List.map_append, List.sum_append, List.map_singleton, List.sum_singleton, Nat.add_assoc,
      Catalog.romCount, Catalog.allGames, List.flatMap_append]

inductive Follows : Except SizeFault Index → Option Shelf → Prop
  | changed {j : Index} : j.Counted → Follows (.ok j) (some j.shelf)
  | refused {f : SizeFault} : Follows (.error f) none

theorem insertCatalog_follows {i : Index} (counted : i.Counted) (c : Catalog) (digest : Bytes) :
    Follows (i.insertCatalog c digest) (i.shelf.put c digest) := by
  rw [Shelf.put, knows_shelf]
  cases inserted : i.insertCatalog c digest with
  | ok j =>
    rcases insertCatalog_ok_iff.mp inserted with ⟨known, rfl⟩ | ⟨unknown, fits, rfl⟩
    · have same : ∀ row : CatalogRow, i.volume (if row.digest = digest then { row with orphaned := false } else row)
          = (i.volume row).restore digest := by
        intro row
        by_cases own : row.digest = digest <;> simp [own, volume, Volume.restore, catalog]
      rw [if_pos known, ← shelf_marks i same]
      refine .changed (counted_marks counted ?_ same ?_)
      · intro row
        split <;> exact ⟨rfl, rfl⟩
      · intro v
        unfold Volume.restore
        split <;> rfl
    · rw [if_neg (by simp [unknown]), if_pos fits, ← shelf_withCatalog counted.consistent]
      exact .changed (counted_withCatalog counted unknown fits)
  | error f =>
    obtain ⟨unknown, large⟩ := insertCatalog_error inserted
    rw [if_neg (by simp [unknown]), if_neg large]
    exact .refused

theorem changed_contents {i : Index} (counted : i.Counted) {contents : List ContentRow} {known : Finset Bytes}
    (distinct : (contents.map ContentRow.sha1).Nodup) (same : (contents.map ContentRow.sha1).toFinset = known) :
    Follows (.ok { i with contents := contents }) (some { i.shelf with contents := known }) := by
  subst same
  exact .changed ⟨{ counted.consistent with contents := distinct }, counted.games, counted.roms⟩

theorem map_sha1_merge (cs : List ContentRow) (sha1 : Bytes) (r : Rom) :
    (cs.map fun c => if c.sha1 = sha1 then ContentRow.merge c r else c).map ContentRow.sha1 =
      cs.map ContentRow.sha1 := by
  rw [List.map_map]
  apply List.map_congr_left
  intro c _
  rw [Function.comp_apply]
  split <;> rfl

theorem insertContent_follows {i : Index} (counted : i.Counted) (r : Rom) :
    Follows (i.insertContent r) (i.shelf.note r) := by
  have sound : ∀ j, i.insertContent r = .ok j → (j.contents.map ContentRow.sha1).Nodup := by
    intro j inserted
    exact (consistent_insertContent counted.consistent inserted).contents
  unfold insertContent at sound ⊢
  unfold Shelf.note
  cases hashed : r.sha1 with
  | none => exact .changed counted
  | some sha1 =>
    simp only [hashed] at sound ⊢
    cases fits : storable r.size with
    | error f =>
      have large : ¬r.size.toNat ≤ Numeral.max63 := by simp [← storable_ok_iff, fits]
      rw [if_neg large]
      exact .refused
    | ok u =>
      simp only [fits] at sound ⊢
      rw [if_pos ((storable_ok_iff r.size).mp fits)]
      split
      · rename_i known
        refine changed_contents counted (sound _ (if_pos known)) ?_
        obtain ⟨c, member, same⟩ := List.any_eq_true.mp known
        have old : sha1 ∈ i.contents.map ContentRow.sha1 :=
          List.mem_map.mpr ⟨c, member, of_decide_eq_true same⟩
        rw [map_sha1_merge]
        exact (Finset.insert_eq_self.mpr (List.mem_toFinset.mpr old)).symm
      · rename_i fresh
        refine changed_contents counted (sound _ (if_neg fresh)) ?_
        rw [List.map_append, List.toFinset_append, Finset.union_comm]
        rfl

theorem applyAll_follows {i : Index} (counted : i.Counted) (ws : List Write) :
    Follows (Batch.applyAll i ws) (i.shelf.commit ws) := by
  induction ws generalizing i with
  | nil => exact .changed counted
  | cons w rest ih =>
    have first : Follows (w.apply i) (i.shelf.apply w) := by
      cases w with
      | catalog c digest => exact insertCatalog_follows counted c digest
      | content r => exact insertContent_follows counted r
    rw [Batch.applyAll, Shelf.commit, List.foldlM_cons]
    generalize w.apply i = applied, i.shelf.apply w = put at first
    cases first with
    | changed later => exact ih later
    | refused => exact .refused

end Index

/-- What is done to an index and to batches that are told apart by names. -/
inductive Request (β : Type) where
  | start (b : β)
  | addCatalog (b : β) (c : Catalog) (digest : Bytes)
  | addContent (b : β) (r : Rom)
  | flush (b : β)
  | close (b : β)
  | drop (b : β)
  | orphanAll

variable {β : Type}

/-- An index and the batches that are open. -/
structure Index.Session (β : Type) where
  index : Index
  batches : β → Option Batch

/-- A shelf and what is to be put there by the batches that are open. -/
structure Shelf.Session (β : Type) where
  shelf : Shelf
  pending : β → Option (List Write)

namespace Index.Session

def pending (s : Session β) (b : β) : Option (List Write) := (s.batches b).map Batch.pending

def plain (s : Session β) : Shelf.Session β := ⟨s.index.shelf, s.pending⟩

theorem pending_add (s : Session β) (b : β) (w : Write) :
    ((s.batches b).map (·.add w)).map Batch.pending = (s.pending b).map (· ++ [w]) := by
  unfold pending
  cases s.batches b <;> rfl

end Index.Session

variable [DecidableEq β]

namespace Index.Session

def new : Session β := ⟨.empty, fun _ => none⟩

/-- A flush that fails leaves everything as it was. -/
def flush (s : Session β) (b : β) : Session β :=
  match s.batches b with
  | none => s
  | some batch =>
    match Batch.flush s.index batch with
    | .ok (i, batch) => ⟨i, Function.update s.batches b (some batch)⟩
    | .error _ => s

def answer (s : Session β) : Request β → Session β
  | .start b => { s with batches := Function.update s.batches b (some .empty) }
  | .addCatalog b c digest =>
    { s with batches := Function.update s.batches b ((s.batches b).map (·.addCatalog c digest)) }
  | .addContent b r => { s with batches := Function.update s.batches b ((s.batches b).map (·.addContent r)) }
  | .flush b => s.flush b
  | .close b => s.flush b
  | .drop b => { s with batches := Function.update s.batches b none }
  | .orphanAll => { s with index := s.index.orphanAll }

def run (s : Session β) (requests : List (Request β)) : Session β := requests.foldl answer s

end Index.Session

namespace Shelf.Session

def new : Session β := ⟨.empty, fun _ => none⟩

def flush (s : Session β) (b : β) : Session β :=
  match s.pending b with
  | none => s
  | some writes =>
    match s.shelf.commit writes with
    | some shelf => ⟨shelf, Function.update s.pending b (some [])⟩
    | none => s

def answer (s : Session β) : Request β → Session β
  | .start b => { s with pending := Function.update s.pending b (some []) }
  | .addCatalog b c digest =>
    { s with pending := Function.update s.pending b ((s.pending b).map (· ++ [.catalog c digest])) }
  | .addContent b r => { s with pending := Function.update s.pending b ((s.pending b).map (· ++ [.content r])) }
  | .flush b => s.flush b
  | .close b => s.flush b
  | .drop b => { s with pending := Function.update s.pending b none }
  | .orphanAll => { s with shelf := s.shelf.orphanAll }

def run (s : Session β) (requests : List (Request β)) : Session β := requests.foldl answer s

end Shelf.Session

namespace Index.Session

variable {s : Session β}

theorem pending_update (s : Session β) (b : β) (batch : Option Batch) :
    (Session.mk s.index (Function.update s.batches b batch)).pending =
      Function.update s.pending b (batch.map Batch.pending) :=
  Function.comp_update (Option.map Batch.pending) s.batches b batch

theorem plain_flush (counted : s.index.Counted) (b : β) :
    (s.flush b).plain = s.plain.flush b ∧ (s.flush b).index.Counted := by
  unfold Session.flush Shelf.Session.flush
  have pending : s.plain.pending b = (s.batches b).map Batch.pending := rfl
  rw [pending]
  cases s.batches b with
  | none => exact ⟨rfl, counted⟩
  | some batch =>
    have follows := applyAll_follows counted batch.pending
    have shelf : s.plain.shelf = s.index.shelf := rfl
    simp only [Option.map_some, Batch.flush, shelf]
    generalize Batch.applyAll s.index batch.pending = applied, s.index.shelf.commit batch.pending = put at follows
    cases follows with
    | changed later => exact ⟨congrArg _ (pending_update s b (some .empty)), later⟩
    | refused => exact ⟨rfl, counted⟩

theorem plain_answer (counted : s.index.Counted) (request : Request β) :
    (s.answer request).plain = s.plain.answer request ∧ (s.answer request).index.Counted := by
  cases request with
  | start b => exact ⟨congrArg _ (pending_update s b _), counted⟩
  | addCatalog b c digest =>
    exact ⟨congrArg _ ((pending_update s b _).trans (congrArg _ (pending_add s b (.catalog c digest)))), counted⟩
  | addContent b r =>
    exact ⟨congrArg _ ((pending_update s b _).trans (congrArg _ (pending_add s b (.content r)))), counted⟩
  | flush b => exact plain_flush counted b
  | close b => exact plain_flush counted b
  | drop b => exact ⟨congrArg _ (pending_update s b _), counted⟩
  | orphanAll =>
    refine ⟨congrArg (Shelf.Session.mk · s.pending) (shelf_marks s.index fun _ => rfl), ?_⟩
    exact counted_marks (g := fun v => { v with orphaned := true }) counted (fun _ => ⟨rfl, rfl⟩)
      (fun _ => rfl) fun _ => rfl

theorem plain_run (counted : s.index.Counted) (requests : List (Request β)) :
    (s.run requests).plain = s.plain.run requests ∧ (s.run requests).index.Counted := by
  induction requests generalizing s with
  | nil => exact ⟨rfl, counted⟩
  | cons request rest ih =>
    obtain ⟨same, later⟩ := plain_answer counted request
    obtain ⟨same', last⟩ := ih later
    rw [same] at same'
    exact ⟨same', last⟩

theorem get?_answer (counted : s.index.Counted) {x : Bytes} {c : Catalog} (known : s.index.get? x = some c)
    (request : Request β) : (s.answer request).index.get? x = some c := by
  have flushed : ∀ b, (s.flush b).index.get? x = some c := by
    intro b
    unfold Session.flush
    split
    · exact known
    · rename_i batch _
      rcases applied : Batch.applyAll s.index batch.pending with f | j
      · simpa only [Batch.flush, applied] using known
      · simp only [Batch.flush, applied]
        rw [Batch.get?_applyAll counted.consistent applied, known, Option.some_or]
  cases request with
  | start b => exact known
  | addCatalog b c digest => exact known
  | addContent b r => exact known
  | flush b => exact flushed b
  | close b => exact flushed b
  | drop b => exact known
  | orphanAll => exact (get?_orphanAll s.index x).trans known

theorem get?_run (counted : s.index.Counted) {x : Bytes} {c : Catalog} (known : s.index.get? x = some c)
    (requests : List (Request β)) : (s.run requests).index.get? x = some c := by
  induction requests generalizing s with
  | nil => exact known
  | cons request rest ih => exact ih (plain_answer counted request).2 (get?_answer counted known request)

/-- Whatever is done to a new index and its batches, it answers as the shelf does; and the catalog that it
gives for a digest once, it gives forever. -/
theorem answers_as_shelf (requests : List (Request β)) (x : Bytes) :
    let index := ((new : Session β).run requests).index
    let shelf := ((Shelf.Session.new : Shelf.Session β).run requests).shelf
    index.get? x = shelf.get? x ∧ index.isOrphaned x = shelf.isOrphaned x ∧ index.stats = shelf.stats ∧
      ∀ more, let later := ((new : Session β).run (requests ++ more)).index
        later.get? x = (index.get? x).or (later.get? x) := by
  obtain ⟨same, counted⟩ := plain_run (s := (new : Session β)) counted_empty requests
  have shelf : ((new : Session β).run requests).index.shelf
      = ((Shelf.Session.new : Shelf.Session β).run requests).shelf := congrArg Shelf.Session.shelf same
  intro index shelf'
  change index.shelf = shelf' at shelf
  rw [← shelf]
  refine ⟨(get?_shelf ..).symm, (isOrphaned_shelf ..).symm, (stats_shelf counted).symm, ?_⟩
  intro more later
  cases known : index.get? x with
  | none => rw [Option.none_or]
  | some c =>
    have again : later = (((new : Session β).run requests).run more).index :=
      congrArg Session.index List.foldl_append
    rw [again, get?_run counted known more, Option.some_or]

end Index.Session
end RomLedger
