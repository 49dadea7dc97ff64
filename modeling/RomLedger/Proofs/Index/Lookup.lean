import RomLedger.Proofs.Index.Sessions

/-!
Looking a file up in the tables is looking for it in the catalogs themselves. The rows that refer to each
other are joined to the games of a catalog and their files, whatever their kind; so the catalogs that are
found are those of the shelf that are not orphaned and reference the file, each of them once.
-/
namespace RomLedger

def Rom.Matches (wanted r : Rom) : Prop :=
  (∃ h, wanted.sha1 = some h ∧ r.sha1 = some h) ∨
  (wanted.sha1 = none ∧ ∃ h, wanted.md5 = some h ∧ r.md5 = some h) ∨
  (wanted.sha1 = none ∧ wanted.md5 = none ∧
    ∃ h, wanted.crc = some h ∧ r.crc = some h ∧ r.size = wanted.size)

def Catalog.References (c : Catalog) (wanted : Rom) : Prop :=
  ∃ g ∈ c.allGames, ∃ r ∈ g.allRoms, wanted.Matches r

namespace Shelf

def Distinct (s : Shelf) : Prop := (s.volumes.map Volume.digest).Nodup

theorem find?_eq_some_iff {s : Shelf} (distinct : s.Distinct) {v : Volume} {x : Bytes} :
    s.find? x = some v ↔ v ∈ s.volumes ∧ v.digest = x := by
  constructor
  · intro found
    exact ⟨List.mem_of_find?_eq_some found, by simpa using List.find?_some found⟩
  · rintro ⟨member, rfl⟩
    have known : (s.find? v.digest).isSome := List.find?_isSome.mpr ⟨v, member, decide_eq_true rfl⟩
    obtain ⟨u, found⟩ := Option.isSome_iff_exists.mp known
    have same : u.digest = v.digest := by simpa using List.find?_some found
    rw [found, List.inj_on_of_nodup_map distinct (List.mem_of_find?_eq_some found) member same]

/-- The current catalogs of a shelf that are of interest, under their digests. -/
def current (s : Shelf) (p : Catalog → Bool) : List Volume :=
  s.volumes.filter fun v => !v.orphaned && p v.catalog

theorem mem_digests_current {s : Shelf} (distinct : s.Distinct) {p : Catalog → Bool} {x : Bytes} :
    x ∈ (s.current p).map Volume.digest ↔
      s.isOrphaned x = some false ∧ ∃ c, s.get? x = some c ∧ p c = true := by
  simp only [List.mem_map, current, List.mem_filter, Bool.and_eq_true, Bool.not_eq_true']
  constructor
  · rintro ⟨v, ⟨member, unmarked, holds⟩, same⟩
    have found := (find?_eq_some_iff distinct).mpr ⟨member, same⟩
    rw [isOrphaned, get?, found]
    exact ⟨congrArg some unmarked, v.catalog, rfl, holds⟩
  · rintro ⟨unmarked, c, known, holds⟩
    obtain ⟨v, found, rfl⟩ := Option.map_eq_some_iff.mp known
    rw [isOrphaned, found] at unmarked
    obtain ⟨member, same⟩ := (find?_eq_some_iff distinct).mp found
    exact ⟨v, ⟨member, Option.some.inj unmarked, holds⟩, same⟩

theorem map_get?_current {s : Shelf} (distinct : s.Distinct) (p : Catalog → Bool) :
    ((s.current p).map Volume.digest).map s.get? = ((s.current p).map Volume.catalog).map some := by
  rw [List.map_map, List.map_map]
  refine List.map_congr_left fun v inside => ?_
  have found := (find?_eq_some_iff distinct).mpr ⟨(List.mem_filter.mp inside).1, rfl⟩
  rw [Function.comp_apply, get?, found]
  rfl

end Shelf

namespace Index

theorem isMetBy_ofRom_iff (wanted r : Rom) : (Wanted.ofRom wanted).isMetBy r = true ↔ wanted.Matches r := by
  rcases wanted with ⟨name, size, crc, md5, sha1⟩
  rw [Rom.Matches, Wanted.ofRom]
  cases sha1 with
  | some h => simp [Wanted.isMetBy]
  | none =>
    cases md5 with
    | some h => simp [Wanted.isMetBy]
    | none => cases crc <;> simp [Wanted.isMetBy]

theorem mem_allRoms_game (i : Index) (row : GameRow) (r : Rom) :
    r ∈ (i.game row).allRoms ↔ ∃ x ∈ i.roms, x.game = row.id ∧ x.rom = r := by
  have kinds : r ∈ (i.game row).allRoms ↔ ∃ kind, r ∈ i.romsIn row.id kind := by
    simp only [Game.allRoms, game, List.mem_append]
    constructor
    · rintro (((rom | disk) | part) | region)
      · exact ⟨.rom, rom⟩
      · exact ⟨.disk, disk⟩
      · exact ⟨.part, part⟩
      · exact ⟨.region, region⟩
    · rintro ⟨kind, member⟩
      cases kind <;> simp only [member, true_or, or_true]
  simp only [kinds, romsIn, List.mem_filterMap, Option.ite_none_right_eq_some, Option.some.injEq]
  constructor
  · rintro ⟨kind, x, member, ⟨owner, -⟩, rfl⟩
    exact ⟨x, member, owner, rfl⟩
  · rintro ⟨x, member, owner, rfl⟩
    exact ⟨x.kind, x, member, ⟨owner, rfl⟩, rfl⟩

theorem mem_allGames_catalog (i : Index) (row : CatalogRow) (g : Game) :
    g ∈ (i.catalog row).allGames ↔ ∃ x ∈ i.games, x.catalog = row.id ∧ i.game x = g := by
  simp only [Catalog.allGames, catalog, List.mem_append, gamesIn, List.mem_map, List.mem_filter,
    decide_eq_true_eq]
  constructor
  · rintro (⟨x, ⟨member, owner, -⟩, rfl⟩ | ⟨x, ⟨member, owner, -⟩, rfl⟩) <;> exact ⟨x, member, owner, rfl⟩
  · rintro ⟨x, member, owner, rfl⟩
    cases part : x.software with
    | false => exact .inl ⟨x, ⟨member, owner, part⟩, rfl⟩
    | true => exact .inr ⟨x, ⟨member, owner, part⟩, rfl⟩

instance (c : Catalog) (wanted : Rom) : Decidable (c.References wanted) :=
  decidable_of_iff (c.allGames.any fun g => g.allRoms.any (Wanted.ofRom wanted).isMetBy) <| by
    simp only [List.any_eq_true, isMetBy_ofRom_iff, Catalog.References]

theorem offers_iff (i : Index) (wanted : Rom) (row : CatalogRow) :
    i.offers (.ofRom wanted) row = true ↔ (i.catalog row).References wanted := by
  simp only [offers, List.any_eq_true, Bool.and_eq_true, decide_eq_true_eq, isMetBy_ofRom_iff,
    Catalog.References, mem_allGames_catalog]
  constructor
  · rintro ⟨x, member, owner, y, inside, place, met⟩
    exact ⟨i.game x, ⟨x, member, owner, rfl⟩, y.rom,
      (mem_allRoms_game i x y.rom).mpr ⟨y, inside, place, rfl⟩, met⟩
  · rintro ⟨_, ⟨x, member, owner, rfl⟩, r, held, met⟩
    obtain ⟨y, inside, place, rfl⟩ := (mem_allRoms_game i x r).mp held
    exact ⟨x, member, owner, y, inside, place, met⟩

theorem check_error_iff (wanted : Rom) (f : SizeFault) :
    (Wanted.ofRom wanted).check = .error f ↔
      f = ⟨wanted.size⟩ ∧ wanted.sha1 = none ∧ wanted.md5 = none ∧ wanted.crc ≠ none ∧
        Numeral.max63 < wanted.size.toNat := by
  rcases wanted with ⟨name, size, crc, md5, sha1⟩
  rw [Wanted.ofRom]
  cases sha1 with
  | some h => simp [Wanted.check]
  | none =>
    cases md5 with
    | some h => simp [Wanted.check]
    | none =>
      cases crc with
      | none => simp [Wanted.check]
      | some h =>
        rw [Wanted.check, storable]
        split
        · rename_i small
          simp [Nat.not_lt.mpr small]
        · rename_i large
          simp [Nat.lt_of_not_le large, eq_comm]

theorem catalogsFor_eq (i : Index) (wanted : Rom) :
    i.catalogsFor wanted = (Wanted.ofRom wanted).check.map fun _ =>
      (i.shelf.current fun c => c.References wanted).map Volume.catalog := by
  have rows : (i.shelf.current fun c => c.References wanted).map Volume.catalog
      = (i.catalogs.filter fun row => !row.orphaned && i.offers (.ofRom wanted) row).map i.catalog := by
    rw [Shelf.current, shelf, List.filter_map, List.map_map]
    have same : ((fun v : Volume => !v.orphaned && decide (v.catalog.References wanted)) ∘ i.volume)
        = fun row => !row.orphaned && i.offers (.ofRom wanted) row := by
      funext row
      rw [Function.comp_apply, volume, Bool.eq_iff_iff, Bool.and_eq_true, Bool.and_eq_true, offers_iff,
        decide_eq_true_eq]
    rw [same]
    rfl
  rw [catalogsFor, rows]
  cases (Wanted.ofRom wanted).check <;> rfl

theorem Consistent.distinct {i : Index} (sound : i.Consistent) : i.shelf.Distinct := by
  have same : i.shelf.volumes.map Volume.digest = i.catalogs.map CatalogRow.digest := List.map_map ..
  rw [Shelf.Distinct, same]
  exact sound.digests

namespace Session

variable {β : Type} [DecidableEq β]

/-- Whatever was done to a new index before: looking up fails only for a file that is known by its CRC
alone and is larger than the tables can hold, and otherwise finds exactly one catalog for each digest that
is not orphaned and whose catalog references the file, the one that the index gives for the digest. -/
theorem lookup_exact (requests : List (Request β)) (wanted : Rom) :
    let index := ((new : Session β).run requests).index
    (∀ f, index.catalogsFor wanted = .error f ↔
      f = ⟨wanted.size⟩ ∧ wanted.sha1 = none ∧ wanted.md5 = none ∧ wanted.crc ≠ none ∧
        Numeral.max63 < wanted.size.toNat) ∧
    ∀ found, index.catalogsFor wanted = .ok found → ∃ digests : List Bytes, digests.Nodup ∧
      (∀ x, x ∈ digests ↔ index.isOrphaned x = some false ∧
        ∃ c, index.get? x = some c ∧ c.References wanted) ∧
      digests.map index.get? = found.map some := by
  intro index
  have distinct : index.shelf.Distinct := (plain_run counted_empty requests).2.consistent.distinct
  rw [catalogsFor_eq]
  refine ⟨fun f => ?_, fun found good => ?_⟩
  · rw [← check_error_iff]
    cases (Wanted.ofRom wanted).check <;> simp [Except.map]
  · cases check : (Wanted.ofRom wanted).check with
    | error f =>
      rw [check] at good
      cases good
    | ok u =>
      rw [check] at good
      cases good
      refine ⟨(index.shelf.current fun c => c.References wanted).map Volume.digest,
        distinct.sublist (List.filter_sublist.map _), fun x => ?_, ?_⟩
      · rw [Shelf.mem_digests_current distinct, isOrphaned_shelf, get?_shelf]
        simp only [decide_eq_true_eq]
      · rw [← Shelf.map_get?_current distinct]
        exact List.map_congr_left fun x _ => (get?_shelf index x).symm

end Session
end Index
end RomLedger
