import RomLedger.Index.Query

/- Rows that an insertion adds, and how a catalog is put together again from them. -/
namespace RomLedger

def Game.Storable (g : Game) : Prop := ∀ r ∈ g.allRoms, r.size.toNat ≤ Numeral.max63

def Catalog.Storable (c : Catalog) : Prop := ∀ g ∈ c.allGames, g.Storable

instance (g : Game) : Decidable g.Storable :=
  inferInstanceAs (Decidable (∀ r ∈ g.allRoms, r.size.toNat ≤ Numeral.max63))

instance (c : Catalog) : Decidable c.Storable :=
  inferInstanceAs (Decidable (∀ g ∈ c.allGames, g.Storable))

namespace Index

def gameRows (catalog : Nat) (software : Bool) : Nat → List Game → List GameRow
  | _, [] => []
  | n, g :: rest =>
    ⟨n + 1, catalog, g.name, g.description, software⟩ :: gameRows catalog software (n + 1) rest

/-- The rows of the files of games behind `n` others. -/
def romRows : Nat → List Game → List RomRow
  | _, [] => []
  | n, g :: rest => (romsOf g).map (fun r => ⟨n + 1, r.1, r.2⟩) ++ romRows (n + 1) rest

/-- An index with the rows of some games of one section behind the others. -/
def withGames (i : Index) (catalog : Nat) (software : Bool) (gs : List Game) : Index :=
  { i with
    games := i.games ++ gameRows catalog software i.games.length gs
    roms := i.roms ++ romRows i.games.length gs }

def withCatalog (i : Index) (c : Catalog) (digest : Bytes) : Index :=
  let id := i.catalogs.length + 1
  let row : CatalogRow := ⟨id, digest, c.name, c.description, false⟩
  (({ i with catalogs := i.catalogs ++ [row] } : Index).withGames id false c.games).withGames id true
    c.software

/-- What the tables promise of their rows: identities count the rows, digests and contents are known
once, references lead to rows, and sizes fit. -/
structure Consistent (i : Index) : Prop where
  catalog_ids : i.catalogs.map CatalogRow.id = List.range' 1 i.catalogs.length
  digests : (i.catalogs.map CatalogRow.digest).Nodup
  game_ids : i.games.map GameRow.id = List.range' 1 i.games.length
  owners : ∀ g ∈ i.games, 1 ≤ g.catalog ∧ g.catalog ≤ i.catalogs.length
  places : ∀ r ∈ i.roms, 1 ≤ r.game ∧ r.game ≤ i.games.length
  sizes : ∀ r ∈ i.roms, r.rom.size.toNat ≤ Numeral.max63
  contents : (i.contents.map ContentRow.sha1).Nodup

theorem storable_ok_iff (size : UInt64) : storable size = .ok () ↔ size.toNat ≤ Numeral.max63 := by
  unfold storable
  split <;> simp_all

theorem checkRoms_ok_iff (rs : List (RomKind × Rom)) :
    checkRoms rs = .ok () ↔ ∀ r ∈ rs, r.2.size.toNat ≤ Numeral.max63 := by
  induction rs with
  | nil => simp [checkRoms]
  | cons r rest ih =>
    rw [List.forall_mem_cons, ← storable_ok_iff, ← ih]
    obtain ⟨kind, rom⟩ := r
    simp only [checkRoms]
    split <;> simp_all

theorem map_snd_romsOf (g : Game) : (romsOf g).map Prod.snd = g.allRoms := by
  simp [romsOf, Game.allRoms, Function.comp_def]

theorem checkRoms_romsOf_iff (g : Game) : checkRoms (romsOf g) = .ok () ↔ g.Storable := by
  simp only [checkRoms_ok_iff, Game.Storable, ← map_snd_romsOf, List.forall_mem_map]

@[simp] theorem length_gameRows (catalog n : Nat) (software : Bool) (gs : List Game) :
    (gameRows catalog software n gs).length = gs.length := by
  induction gs generalizing n with
  | nil => rfl
  | cons g rest ih => simp [gameRows, ih]

theorem gameRow_bounds {catalog n : Nat} {software : Bool} {gs : List Game} {r : GameRow}
    (member : r ∈ gameRows catalog software n gs) :
    n < r.id ∧ r.id ≤ n + gs.length ∧ r.catalog = catalog ∧ r.software = software := by
  induction gs generalizing n with
  | nil => simp [gameRows] at member
  | cons g rest ih =>
    rcases List.mem_cons.mp member with rfl | later
    · simp
    · have := ih later
      simp only [List.length_cons]
      exact ⟨by omega, by omega, this.2.2⟩

theorem romRow_bounds {n : Nat} {gs : List Game} {r : RomRow} (member : r ∈ romRows n gs) :
    n < r.game ∧ r.game ≤ n + gs.length := by
  induction gs generalizing n with
  | nil => simp [romRows] at member
  | cons g rest ih =>
    rcases List.mem_append.mp member with here | later
    · obtain ⟨f, _, rfl⟩ := List.mem_map.mp here
      simp
    · have := ih later
      simp only [List.length_cons]
      omega

theorem romRow_source {n : Nat} {gs : List Game} {r : RomRow} (member : r ∈ romRows n gs) :
    ∃ g ∈ gs, r.rom ∈ g.allRoms := by
  induction gs generalizing n with
  | nil => simp [romRows] at member
  | cons g rest ih =>
    rcases List.mem_append.mp member with here | later
    · obtain ⟨f, inside, rfl⟩ := List.mem_map.mp here
      exact ⟨g, List.mem_cons_self, map_snd_romsOf g ▸ List.mem_map_of_mem inside⟩
    · obtain ⟨h, mem, inside⟩ := ih later
      exact ⟨h, List.mem_cons_of_mem g mem, inside⟩

theorem insertGames_ok_iff {catalog : Nat} {software : Bool} {i j : Index} {gs : List Game} :
    insertGames catalog software i gs = .ok j ↔
      (∀ g ∈ gs, g.Storable) ∧ j = i.withGames catalog software gs := by
  induction gs generalizing i with
  | nil => simp [insertGames, withGames, gameRows, romRows, eq_comm]
  | cons g rest ih =>
    rw [List.forall_mem_cons, ← checkRoms_romsOf_iff]
    simp only [insertGames, insertGame]
    cases fits : checkRoms (romsOf g) with
    | error f => simp
    | ok u => simp [ih, withGames, gameRows, romRows]

theorem not_storable_of_insertGames {catalog : Nat} {software : Bool} {i : Index} {gs : List Game}
    {f : SizeFault} (refused : insertGames catalog software i gs = .error f) :
    ¬∀ g ∈ gs, g.Storable := by
  intro fits
  have : insertGames catalog software i gs = .ok _ := insertGames_ok_iff.mpr ⟨fits, rfl⟩
  simp [refused] at this

theorem insertCatalog_ok_iff {i j : Index} {c : Catalog} {digest : Bytes} :
    i.insertCatalog c digest = .ok j ↔
      (i.knows digest ∧ j = i.restore digest) ∨
      (i.knows digest = false ∧ c.Storable ∧ j = i.withCatalog c digest) := by
  unfold insertCatalog
  by_cases known : i.knows digest
  · simp [known, eq_comm]
  · simp only [known, Bool.false_eq_true, ↓reduceIte, false_and, Catalog.Storable, Catalog.allGames,
      List.forall_mem_append, withCatalog, true_and, false_or]
    split
    · rename_i k inserted
      obtain ⟨fits, rfl⟩ := insertGames_ok_iff.mp inserted
      rw [insertGames_ok_iff, and_assoc, and_iff_right fits]
    · rename_i f refused
      simp [not_storable_of_insertGames refused]

theorem insertCatalog_error {i : Index} {c : Catalog} {digest : Bytes} {f : SizeFault}
    (refused : i.insertCatalog c digest = .error f) : i.knows digest = false ∧ ¬c.Storable := by
  have never (j : Index) : i.insertCatalog c digest ≠ .ok j := by simp [refused]
  simp only [ne_eq, insertCatalog_ok_iff, not_or, not_and] at never
  have unknown : i.knows digest = false :=
    Bool.eq_false_iff.mpr fun known => (never (i.restore digest)).1 known rfl
  exact ⟨unknown, fun fits => (never _).2 unknown fits rfl⟩

theorem knows_iff {i : Index} {digest : Bytes} :
    i.knows digest = true ↔ digest ∈ i.catalogs.map CatalogRow.digest := by
  simp [knows]

theorem map_id_gameRows (catalog n : Nat) (software : Bool) (gs : List Game) :
    (gameRows catalog software n gs).map GameRow.id = List.range' (n + 1) gs.length := by
  induction gs generalizing n with
  | nil => rfl
  | cons g rest ih => simp [gameRows, ih, List.range'_succ]

theorem consistent_empty : Consistent empty := by
  constructor <;> simp [empty]

theorem consistent_withGames {i : Index} (sound : i.Consistent) {catalog : Nat} {software : Bool}
    {gs : List Game} (owner : 1 ≤ catalog ∧ catalog ≤ i.catalogs.length)
    (fits : ∀ g ∈ gs, g.Storable) : (i.withGames catalog software gs).Consistent where
  catalog_ids := sound.catalog_ids
  digests := sound.digests
  game_ids := by
    simp only [withGames, List.map_append, sound.game_ids, map_id_gameRows, List.length_append,
      length_gameRows]
    rw [Nat.add_comm, List.range'_append_1]
  owners g member := by
    rcases List.mem_append.mp member with old | new
    · exact sound.owners g old
    · exact (gameRow_bounds new).2.2.1 ▸ owner
  places r member := by
    simp only [withGames, List.length_append, length_gameRows]
    rcases List.mem_append.mp member with old | new
    · have := sound.places r old
      omega
    · have := romRow_bounds new
      omega
  sizes r member := by
    rcases List.mem_append.mp member with old | new
    · exact sound.sizes r old
    · obtain ⟨g, mem, inside⟩ := romRow_source new
      exact fits g mem r.rom inside
  contents := sound.contents

theorem consistent_withCatalog {i : Index} (sound : i.Consistent) {c : Catalog} {digest : Bytes}
    (unknown : i.knows digest = false) (fits : c.Storable) : (i.withCatalog c digest).Consistent := by
  rw [Catalog.Storable, Catalog.allGames, List.forall_mem_append] at fits
  have fresh : digest ∉ i.catalogs.map CatalogRow.digest := by
    rw [← knows_iff, unknown]
    exact Bool.false_ne_true
  refine consistent_withGames (consistent_withGames ?_ (by simp) fits.1) (by simp [withGames]) fits.2
  exact {
    catalog_ids := by simp [sound.catalog_ids, List.range'_1_concat, Nat.add_comm]
    digests := by
      simp only [List.map_append, List.map_cons, List.map_nil]
      refine List.nodup_append.mpr ⟨sound.digests, by simp, fun x old y new => ?_⟩
      rw [List.mem_singleton.mp new]
      exact fun same => fresh (same ▸ old)
    game_ids := sound.game_ids
    owners := fun g member => by
      have := sound.owners g member
      simp only [List.length_append]
      omega
    places := sound.places
    sizes := sound.sizes
    contents := sound.contents }

theorem consistent_marks {i : Index} (sound : i.Consistent) {f : CatalogRow → CatalogRow}
    (same : ∀ c, (f c).id = c.id ∧ (f c).digest = c.digest) :
    ({ i with catalogs := i.catalogs.map f } : Index).Consistent where
  catalog_ids := by simpa [Function.comp_def, same] using sound.catalog_ids
  digests := by simpa [Function.comp_def, same] using sound.digests
  game_ids := sound.game_ids
  owners := by simpa using sound.owners
  places := sound.places
  sizes := sound.sizes
  contents := sound.contents

theorem consistent_restore {i : Index} (sound : i.Consistent) (digest : Bytes) :
    (i.restore digest).Consistent :=
  consistent_marks sound fun c => by split <;> simp

theorem consistent_orphanAll {i : Index} (sound : i.Consistent) : i.orphanAll.Consistent :=
  consistent_marks sound fun _ => ⟨rfl, rfl⟩

theorem consistent_insertCatalog {i j : Index} (sound : i.Consistent) {c : Catalog}
    {digest : Bytes} (inserted : i.insertCatalog c digest = .ok j) : j.Consistent := by
  rcases insertCatalog_ok_iff.mp inserted with ⟨_, rfl⟩ | ⟨unknown, fits, rfl⟩
  · exact consistent_restore sound digest
  · exact consistent_withCatalog sound unknown fits

theorem consistent_insertContent {i j : Index} (sound : i.Consistent) {r : Rom}
    (inserted : i.insertContent r = .ok j) : j.Consistent := by
  have only (contents : List ContentRow) (distinct : (contents.map ContentRow.sha1).Nodup) :
      ({ i with contents := contents } : Index).Consistent :=
    { sound with contents := distinct }
  unfold insertContent at inserted
  split at inserted
  · cases inserted; exact sound
  · rename_i sha1 _
    split at inserted
    · cases inserted
    · split at inserted
      · cases inserted
        refine only _ ?_
        have keeps : ContentRow.sha1 ∘ (fun c => if c.sha1 = sha1 then ContentRow.merge c r else c)
            = ContentRow.sha1 := by
          funext c
          simp only [Function.comp_apply]
          split <;> rfl
        simpa [keeps] using sound.contents
      · rename_i fresh
        cases inserted
        refine only _ ?_
        simp only [List.map_append, List.map_cons, List.map_nil]
        refine List.nodup_append.mpr ⟨sound.contents, by simp, fun x old y new same => ?_⟩
        obtain ⟨c, member, rfl⟩ := List.mem_map.mp old
        rw [List.mem_singleton.mp new] at same
        exact fresh (List.any_eq_true.mpr ⟨c, member, by simpa using same⟩)

end Index
end RomLedger
