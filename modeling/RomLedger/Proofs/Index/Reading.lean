import RomLedger.Proofs.Index.Rows

/- What the index answers after each change. The answers are seen digest by digest: a new catalog is given
   back exactly as it went in and changes the answers for no other digest, restoring and orphaning move marks
   only. -/
namespace RomLedger

def Game.files (g : Game) : RomKind → List Rom
  | .rom => g.roms
  | .disk => g.disks
  | .part => g.parts
  | .region => g.regions

namespace Index

theorem romsIn_of_rows {i : Index} {before after : List RomRow} {id : Nat} {g : Game}
    (rows : i.roms = before ++ (romsOf g).map (fun r => ⟨id, r.1, r.2⟩) ++ after)
    (first : ∀ r ∈ before, r.game ≠ id) (last : ∀ r ∈ after, r.game ≠ id) (kind : RomKind) :
    i.romsIn id kind = g.files kind := by
  have none_of {rs : List RomRow} (other : ∀ r ∈ rs, r.game ≠ id) :
      rs.filterMap (fun r => if r.game = id ∧ r.kind = kind then some r.rom else none) = [] :=
    List.filterMap_eq_nil_iff.mpr fun r member => by simp [other r member]
  have own (k : RomKind) (rs : List Rom) :
      ((rs.map fun r => (k, r)).map fun r => (⟨id, r.1, r.2⟩ : RomRow)).filterMap
        (fun r => if r.game = id ∧ r.kind = kind then some r.rom else none)
        = if k = kind then rs else [] := by
    induction rs with
    | nil => simp
    | cons r rest ih => by_cases same : k = kind <;> simp_all
  rw [romsIn, rows, List.filterMap_append, List.filterMap_append, none_of first, none_of last]
  simp only [romsOf, List.map_append, List.filterMap_append, own]
  cases kind <;> simp [Game.files]

theorem game_of_rows {i : Index} {before after : List RomRow} {id catalog : Nat} {software : Bool}
    {g : Game} (rows : i.roms = before ++ (romsOf g).map (fun r => ⟨id, r.1, r.2⟩) ++ after)
    (first : ∀ r ∈ before, r.game ≠ id) (last : ∀ r ∈ after, r.game ≠ id) :
    i.game ⟨id, catalog, g.name, g.description, software⟩ = g := by
  simp only [game, romsIn_of_rows rows first last, Game.files]

/-- Games read back from their rows, whatever rows of other games lie around them. -/
theorem map_game_gameRows {i : Index} {before after : List RomRow} {catalog n : Nat}
    {software : Bool} {gs : List Game} (rows : i.roms = before ++ romRows n gs ++ after)
    (first : ∀ r ∈ before, r.game ≤ n) (last : ∀ r ∈ after, n + gs.length < r.game) :
    (gameRows catalog software n gs).map i.game = gs := by
  induction gs generalizing n before with
  | nil => rfl
  | cons g rest ih =>
    simp only [romRows, List.length_cons] at rows last
    have split_first : i.roms = before ++ (romsOf g).map (fun r => ⟨n + 1, r.1, r.2⟩)
        ++ (romRows (n + 1) rest ++ after) := by simpa using rows
    have head : i.game ⟨n + 1, catalog, g.name, g.description, software⟩ = g := by
      refine game_of_rows split_first (fun r member => ?_) (fun r member => ?_)
      · have := first r member
        omega
      · rcases List.mem_append.mp member with new | later
        · have := romRow_bounds new
          omega
        · have := last r later
          omega
    have tail : (gameRows catalog software (n + 1) rest).map i.game = rest := by
      rw [← List.append_assoc] at split_first
      refine ih split_first (fun r member => ?_) (fun r member => ?_)
      · rcases List.mem_append.mp member with old | own
        · exact Nat.le_succ_of_le (first r old)
        · obtain ⟨f, _, rfl⟩ := List.mem_map.mp own
          exact Nat.le_refl _
      · have := last r member
        omega
    simp [gameRows, head, tail]

theorem Consistent.catalog_id_le {i : Index} (sound : i.Consistent) {c : CatalogRow}
    (member : c ∈ i.catalogs) : c.id ≤ i.catalogs.length := by
  have : c.id ∈ List.range' 1 i.catalogs.length :=
    sound.catalog_ids ▸ List.mem_map_of_mem member
  simp only [List.mem_range'_1] at this
  omega

theorem Consistent.game_id_le {i : Index} (sound : i.Consistent) {g : GameRow}
    (member : g ∈ i.games) : g.id ≤ i.games.length := by
  have : g.id ∈ List.range' 1 i.games.length := sound.game_ids ▸ List.mem_map_of_mem member
  simp only [List.mem_range'_1] at this
  omega

theorem romsIn_withGames {i : Index} {catalog id : Nat} {software : Bool} {gs : List Game}
    (old : id ≤ i.games.length) (kind : RomKind) :
    (i.withGames catalog software gs).romsIn id kind = i.romsIn id kind := by
  have new : (romRows i.games.length gs).filterMap
      (fun r => if r.game = id ∧ r.kind = kind then some r.rom else none) = [] := by
    refine List.filterMap_eq_nil_iff.mpr fun r member => ?_
    have := romRow_bounds member
    have other : r.game ≠ id := by omega
    simp [other]
  simp [romsIn, withGames, new]

/-- New games leave the games of every other catalog alone. -/
theorem gamesIn_withGames {i : Index} (bounded : ∀ g ∈ i.games, g.id ≤ i.games.length)
    {catalog other : Nat} (different : other ≠ catalog) {software : Bool} {gs : List Game}
    (part : Bool) :
    (i.withGames catalog software gs).gamesIn other part = i.gamesIn other part := by
  have new : (gameRows catalog software i.games.length gs).filter
      (fun g => decide (g.catalog = other ∧ g.software = part)) = [] := by
    refine List.filter_eq_nil_iff.mpr fun g member => ?_
    rw [(gameRow_bounds member).2.2.1]
    simp [different.symm]
  have rows : (i.withGames catalog software gs).games
      = i.games ++ gameRows catalog software i.games.length gs := rfl
  simp only [gamesIn, rows, List.filter_append, new, List.append_nil]
  refine List.map_congr_left fun g member => ?_
  have old := bounded g (List.mem_filter.mp member).1
  simp only [game, romsIn_withGames old]

theorem filter_section {catalog n : Nat} {software part : Bool} {gs : List Game} :
    (gameRows catalog software n gs).filter
        (fun g => decide (g.catalog = catalog ∧ g.software = part))
      = if software = part then gameRows catalog software n gs else [] := by
  split
  · rename_i same
    refine List.filter_eq_self.mpr fun g member => ?_
    have := gameRow_bounds member
    simp [this.2.2, same]
  · rename_i other
    refine List.filter_eq_nil_iff.mpr fun g member => ?_
    have := gameRow_bounds member
    simp [this.2.2, other]

theorem gamesIn_withCatalog {i : Index} (sound : i.Consistent) (c : Catalog) (digest : Bytes)
    (part : Bool) :
    (i.withCatalog c digest).gamesIn (i.catalogs.length + 1) part
      = if part then c.software else c.games := by
  have games : (i.withCatalog c digest).games = i.games
      ++ gameRows (i.catalogs.length + 1) false i.games.length c.games
      ++ gameRows (i.catalogs.length + 1) true (i.games.length + c.games.length) c.software := by
    simp [withCatalog, withGames]
  have roms : (i.withCatalog c digest).roms = i.roms ++ romRows i.games.length c.games
      ++ romRows (i.games.length + c.games.length) c.software := by
    simp [withCatalog, withGames]
  have old : i.games.filter
      (fun g => decide (g.catalog = i.catalogs.length + 1 ∧ g.software = part)) = [] := by
    refine List.filter_eq_nil_iff.mpr fun g member => ?_
    have := sound.owners g member
    have other : g.catalog ≠ i.catalogs.length + 1 := by omega
    simp [other]
  rw [gamesIn, games, List.filter_append, List.filter_append, old, filter_section, filter_section]
  cases part with
  | false =>
    simp only [↓reduceIte, Bool.true_eq_false, List.nil_append, List.append_nil,
      Bool.false_eq_true]
    exact map_game_gameRows roms (fun r member => (sound.places r member).2)
      fun r member => (romRow_bounds member).1
  | true =>
    simp only [Bool.false_eq_true, ↓reduceIte, List.nil_append]
    rw [← List.append_nil (_ ++ _ ++ _)] at roms
    refine map_game_gameRows roms (fun r member => ?_) (by simp)
    rcases List.mem_append.mp member with place | new
    · have := sound.places r place
      omega
    · exact (romRow_bounds new).2

theorem catalog_withCatalog {i : Index} (sound : i.Consistent) {row : CatalogRow}
    (member : row ∈ i.catalogs) (c : Catalog) (digest : Bytes) :
    (i.withCatalog c digest).catalog row = i.catalog row := by
  have different : row.id ≠ i.catalogs.length + 1 := by
    have := sound.catalog_id_le member
    omega
  have games (part : Bool) :
      (i.withCatalog c digest).gamesIn row.id part = i.gamesIn row.id part := by
    rw [withCatalog, gamesIn_withGames ?_ different, gamesIn_withGames ?_ different]
    · rfl
    · exact fun g old => sound.game_id_le old
    · intro g old
      simp only [withGames, List.mem_append, List.length_append, length_gameRows] at old ⊢
      rcases old with old | new
      · exact Nat.le_add_right_of_le (sound.game_id_le old)
      · exact (gameRow_bounds new).2.1
  simp only [catalog, games]

theorem mem_of_row? {i : Index} {digest : Bytes} {row : CatalogRow}
    (found : i.row? digest = some row) : row ∈ i.catalogs ∧ row.digest = digest :=
  ⟨List.mem_of_find?_eq_some found, by simpa using List.find?_some found⟩

theorem row?_eq_none_iff {i : Index} {digest : Bytes} :
    i.row? digest = none ↔ i.knows digest = false := by
  simp [row?, knows]

theorem row?_withCatalog (i : Index) (c : Catalog) (digest x : Bytes) :
    (i.withCatalog c digest).row? x = (i.row? x).or
      (if digest = x then some ⟨i.catalogs.length + 1, digest, c.name, c.description, false⟩
        else none) := by
  simp [row?, withCatalog, withGames, List.find?_append, List.find?_singleton]

theorem row?_marks (i : Index) {f : CatalogRow → CatalogRow} (same : ∀ c, (f c).digest = c.digest)
    (digest : Bytes) :
    ({ i with catalogs := i.catalogs.map f } : Index).row? digest = (i.row? digest).map f := by
  have seen : (fun c : CatalogRow => decide (c.digest = digest)) ∘ f
      = fun c => decide (c.digest = digest) :=
    funext fun c => by simp only [Function.comp_apply, same]
  simp only [row?, List.find?_map, seen]

theorem get?_isSome (i : Index) (digest : Bytes) : (i.get? digest).isSome = i.knows digest := by
  cases known : i.row? digest with
  | none => simp [get?, known, row?_eq_none_iff.mp known]
  | some row =>
    have : i.knows digest ≠ false := fun h => by simp [row?_eq_none_iff.mpr h] at known
    simp [get?, known, Bool.ne_false_iff.mp this]

theorem isOrphaned_isSome (i : Index) (digest : Bytes) :
    (i.isOrphaned digest).isSome = i.knows digest := by
  rw [← get?_isSome]
  simp [isOrphaned, get?]

/-- A new catalog answers to its digest and to no other. -/
theorem get?_withCatalog {i : Index} (sound : i.Consistent) {digest : Bytes}
    (unknown : i.knows digest = false) (c : Catalog) (x : Bytes) :
    (i.withCatalog c digest).get? x = if digest = x then some c else i.get? x := by
  rw [get?, row?_withCatalog]
  split
  · rename_i same
    subst same
    simp [row?_eq_none_iff.mpr unknown, catalog, gamesIn_withCatalog sound]
  · cases found : i.row? x with
    | none => simp [get?, found]
    | some row => simp [get?, found, catalog_withCatalog sound (mem_of_row? found).1]

theorem isOrphaned_withCatalog {i : Index} {digest : Bytes} (unknown : i.knows digest = false)
    (c : Catalog) (x : Bytes) :
    (i.withCatalog c digest).isOrphaned x = if digest = x then some false else i.isOrphaned x := by
  rw [isOrphaned, row?_withCatalog]
  split
  · rename_i same
    subst same
    simp [row?_eq_none_iff.mpr unknown]
  · simp [isOrphaned]

theorem get?_restore (i : Index) (digest x : Bytes) : (i.restore digest).get? x = i.get? x := by
  rw [get?, restore, row?_marks i (fun c => by split <;> rfl), get?, Option.map_map]
  congr 1
  funext row
  simp only [Function.comp_apply]
  split <;> rfl

theorem isOrphaned_restore {i : Index} {digest : Bytes} (known : i.knows digest) (x : Bytes) :
    (i.restore digest).isOrphaned x = if digest = x then some false else i.isOrphaned x := by
  rw [isOrphaned, restore, row?_marks i (fun c => by split <;> rfl)]
  split
  · rename_i same
    subst same
    cases found : i.row? digest with
    | none => simp [row?_eq_none_iff.mp found] at known
    | some row => simp [(mem_of_row? found).2]
  · rename_i other
    cases found : i.row? x with
    | none => simp [isOrphaned, found]
    | some row =>
      have : row.digest ≠ digest := fun same => other ((mem_of_row? found).2 ▸ same.symm)
      simp [isOrphaned, found, this]

theorem get?_orphanAll (i : Index) (x : Bytes) : i.orphanAll.get? x = i.get? x := by
  rw [get?, orphanAll, row?_marks i (f := fun c => { c with orphaned := true }) (fun _ => rfl),
    get?, Option.map_map]
  rfl

theorem isOrphaned_orphanAll (i : Index) (x : Bytes) :
    i.orphanAll.isOrphaned x = if i.knows x then some true else none := by
  rw [← isOrphaned_isSome, isOrphaned, orphanAll,
    row?_marks i (f := fun c => { c with orphaned := true }) (fun _ => rfl)]
  cases found : i.row? x <;> simp [isOrphaned, found]

theorem knows_orphanAll (i : Index) (x : Bytes) : i.orphanAll.knows x = i.knows x := by
  rw [← get?_isSome, get?_orphanAll, get?_isSome]

end Index
end RomLedger
