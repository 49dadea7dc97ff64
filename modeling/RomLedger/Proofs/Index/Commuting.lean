import RomLedger.Proofs.Index.Lookup

/- Writes commute. The tables that come of one set of writes differ with the order in which they were
   made, as identities are given in that order; the answers do not, as long as writes of one digest have
   one catalog. -/
namespace RomLedger

namespace Write

def content? : Write → Option Bytes
  | .catalog _ _ => none
  | .content r => r.sha1

theorem catalogFor?_eq_some_iff {w : Write} {x : Bytes} {c : Catalog} :
    w.catalogFor? x = some c ↔ w = .catalog c x := by
  cases w with
  | catalog d y =>
    simp only [catalogFor?, Option.ite_none_right_eq_some, Option.some.injEq, catalog.injEq]
    exact and_comm
  | content r => simp [catalogFor?]

theorem findSome?_catalogFor?_perm {ws vs : List Write} (perm : ws.Perm vs) {x : Bytes}
    (agree : ∀ c d, .catalog c x ∈ ws → .catalog d x ∈ ws → c = d) :
    ws.findSome? (catalogFor? x) = vs.findSome? (catalogFor? x) := by
  cases first : ws.findSome? (catalogFor? x) with
  | none =>
    symm
    rw [List.findSome?_eq_none_iff] at first ⊢
    exact fun w member => first w (perm.mem_iff.mpr member)
  | some c =>
    obtain ⟨w, member, written⟩ := List.exists_of_findSome?_eq_some first
    rw [catalogFor?_eq_some_iff] at written
    subst written
    have known : (vs.findSome? (catalogFor? x)).isSome :=
      List.findSome?_isSome_iff.mpr ⟨_, perm.mem_iff.mp member, by simp [catalogFor?]⟩
    obtain ⟨d, second⟩ := Option.isSome_iff_exists.mp known
    obtain ⟨v, member', written'⟩ := List.exists_of_findSome?_eq_some second
    rw [catalogFor?_eq_some_iff] at written'
    subst written'
    rw [second, agree _ _ member (perm.mem_iff.mpr member')]

end Write

namespace Shelf

variable {s t : Shelf}

theorem mem_volumes_iff (distinct : s.Distinct) {v : Volume} :
    v ∈ s.volumes ↔ s.get? v.digest = some v.catalog ∧ s.isOrphaned v.digest = some v.orphaned := by
  constructor
  · intro member
    have found := (find?_eq_some_iff distinct).mpr ⟨member, rfl⟩
    rw [get?, isOrphaned, found]
    exact ⟨rfl, rfl⟩
  · rintro ⟨known, mark⟩
    obtain ⟨u, found, catalog⟩ := Option.map_eq_some_iff.mp known
    rw [isOrphaned, found, Option.map_some, Option.some.injEq] at mark
    obtain ⟨member, digest⟩ := (find?_eq_some_iff distinct).mp found
    obtain ⟨x, c, o⟩ := u
    obtain ⟨x', c', o'⟩ := v
    cases digest
    cases catalog
    cases mark
    exact member

theorem volumes_perm (distinct : s.Distinct) (distinct' : t.Distinct) (get? : ∀ x, s.get? x = t.get? x)
    (isOrphaned : ∀ x, s.isOrphaned x = t.isOrphaned x) : s.volumes.Perm t.volumes := by
  rw [List.perm_ext_iff_of_nodup distinct.of_map distinct'.of_map]
  intro v
  rw [mem_volumes_iff distinct, mem_volumes_iff distinct', get?, isOrphaned]

theorem stats_perm (volumes : s.volumes.Perm t.volumes) (contents : s.contents = t.contents) :
    s.stats = t.stats := by
  simp only [stats, volumes.length_eq, volumes.countP_eq, (volumes.map _).sum_eq, contents]

theorem contents_commit {ws : List Write} (committed : s.commit ws = some t) :
    t.contents = s.contents ∪ (ws.filterMap Write.content?).toFinset := by
  induction ws generalizing s with
  | nil =>
    cases committed
    exact (Finset.union_empty _).symm
  | cons w rest ih =>
    rw [commit, List.foldlM_cons] at committed
    obtain ⟨u, first, later⟩ := Option.bind_eq_some_iff.mp committed
    rw [ih later]
    cases w with
    | catalog c digest =>
      have same : u.contents = s.contents := by
        simp only [apply, put] at first
        split at first
        · cases first
          rfl
        · split at first <;> cases first
          rfl
      rw [same]
      rfl
    | content r =>
      simp only [apply, note] at first
      split at first
      · rename_i unhashed
        cases first
        rw [List.filterMap_cons_none (show Write.content? (.content r) = none from unhashed)]
      · rename_i sha1 hashed
        split at first <;> cases first
        rw [List.filterMap_cons_some (show Write.content? (.content r) = some sha1 from hashed),
          List.toFinset_cons, Finset.insert_union, Finset.union_insert]

end Shelf

namespace Index

theorem sum_by_owner {α : Type} (owner weight : α → Nat) {n : Nat} {l : List α}
    (inside : ∀ a ∈ l, 1 ≤ owner a ∧ owner a ≤ n) :
    ((List.range' 1 n).map fun k => ((l.filter fun a => owner a = k).map weight).sum).sum
      = (l.map weight).sum := by
  rw [← List.sum_toFinset _ List.nodup_range']
  induction l with
  | nil => simp
  | cons a rest ih =>
    obtain ⟨here, later⟩ := List.forall_mem_cons.mp inside
    have own (k : Nat) : (((a :: rest).filter fun b => owner b = k).map weight).sum
        = (if owner a = k then weight a else 0) + ((rest.filter fun b => owner b = k).map weight).sum := by
      by_cases same : owner a = k <;> simp [same]
    have among : owner a ∈ (List.range' 1 n).toFinset := by
      rw [List.mem_toFinset, List.mem_range'_1]
      omega
    rw [Finset.sum_congr rfl fun k _ => own k, Finset.sum_add_distrib, Finset.sum_ite_eq, if_pos among,
      ih later, List.map_cons, List.sum_cons]

theorem sum_sections (weight : Game → Nat) (i : Index) (row : CatalogRow) :
    ((i.catalog row).allGames.map weight).sum
      = ((i.games.filter fun g => g.catalog = row.id).map fun g => weight (i.game g)).sum := by
  simp only [Catalog.allGames, catalog, gamesIn, List.map_append, List.sum_append, List.map_map,
    Bool.decide_and, Bool.decide_eq_true, Bool.decide_eq_false]
  induction i.games with
  | nil => rfl
  | cons g rest ih =>
    by_cases own : g.catalog = row.id
    · cases part : g.software <;> simp [own, part] <;> omega
    · simpa [own] using ih

theorem length_allRoms_game (i : Index) (row : GameRow) :
    (i.game row).allRoms.length = (i.roms.filter fun r => r.game = row.id).length := by
  simp only [Game.allRoms, game, romsIn, List.length_append]
  induction i.roms with
  | nil => rfl
  | cons r rest ih =>
    by_cases own : r.game = row.id
    · cases kind : r.kind <;> simp [own, kind] <;> omega
    · simpa [own] using ih

theorem counted_of_consistent {i : Index} (sound : i.Consistent) : i.Counted := by
  have byCatalog (weight : Game → Nat) :
      (i.catalogs.map fun row => ((i.catalog row).allGames.map weight).sum).sum
        = (i.games.map fun g => weight (i.game g)).sum := by
    rw [← sum_by_owner GameRow.catalog _ sound.owners, ← sound.catalog_ids, List.map_map]
    simp only [sum_sections]
    rfl
  refine ⟨sound, ?_, ?_⟩
  · have each := byCatalog fun _ => 1
    simp only [List.map_const', List.sum_replicate_nat, Nat.mul_one] at each
    rw [← each]
    simp only [Shelf.stats, shelf, List.map_map, Catalog.allGames, List.length_append]
    rfl
  · have each := byCatalog fun g => g.allRoms.length
    have byGame := sum_by_owner _ (fun _ => 1) sound.places
    simp only [List.map_const', List.sum_replicate_nat, Nat.mul_one] at byGame
    rw [← byGame, ← sound.game_ids, List.map_map]
    simp only [length_allRoms_game] at each
    rw [Function.comp_def, ← each]
    simp only [Shelf.stats, shelf, List.map_map, Catalog.romCount, List.length_flatMap]
    rfl

/-- Two indexes that answer every question alike; the order of the catalogs found for a file is left open. -/
structure Alike (i j : Index) : Prop where
  get? : ∀ x, i.get? x = j.get? x
  isOrphaned : ∀ x, i.isOrphaned x = j.isOrphaned x
  stats : i.stats = j.stats
  catalogsFor : ∀ wanted, (∃ f, i.catalogsFor wanted = .error f ∧ j.catalogsFor wanted = .error f) ∨
    ∃ cs ds, i.catalogsFor wanted = .ok cs ∧ j.catalogsFor wanted = .ok ds ∧ cs.Perm ds

variable {i j k : Index}

theorem alike_of_answers (sound : i.Consistent) (sound' : j.Consistent) (get? : ∀ x, i.get? x = j.get? x)
    (isOrphaned : ∀ x, i.isOrphaned x = j.isOrphaned x) (contents : i.shelf.contents = j.shelf.contents) :
    i.Alike j := by
  have volumes : i.shelf.volumes.Perm j.shelf.volumes := by
    apply Shelf.volumes_perm sound.distinct sound'.distinct
    · intro x
      rw [get?_shelf, get?_shelf, get?]
    · intro x
      rw [isOrphaned_shelf, isOrphaned_shelf, isOrphaned]
  refine ⟨get?, isOrphaned, ?_, fun wanted => ?_⟩
  · rw [← stats_shelf (counted_of_consistent sound), ← stats_shelf (counted_of_consistent sound'),
      Shelf.stats_perm volumes contents]
  · rw [catalogsFor_eq, catalogsFor_eq]
    cases (Wanted.ofRom wanted).check with
    | error f => exact .inl ⟨f, rfl, rfl⟩
    | ok u => exact .inr ⟨_, _, rfl, rfl, (volumes.filter _).map _⟩

theorem contents_applyAll (sound : i.Consistent) {ws : List Write} (applied : Batch.applyAll i ws = .ok j) :
    j.shelf.contents = i.shelf.contents ∪ (ws.filterMap Write.content?).toFinset := by
  have follows := applyAll_follows (counted_of_consistent sound) ws
  rw [applied] at follows
  generalize committed : i.shelf.commit ws = t at follows
  cases follows with
  | changed _ => exact Shelf.contents_commit committed

/-- In whatever order writes are made, a digest that was known, or whose writes agree, has the same catalog. -/
theorem get?_perm (sound : i.Consistent) {ws vs : List Write} (perm : ws.Perm vs)
    (applied : Batch.applyAll i ws = .ok j) (applied' : Batch.applyAll i vs = .ok k) {x : Bytes}
    (settled : i.knows x = true ∨ ∀ c d, .catalog c x ∈ ws → .catalog d x ∈ ws → c = d) :
    j.get? x = k.get? x := by
  rw [Batch.get?_applyAll sound applied, Batch.get?_applyAll sound applied']
  rcases settled with known | agree
  · have held : (i.get? x).isSome = true := by rwa [get?_isSome]
    rw [Option.or_of_isSome held, Option.or_of_isSome held]
  · rw [Write.findSome?_catalogFor?_perm perm agree]

theorem alike_of_perm (sound : i.Consistent) {ws vs : List Write} (perm : ws.Perm vs)
    (applied : Batch.applyAll i ws = .ok j) (applied' : Batch.applyAll i vs = .ok k)
    (catalogs : ∀ x, j.get? x = k.get? x) : j.Alike k := by
  refine alike_of_answers (Batch.applyAll_consistent sound applied) (Batch.applyAll_consistent sound applied')
    catalogs (fun x => ?_) ?_
  · simp only [Batch.isOrphaned_applyAll applied, Batch.isOrphaned_applyAll applied',
      (perm.filterMap _).mem_iff]
  · rw [contents_applyAll sound applied, contents_applyAll sound applied',
      List.toFinset_eq_of_perm _ _ (perm.filterMap _)]

end Index
end RomLedger
