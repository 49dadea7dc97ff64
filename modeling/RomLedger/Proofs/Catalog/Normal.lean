import RomLedger.Catalog.Basic
import RomLedger.Proofs.Text.Trim

/-!
The normal form of a catalog. Its names and descriptions are trimmed and its file names have no backslashes,
and a catalog that is so is not changed any more. Nothing but these texts is changed on the way: every game
and every file stays where it is, with its size and its hashes.
-/
namespace RomLedger

open Text (Trimmed Trims)

structure Rom.Neat (r : Rom) : Prop where
  name : Trimmed r.name
  slashes : '\\' ∉ r.name.toList

structure Game.Neat (g : Game) : Prop where
  name : Trimmed g.name
  description : Trimmed g.description
  roms : ∀ r ∈ g.allRoms, r.Neat

structure Catalog.Neat (c : Catalog) : Prop where
  name : Trimmed c.name
  description : Trimmed c.description
  games : ∀ g ∈ c.allGames, g.Neat

theorem toList_slashed (s : String) : (slashed s).toList = s.toList.map fun c => if c = '\\' then '/' else c := by
  rw [slashed, String.toList_map]

theorem isBlank_slash (c : Char) : Text.isBlank (if c = '\\' then '/' else c) = Text.isBlank c := by
  split
  · rename_i same
    rw [same]
    decide
  · rfl

theorem trimmed_slashed {s : String} (trimmed : Trimmed s) : Trimmed (slashed s) := by
  obtain ⟨front, back⟩ := trimmed
  rw [Trimmed, toList_slashed, List.head?_map, List.getLast?_map]
  constructor
  · intro c first
    obtain ⟨b, there, rfl⟩ := Option.map_eq_some_iff.mp first
    exact (isBlank_slash b).trans (front b there)
  · intro c last
    obtain ⟨b, there, rfl⟩ := Option.map_eq_some_iff.mp last
    exact (isBlank_slash b).trans (back b there)

theorem not_mem_slashed (s : String) : '\\' ∉ (slashed s).toList := by
  intro member
  rw [toList_slashed] at member
  obtain ⟨c, -, same⟩ := List.mem_map.mp member
  split at same
  · cases same
  · rename_i other
    exact other same

theorem map_of_fixed {α : Type} {f : α → α} {xs : List α} (fixed : ∀ a ∈ xs, f a = a) : xs.map f = xs :=
  (List.map_congr_left fixed).trans (List.map_id xs)

theorem slashed_of_not_mem {s : String} (none_ : '\\' ∉ s.toList) : slashed s = s := by
  apply String.toList_inj.mp
  rw [toList_slashed]
  apply map_of_fixed
  intro c member
  have other : c ≠ '\\' := by
    rintro rfl
    exact none_ member
  exact if_neg other

theorem Rom.neat_normalize (r : Rom) : r.normalize.Neat where
  name := trimmed_slashed (Text.trimmed_trim r.name)
  slashes := not_mem_slashed _

theorem Rom.normalize_of_neat {r : Rom} (neat : r.Neat) : r.normalize = r := by
  rw [normalize, Text.trim_of_trimmed neat.name, slashed_of_not_mem neat.slashes]

theorem Game.allRoms_normalize (g : Game) : g.normalize.allRoms = g.allRoms.map Rom.normalize := by
  simp only [allRoms, normalize, List.map_append]

theorem Game.neat_normalize (g : Game) : g.normalize.Neat where
  name := Text.trimmed_trim g.name
  description := Text.trimmed_trim g.description
  roms := by
    intro r member
    rw [allRoms_normalize] at member
    obtain ⟨r, -, rfl⟩ := List.mem_map.mp member
    exact r.neat_normalize

theorem map_normalize_of_neat {rs : List Rom} (neat : ∀ r ∈ rs, r.Neat) : rs.map Rom.normalize = rs :=
  map_of_fixed fun r member => Rom.normalize_of_neat (neat r member)

theorem Game.normalize_of_neat {g : Game} (neat : g.Neat) : g.normalize = g := by
  have kinds := neat.roms
  simp only [allRoms, List.forall_mem_append] at kinds
  obtain ⟨⟨⟨roms, disks⟩, parts⟩, regions⟩ := kinds
  rw [normalize, Text.trim_of_trimmed neat.name, Text.trim_of_trimmed neat.description,
    map_normalize_of_neat roms, map_normalize_of_neat disks, map_normalize_of_neat parts,
    map_normalize_of_neat regions]

theorem Catalog.allGames_normalize (c : Catalog) : c.normalize.allGames = c.allGames.map Game.normalize := by
  simp only [allGames, normalize, List.map_append]

theorem Catalog.neat_normalize (c : Catalog) : c.normalize.Neat where
  name := Text.trimmed_trim c.name
  description := Text.trimmed_trim c.description
  games := by
    intro g member
    rw [allGames_normalize] at member
    obtain ⟨g, -, rfl⟩ := List.mem_map.mp member
    exact g.neat_normalize

theorem Catalog.normalize_of_neat {c : Catalog} (neat : c.Neat) : c.normalize = c := by
  have either := neat.games
  simp only [allGames, List.forall_mem_append] at either
  have games : c.games.map Game.normalize = c.games :=
    map_of_fixed fun g member => Game.normalize_of_neat (either.1 g member)
  have software : c.software.map Game.normalize = c.software :=
    map_of_fixed fun g member => Game.normalize_of_neat (either.2 g member)
  rw [normalize, Text.trim_of_trimmed neat.name, Text.trim_of_trimmed neat.description, games, software]

structure Rom.Tidied (r r' : Rom) : Prop where
  name : ∃ t, Trims r.name t ∧ r'.name = slashed t
  size : r'.size = r.size
  crc : r'.crc = r.crc
  md5 : r'.md5 = r.md5
  sha1 : r'.sha1 = r.sha1

/-- The same game, with its texts trimmed: of each kind it has the same files in the same order. -/
structure Game.Tidied (g g' : Game) : Prop where
  name : Trims g.name g'.name
  description : Trims g.description g'.description
  roms : List.Forall₂ Rom.Tidied g.roms g'.roms
  disks : List.Forall₂ Rom.Tidied g.disks g'.disks
  parts : List.Forall₂ Rom.Tidied g.parts g'.parts
  regions : List.Forall₂ Rom.Tidied g.regions g'.regions

/-- The same catalog, with its texts trimmed: it has the same games and software entries in the same order. -/
structure Catalog.Tidied (c c' : Catalog) : Prop where
  name : Trims c.name c'.name
  description : Trims c.description c'.description
  games : List.Forall₂ Game.Tidied c.games c'.games
  software : List.Forall₂ Game.Tidied c.software c'.software

theorem forall₂_map {α : Type} {p : α → α → Prop} {f : α → α} (each : ∀ a, p a (f a)) (xs : List α) :
    List.Forall₂ p xs (xs.map f) :=
  List.forall₂_map_right_iff.mpr (List.forall₂_same.mpr fun a _ => each a)

theorem Rom.tidied_normalize (r : Rom) : r.Tidied r.normalize :=
  ⟨⟨_, Text.trims_trim r.name, rfl⟩, rfl, rfl, rfl, rfl⟩

theorem Game.tidied_normalize (g : Game) : g.Tidied g.normalize where
  name := Text.trims_trim g.name
  description := Text.trims_trim g.description
  roms := forall₂_map Rom.tidied_normalize g.roms
  disks := forall₂_map Rom.tidied_normalize g.disks
  parts := forall₂_map Rom.tidied_normalize g.parts
  regions := forall₂_map Rom.tidied_normalize g.regions

theorem Catalog.tidied_normalize (c : Catalog) : c.Tidied c.normalize where
  name := Text.trims_trim c.name
  description := Text.trims_trim c.description
  games := forall₂_map Game.tidied_normalize c.games
  software := forall₂_map Game.tidied_normalize c.software

theorem Game.Tidied.allRoms {g g' : Game} (tidied : g.Tidied g') :
    List.Forall₂ Rom.Tidied g.allRoms g'.allRoms :=
  List.rel_append (List.rel_append (List.rel_append tidied.roms tidied.disks) tidied.parts) tidied.regions

theorem Catalog.Tidied.allGames {c c' : Catalog} (tidied : c.Tidied c') :
    List.Forall₂ Game.Tidied c.allGames c'.allGames :=
  List.rel_append tidied.games tidied.software

theorem Catalog.Tidied.allRoms {c c' : Catalog} (tidied : c.Tidied c') :
    List.Forall₂ Rom.Tidied (c.allGames.flatMap Game.allRoms) (c'.allGames.flatMap Game.allRoms) :=
  List.rel_flatMap tidied.allGames fun _ _ game => game.allRoms

theorem Catalog.Tidied.romCount {c c' : Catalog} (tidied : c.Tidied c') : c'.romCount = c.romCount :=
  tidied.allRoms.length_eq.symm

/-- A normal form is not changed by normalizing; its texts are trimmed and its file names have no backslashes; and
it is the same catalog up to these texts, with as many files and with all games and all files in the same order. -/
theorem Catalog.normalize_tidies (c : Catalog) :
    c.normalize.normalize = c.normalize ∧ c.normalize.Neat ∧ c.Tidied c.normalize ∧
      c.normalize.romCount = c.romCount ∧
      List.Forall₂ Game.Tidied c.allGames c.normalize.allGames ∧
      List.Forall₂ Rom.Tidied (c.allGames.flatMap Game.allRoms) (c.normalize.allGames.flatMap Game.allRoms) := by
  have neat := c.neat_normalize
  have tidied := c.tidied_normalize
  exact ⟨normalize_of_neat neat, neat, tidied, tidied.romCount, tidied.allGames, tidied.allRoms⟩

end RomLedger
