import RomLedger.Bytes
import RomLedger.Text.Basic

/- Catalogs: named collections of games, each with the files that it expects. Software entries have the shape
   of games and come after them wherever both are listed. A hash that is absent is `none`; it is never filled
   with zeros. -/
namespace RomLedger

structure Rom where
  name : String
  size : UInt64
  crc : Option Bytes
  md5 : Option Bytes
  sha1 : Option Bytes
  deriving DecidableEq, Repr, Inhabited

def Rom.blank : Rom := ⟨"", 0, none, none, none⟩

/-- A game or a software entry with its expected files, by kind. -/
structure Game where
  name : String
  description : String
  roms : List Rom
  disks : List Rom
  parts : List Rom
  regions : List Rom
  deriving DecidableEq, Repr, Inhabited

def Game.blank : Game := ⟨"", "", [], [], [], []⟩

structure Catalog where
  name : String
  description : String
  games : List Game
  software : List Game
  deriving DecidableEq, Repr, Inhabited

def Catalog.blank : Catalog := ⟨"", "", [], []⟩

def slashed (s : String) : String := s.map fun c => if c = '\\' then '/' else c

namespace Rom

def normalize (r : Rom) : Rom := { r with name := slashed (Text.trim r.name) }

end Rom

namespace Game

def allRoms (g : Game) : List Rom := g.roms ++ g.disks ++ g.parts ++ g.regions

def normalize (g : Game) : Game where
  name := Text.trim g.name
  description := Text.trim g.description
  roms := g.roms.map Rom.normalize
  disks := g.disks.map Rom.normalize
  parts := g.parts.map Rom.normalize
  regions := g.regions.map Rom.normalize

end Game

namespace Catalog

def allGames (c : Catalog) : List Game := c.games ++ c.software

def romCount (c : Catalog) : Nat := (c.allGames.flatMap Game.allRoms).length

/-- Trims every name and description; file names also get slashes. -/
def normalize (c : Catalog) : Catalog where
  name := Text.trim c.name
  description := Text.trim c.description
  games := c.games.map Game.normalize
  software := c.software.map Game.normalize

end Catalog

def located (path : String) (line : Nat) (cause : String) : String :=
  s!"error in file {path} on line {line}: {cause}"

end RomLedger
