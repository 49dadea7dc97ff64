import RomLedger.Index.Basic

/- Questions to the index. A catalog is put together again from its rows; a file is looked up by its strongest
   hash, and only catalogs that are not orphaned answer. -/
namespace RomLedger.Index

def romsIn (i : Index) (game : Nat) (kind : RomKind) : List Rom :=
  i.roms.filterMap fun r => if r.game = game ∧ r.kind = kind then some r.rom else none

def game (i : Index) (g : GameRow) : Game where
  name := g.name
  description := g.description
  roms := i.romsIn g.id .rom
  disks := i.romsIn g.id .disk
  parts := i.romsIn g.id .part
  regions := i.romsIn g.id .region

def gamesIn (i : Index) (catalog : Nat) (software : Bool) : List Game :=
  (i.games.filter fun g => g.catalog = catalog ∧ g.software = software).map i.game

def catalog (i : Index) (c : CatalogRow) : Catalog where
  name := c.name
  description := c.description
  games := i.gamesIn c.id false
  software := i.gamesIn c.id true

def row? (i : Index) (digest : Bytes) : Option CatalogRow :=
  i.catalogs.find? fun c => c.digest = digest

def get? (i : Index) (digest : Bytes) : Option Catalog := (i.row? digest).map i.catalog

/-- Whether a catalog is orphaned; nothing is said of one that is not known. -/
def isOrphaned (i : Index) (digest : Bytes) : Option Bool :=
  (i.row? digest).map CatalogRow.orphaned

structure Stats where
  catalogs : Nat
  orphaned : Nat
  games : Nat
  roms : Nat
  contents : Nat
  deriving DecidableEq, Repr

def stats (i : Index) : Stats where
  catalogs := i.catalogs.length
  orphaned := (i.catalogs.filter CatalogRow.orphaned).length
  games := i.games.length
  roms := i.roms.length
  contents := i.contents.length

/-- The strongest hash of a wanted file. -/
inductive Wanted where
  | sha1 (h : Bytes)
  | md5 (h : Bytes)
  | crc (h : Bytes) (size : UInt64)
  | nothing
  deriving DecidableEq, Repr

def Wanted.ofRom (r : Rom) : Wanted :=
  match r.sha1, r.md5, r.crc with
  | some h, _, _ => .sha1 h
  | none, some h, _ => .md5 h
  | none, none, some h => .crc h r.size
  | none, none, none => .nothing

def Wanted.isMetBy : Wanted → Rom → Bool
  | .sha1 h, r => r.sha1 = some h
  | .md5 h, r => r.md5 = some h
  | .crc h size, r => r.crc = some h ∧ r.size = size
  | .nothing, _ => false

def Wanted.check : Wanted → Except SizeFault Unit
  | .crc _ size => storable size
  | _ => .ok ()

def offers (i : Index) (w : Wanted) (c : CatalogRow) : Bool :=
  i.games.any fun g => g.catalog = c.id && i.roms.any fun r => r.game = g.id && w.isMetBy r.rom

def catalogsFor (i : Index) (r : Rom) : Except SizeFault (List Catalog) :=
  let w := Wanted.ofRom r
  match w.check with
  | .error f => .error f
  | .ok () => .ok ((i.catalogs.filter fun c => !c.orphaned && i.offers w c).map i.catalog)

end RomLedger.Index
