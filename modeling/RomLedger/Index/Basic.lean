import RomLedger.Catalog.Basic
import RomLedger.Text.Numeral

/- The index: tables of catalogs, games, files and contents, each row with an identity that rows of other
   tables refer to. Rows are never taken away, so a row's identity is one more than the number of rows before
   it. -/
namespace RomLedger

inductive RomKind where
  | rom
  | disk
  | part
  | region
  deriving DecidableEq, Repr

structure CatalogRow where
  id : Nat
  digest : Bytes
  name : String
  description : String
  orphaned : Bool
  deriving DecidableEq, Repr

structure GameRow where
  id : Nat
  catalog : Nat
  name : String
  description : String
  software : Bool
  deriving DecidableEq, Repr

structure RomRow where
  game : Nat
  kind : RomKind
  rom : Rom
  deriving DecidableEq, Repr

/-- Hashes of content that is known by its SHA-1. -/
structure ContentRow where
  sha1 : Bytes
  md5 : Option Bytes
  crc : Option Bytes
  size : UInt64
  deriving DecidableEq, Repr

structure Index where
  catalogs : List CatalogRow
  games : List GameRow
  roms : List RomRow
  contents : List ContentRow
  deriving DecidableEq, Repr

namespace Index

def empty : Index := ⟨[], [], [], []⟩

structure SizeFault where
  size : UInt64
  deriving DecidableEq, Repr

def SizeFault.chain (f : SizeFault) : List String :=
  [s!"rom size out of range: {f.size.toNat}", Numeral.Fault.tooLarge.message]

def storable (size : UInt64) : Except SizeFault Unit :=
  if size.toNat ≤ Numeral.max63 then .ok () else .error ⟨size⟩

/-- The files of a game with their kinds, in the order of their rows. -/
def romsOf (g : Game) : List (RomKind × Rom) :=
  g.roms.map (RomKind.rom, ·) ++ g.disks.map (RomKind.disk, ·) ++ g.parts.map (RomKind.part, ·)
    ++ g.regions.map (RomKind.region, ·)

def checkRoms : List (RomKind × Rom) → Except SizeFault Unit
  | [] => .ok ()
  | (_, r) :: rest =>
    match storable r.size with
    | .ok () => checkRoms rest
    | .error f => .error f

def insertGame (catalog : Nat) (software : Bool) (i : Index) (g : Game) : Except SizeFault Index :=
  let id := i.games.length + 1
  match checkRoms (romsOf g) with
  | .error f => .error f
  | .ok () =>
    .ok { i with
      games := i.games ++ [⟨id, catalog, g.name, g.description, software⟩]
      roms := i.roms ++ (romsOf g).map fun r => ⟨id, r.1, r.2⟩ }

def insertGames (catalog : Nat) (software : Bool) (i : Index) : List Game → Except SizeFault Index
  | [] => .ok i
  | g :: rest =>
    match insertGame catalog software i g with
    | .ok i => insertGames catalog software i rest
    | .error f => .error f

def knows (i : Index) (digest : Bytes) : Bool := i.catalogs.any fun c => c.digest = digest

def restore (i : Index) (digest : Bytes) : Index :=
  { i with catalogs := i.catalogs.map fun c =>
      if c.digest = digest then { c with orphaned := false } else c }

def insertCatalog (i : Index) (c : Catalog) (digest : Bytes) : Except SizeFault Index :=
  if i.knows digest then .ok (i.restore digest)
  else
    let id := i.catalogs.length + 1
    let row : CatalogRow := ⟨id, digest, c.name, c.description, false⟩
    match insertGames id false { i with catalogs := i.catalogs ++ [row] } c.games with
    | .ok i => insertGames id true i c.software
    | .error f => .error f

def ContentRow.merge (c : ContentRow) (r : Rom) : ContentRow :=
  { c with md5 := c.md5.or r.md5, crc := c.crc.or r.crc }

def insertContent (i : Index) (r : Rom) : Except SizeFault Index :=
  match r.sha1 with
  | none => .ok i
  | some sha1 =>
    match storable r.size with
    | .error f => .error f
    | .ok () =>
      if i.contents.any fun c => c.sha1 = sha1 then
        .ok { i with contents := i.contents.map fun c =>
                if c.sha1 = sha1 then ContentRow.merge c r else c }
      else .ok { i with contents := i.contents ++ [⟨sha1, r.md5, r.crc, r.size⟩] }

def orphanAll (i : Index) : Index :=
  { i with catalogs := i.catalogs.map fun c => { c with orphaned := true } }

end Index
end RomLedger
