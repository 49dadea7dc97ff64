import RomLedger.Catalog.Basic
import RomLedger.Catalog.Coercion
import RomLedger.Markup.Schema

/- Datafiles and software lists as markup. A draft holds the texts of an element as they were written; only
   the conversion of a draft looks into its hashes, and a malformed one is dropped there without harm to
   anything else. -/
namespace RomLedger.Markup

structure RomDraft where
  name : String
  size : UInt64
  crc : Option String
  md5 : Option String
  sha1 : Option String
  deriving DecidableEq, Repr

structure GameDraft where
  name : String
  description : Option String
  roms : List RomDraft
  disks : List RomDraft
  parts : List (List (List RomDraft))
  regions : List (List RomDraft)
  deriving DecidableEq, Repr

structure HeaderDraft where
  name : Option String
  description : Option String
  deriving DecidableEq, Repr

structure CatalogDraft where
  name : Option String
  description : Option String
  header : Option HeaderDraft
  games : List GameDraft
  machines : List GameDraft
  software : List GameDraft
  deriving DecidableEq, Repr

def RomDraft.blank : RomDraft := ⟨"", 0, none, none, none⟩
def GameDraft.blank : GameDraft := ⟨"", none, [], [], [], []⟩
def HeaderDraft.blank : HeaderDraft := ⟨none, none⟩
def CatalogDraft.blank : CatalogDraft := ⟨none, none, none, [], [], []⟩

/-- A hash as written; a malformed one counts as absent. -/
def decodeHash (digits : Nat) (text : Option String) : Option Bytes :=
  match text with
  | none => none
  | some s =>
    match Coercion.hash digits s with
    | .ok b => b
    | .error _ => none

def RomDraft.toRom (d : RomDraft) : Rom where
  name := d.name
  size := d.size
  crc := decodeHash Coercion.crcDigits d.crc
  md5 := decodeHash Coercion.md5Digits d.md5
  sha1 := decodeHash Coercion.sha1Digits d.sha1

def GameDraft.toGame (d : GameDraft) : Game where
  name := d.name
  description := d.description.getD ""
  roms := d.roms.map RomDraft.toRom
  disks := d.disks.map RomDraft.toRom
  parts := d.parts.flatten.flatten.map RomDraft.toRom
  regions := d.regions.flatten.map RomDraft.toRom

/-- What the header gives comes before what the root's attributes give. -/
def CatalogDraft.toCatalog (d : CatalogDraft) : Catalog where
  name := ((d.header.bind HeaderDraft.name).or d.name).getD ""
  description := ((d.header.bind HeaderDraft.description).or d.description).getD ""
  games := (d.games ++ d.machines).map GameDraft.toGame
  software := d.software.map GameDraft.toGame

namespace Schema

def rom : Schema RomDraft where
  blank := .blank
  attribute?
    | "name" => some (text fun s d => { d with name := s })
    | "size" => some (number fun n d => { d with size := n })
    | "crc" => some (text fun s d => { d with crc := some s })
    | "md5" => some (text fun s d => { d with md5 := some s })
    | "sha1" => some (text fun s d => { d with sha1 := some s })
    | _ => none
  child? _ := none

def area : Schema (List RomDraft) where
  blank := []
  attribute? _ := none
  child?
    | "rom" => some (each "struct XmlRom" rom fun r d => d ++ [r])
    | _ => none

def part : Schema (List (List RomDraft)) where
  blank := []
  attribute? _ := none
  child?
    | "dataarea" => some (each "struct XmlRegion" area fun r d => d ++ [r])
    | _ => none

def game : Schema GameDraft where
  blank := .blank
  attribute?
    | "name" => some (text fun s d => { d with name := s })
    | _ => none
  child?
    | "description" => some (.single (leaf fun s d => { d with description := some s }))
    | "rom" => some (each "struct XmlRom" rom fun r d => { d with roms := d.roms ++ [r] })
    | "disk" => some (each "struct XmlRom" rom fun r d => { d with disks := d.disks ++ [r] })
    | "part" => some (each "struct XmlPart" part fun p d => { d with parts := d.parts ++ [p] })
    | "region" =>
      some (each "struct XmlRegion" area fun r d => { d with regions := d.regions ++ [r] })
    | _ => none

def header : Schema HeaderDraft where
  blank := .blank
  attribute? _ := none
  child?
    | "name" => some (.single (leaf fun s d => { d with name := some s }))
    | "description" => some (.single (leaf fun s d => { d with description := some s }))
    | _ => none

def catalog : Schema CatalogDraft where
  blank := .blank
  attribute?
    | "name" => some (text fun s d => { d with name := some s })
    | "description" => some (text fun s d => { d with description := some s })
    | _ => none
  child?
    | "header" => some (.single fun t => do
      let h ← header.read t
      pure fun d => { d with header := some h })
    | "game" => some (each "struct XmlGame" game fun g d => { d with games := d.games ++ [g] })
    | "machine" =>
      some (each "struct XmlGame" game fun g d => { d with machines := d.machines ++ [g] })
    | "software" =>
      some (each "struct XmlGame" game fun g d => { d with software := d.software ++ [g] })
    | _ => none

end Schema
end RomLedger.Markup
