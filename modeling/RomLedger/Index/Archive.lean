import RomLedger.Bytes.Utf8
import RomLedger.Index.Basic

/- The bytes of an index in a file of its own. Every number takes a word, every text and every list stands
   behind its length, and a mark at the front tells the file from any other. -/
namespace RomLedger.Archive

def mark : Bytes := Bytes.ofString "RomLedger index 1\n"

def putWord (n : Nat) : Bytes := Words.encode 8 n

def putBytes (b : Bytes) : Bytes := putWord b.length ++ b

def putText (s : String) : Bytes := putBytes (Bytes.ofString s)

def putFlag (b : Bool) : Bytes := [if b then 1 else 0]

def putHash : Option Bytes → Bytes
  | none => [0]
  | some b => 1 :: putBytes b

def putList {α : Type} (put : α → Bytes) (xs : List α) : Bytes :=
  putWord xs.length ++ xs.flatMap put

def putCatalog (c : CatalogRow) : Bytes :=
  putWord c.id ++ putBytes c.digest ++ putText c.name ++ putText c.description ++ putFlag c.orphaned

def putGame (g : GameRow) : Bytes :=
  putWord g.id ++ putWord g.catalog ++ putText g.name ++ putText g.description ++ putFlag g.software

def kindCode : RomKind → UInt8
  | .rom => 0
  | .disk => 1
  | .part => 2
  | .region => 3

def putRom (r : RomRow) : Bytes :=
  putWord r.game ++ [kindCode r.kind] ++ putText r.rom.name ++ putWord r.rom.size.toNat
    ++ putHash r.rom.crc ++ putHash r.rom.md5 ++ putHash r.rom.sha1

def putContent (c : ContentRow) : Bytes :=
  putBytes c.sha1 ++ putHash c.md5 ++ putHash c.crc ++ putWord c.size.toNat

def encode (i : Index) : Bytes :=
  mark ++ putList putCatalog i.catalogs ++ putList putGame i.games ++ putList putRom i.roms
    ++ putList putContent i.contents

/-- Taking values from the front of a byte string, as long as there are any. -/
abbrev Take := StateT Bytes Option

def takeBytes (n : Nat) : Take Bytes := fun b =>
  let front := b.take n
  if front.length = n then some (front, b.drop n) else none

def takeByte : Take UInt8 := fun
  | [] => none
  | b :: rest => some (b, rest)

def takeWord : Take Nat := do return Words.decode (← takeBytes 8)

def takeBlock : Take Bytes := do takeBytes (← takeWord)

def takeText : Take String := do
  match Utf8.decode (← takeBlock) with
  | .ok s => return s
  | .error _ => failure

def takeFlag : Take Bool := do return (← takeByte) != 0

def takeHash : Take (Option Bytes) := do
  if ← takeFlag then return some (← takeBlock) else return none

def takeMany {α : Type} (take : Take α) : Nat → Take (List α)
  | 0 => return []
  | n + 1 => do
    let x ← take
    return x :: (← takeMany take n)

def takeList {α : Type} (take : Take α) : Take (List α) := do takeMany take (← takeWord)

def takeCatalog : Take CatalogRow := do
  return ⟨← takeWord, ← takeBlock, ← takeText, ← takeText, ← takeFlag⟩

def takeGame : Take GameRow := do
  return ⟨← takeWord, ← takeWord, ← takeText, ← takeText, ← takeFlag⟩

def kindOf? (b : UInt8) : Option RomKind :=
  [RomKind.rom, .disk, .part, .region].find? fun k => kindCode k == b

def takeRom : Take RomRow := do
  let game ← takeWord
  let kind ← kindOf? (← takeByte)
  let name ← takeText
  let size ← takeWord
  return ⟨game, kind, ⟨name, UInt64.ofNat size, ← takeHash, ← takeHash, ← takeHash⟩⟩

def takeContent : Take ContentRow := do
  let sha1 ← takeBlock
  let md5 ← takeHash
  let crc ← takeHash
  return ⟨sha1, md5, crc, UInt64.ofNat (← takeWord)⟩

def takeIndex : Take Index := do
  let front ← takeBytes mark.length
  if front = mark then
    return ⟨← takeList takeCatalog, ← takeList takeGame, ← takeList takeRom, ← takeList takeContent⟩
  else failure

def decode (b : Bytes) : Option Index :=
  match takeIndex b with
  | some (i, []) => some i
  | _ => none

end RomLedger.Archive
