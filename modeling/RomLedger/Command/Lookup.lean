import RomLedger.Bytes.Hex
import RomLedger.Command.Note
import RomLedger.Index.Query

/- Looking a hash up. Its length tells what it is the hash of: twenty bytes are the digest of a catalog or the
   SHA-1 of a file, sixteen a file's MD5, and four its CRC, which needs the size beside it. -/
namespace RomLedger.Command

inductive LookupFault where
  | notHex (text : String) (f : Hex.Fault)
  | noSize
  | noHash (length : Nat)
  | size (f : Index.SizeFault)
  deriving DecidableEq, Repr

def LookupFault.chain : LookupFault → List String
  | .notHex t f => ["Invalid hex: " ++ t, f.message]
  | .noSize => ["--size is required to look up a crc"]
  | .noHash n => [s!"unsupported hash length: {n} bytes"]
  | .size f => f.chain

def digestLength : Nat := 20

def hashBytes (text : String) : Except LookupFault Bytes :=
  (Hex.decode (Bytes.ofString (Text.trim text))).mapError (.notHex text)

def wantedRom (hash : Bytes) (size : Option UInt64) : Except LookupFault Rom :=
  if hash.length = digestLength then .ok { Rom.blank with sha1 := some hash }
  else if hash.length = 16 then .ok { Rom.blank with md5 := some hash }
  else if hash.length = 4 then
    match size with
    | some n => .ok { Rom.blank with size := n, crc := some hash }
    | none => .error .noSize
  else .error (.noHash hash.length)

def references (i : Index) (hash : Bytes) (size : Option UInt64) :
    Except LookupFault (List Catalog) :=
  match wantedRom hash size with
  | .error f => .error f
  | .ok r => (i.catalogsFor r).mapError .size

def describe (c : Catalog) : List Note :=
  [.out ("    " ++ c.name)]
    ++ (if c.description.isEmpty ∨ c.description = c.name then []
      else [.out ("      " ++ c.description)])
    ++ [.out (s!"      {c.games.length} games, {c.software.length} software, "
      ++ s!"{c.romCount} roms")]

def describeOwn (i : Index) (hash : Bytes) : List Note :=
  if hash.length = digestLength then
    match i.get? hash with
    | some c => .out "  DAT file:" :: describe c
    | none => []
  else []

def describeReferences : List Catalog → List Note
  | [] => [.out "  No DATs reference this rom"]
  | cs => .out s!"  Referenced by {cs.length} DAT(s):" :: cs.flatMap describe

/-- One hash: what is said, up to the fault if there is one. -/
def lookup (i : Index) (size : Option UInt64) (text : String) :
    List Note × Except LookupFault Unit :=
  match hashBytes text with
  | .error f => ([], .error f)
  | .ok hash =>
    let head := .out (text ++ ":") :: describeOwn i hash
    match references i hash size with
    | .error f => (head, .error f)
    | .ok cs => (head ++ describeReferences cs, .ok ())

def lookupAll (i : Index) (size : Option UInt64) : List String → List Note × Except LookupFault Unit
  | [] => ([], .ok ())
  | text :: rest =>
    match lookup i size text with
    | (notes, .error f) => (notes, .error f)
    | (notes, .ok ()) =>
      let (more, result) := lookupAll i size rest
      (notes ++ more, result)

end RomLedger.Command
