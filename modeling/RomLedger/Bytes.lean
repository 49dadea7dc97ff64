/- Bytes are plain lists, so that every reader below can recurse on its input. Here are the two measures that
   all readers share, how many line ends a run of bytes holds and which bytes count as ASCII white space, and
   machine words as little-endian bytes. -/
namespace RomLedger

abbrev Bytes := List UInt8

namespace Bytes

def ofString (s : String) : Bytes := s.toList.flatMap String.utf8EncodeChar

def newline : UInt8 := 10

def newlines (b : Bytes) : Nat := b.count newline

/-- Space, tab, line feed, form feed and carriage return; the vertical tab is not one of them. -/
def isBlank (b : UInt8) : Bool := b == 32 || b == 9 || b == 10 || b == 12 || b == 13

def mark : Bytes := [0xEF, 0xBB, 0xBF]

def withoutMark : Bytes → Bytes
  | 0xEF :: 0xBB :: 0xBF :: rest => rest
  | b => b

end Bytes

namespace Words

def encode : Nat → Nat → Bytes
  | 0, _ => []
  | n + 1, v => UInt8.ofNat (v % 256) :: encode n (v / 256)

def decode : Bytes → Nat
  | [] => 0
  | b :: rest => b.toNat + 256 * decode rest

/-- The 64-bit words of a byte string, eight bytes each, behind those in `words`; bytes left over at
the end are dropped. -/
def decode64sFrom (words : Array UInt64) : Bytes → Array UInt64
  | a :: b :: c :: d :: e :: f :: g :: h :: rest =>
    decode64sFrom (words.push (UInt64.ofNat (decode [a, b, c, d, e, f, g, h]))) rest
  | _ => words

def decode64s (b : Bytes) : Array UInt64 := decode64sFrom #[] b

def encode64s (words : Array UInt64) : Bytes := words.toList.flatMap fun w => encode 8 w.toNat

end Words
end RomLedger
