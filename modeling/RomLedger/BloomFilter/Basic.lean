import RomLedger.Bytes.Sha1

/- Probabilistic sets of content identifiers. An item probes positions that its digest decides: two halves of
   the digest, the second made odd, are the start and the stride of a walk around the bits. -/
namespace RomLedger

/-- Bits in words of sixty-four, the lowest first, and how many positions an item probes. -/
structure BloomFilter where
  words : Array UInt64
  numBits : UInt64
  numHashes : UInt32
  deriving DecidableEq, Repr

namespace BloomFilter

def minBits : UInt64 := 64
def maxHashes : UInt32 := 32

def wordCount (numBits : UInt64) : Nat := (numBits.toNat + 63) / 64

def ofSizes (numBits : UInt64) (numHashes : UInt32) : BloomFilter :=
  let m := max numBits minBits
  ⟨Array.replicate (wordCount m) 0, m, max 1 (min numHashes maxHashes)⟩

def ln2 : Float := 0.693147180559945309417232121458

def boundedRate (rate : Float) : Float :=
  if rate < 1e-9 then 1e-9 else if rate > 0.5 then 0.5 else rate

/-- An empty filter for a number of items and a rate of false positives: `m = -n ln p / (ln 2)²`
bits, and `(m / n) ln 2` positions. -/
def ofEstimate (items : UInt64) (rate : Float) : BloomFilter :=
  let n := (max items 1).toFloat
  let m := (-n * (boundedRate rate).log / (ln2 * ln2)).ceil
  let k := (m / n * ln2).round
  ofSizes m.toUInt64 k.toUInt32

def positions (f : BloomFilter) (item : Bytes) : List UInt64 :=
  let digest := Sha1.digest item
  let start := UInt64.ofNat (Words.decode (digest.take 8))
  let stride := UInt64.ofNat (Words.decode ((digest.drop 8).take 8)) ||| 1
  (List.range f.numHashes.toNat).map fun i => (start + UInt64.ofNat i * stride) % f.numBits

def wordIndex (position : UInt64) : Nat := (position / 64).toNat
def mask (position : UInt64) : UInt64 := 1 <<< (position % 64)

def hasBit (f : BloomFilter) (position : UInt64) : Bool :=
  f.words.getD (wordIndex position) 0 &&& mask position != 0

def setBit (words : Array UInt64) (position : UInt64) : Array UInt64 :=
  words.modify (wordIndex position) (· ||| mask position)

def add (f : BloomFilter) (item : Bytes) : BloomFilter :=
  { f with words := (f.positions item).foldl setBit f.words }

def addAll (f : BloomFilter) (items : List Bytes) : BloomFilter := items.foldl add f

def contains (f : BloomFilter) (item : Bytes) : Bool := (f.positions item).all f.hasBit

end BloomFilter
end RomLedger
