import RomLedger.BloomFilter.Basic
import RomLedger.Feed

/- The stored form of a filter: a magic word, the number of positions, the number of bits, the words, and a
   digest of all that. Reading accepts nothing that writing does not produce. -/
namespace RomLedger.BloomFilter

def magic : Bytes := Bytes.ofString "RDBLOOM1"
def headerLength : Nat := 20
def trailerLength : Nat := 20

def body (f : BloomFilter) : Bytes :=
  magic ++ Words.encode 4 f.numHashes.toNat ++ Words.encode 8 f.numBits.toNat
    ++ Words.encode64s f.words

def encode (f : BloomFilter) : Bytes :=
  let b := f.body
  b ++ Sha1.digest b

inductive Fault where
  | truncated
  | checksum
  | notFilter
  | inconsistent
  deriving DecidableEq, Repr

def Fault.message : Fault → String
  | .truncated => "bloom filter file is truncated"
  | .checksum => "bloom filter checksum mismatch"
  | .notFilter => "not a bloom filter file"
  | .inconsistent => "bloom filter header is inconsistent"

/-- Reads a body whose digest was checked. -/
def decodeBody (b : Bytes) : Except Fault BloomFilter :=
  if b.take 8 ≠ magic then .error .notFilter
  else
    let numHashes := UInt32.ofNat (Words.decode ((b.drop 8).take 4))
    let numBits := UInt64.ofNat (Words.decode ((b.drop 12).take 8))
    let stored := b.drop headerLength
    if numHashes = 0 ∨ maxHashes < numHashes ∨ numBits < minBits
        ∨ stored.length ≠ 8 * wordCount numBits then
      .error .inconsistent
    else .ok ⟨Words.decode64s stored, numBits, numHashes⟩

def decode (data : Bytes) : Except Fault BloomFilter :=
  let count := data.length
  if count < headerLength + trailerLength then .error .truncated
  else
    let b := data.take (count - trailerLength)
    if Sha1.digest b ≠ data.drop (count - trailerLength) then .error .checksum
    else decodeBody b

inductive LoadFault where
  | io
  | invalid (f : Fault)
  deriving DecidableEq, Repr

def load (f : Feed) : Except LoadFault BloomFilter :=
  let run := (Reader.ofFeed f).drain
  match run.stop with
  | .failed => .error .io
  | _ => (decode run.taken).mapError .invalid

end RomLedger.BloomFilter
