import RomLedger.BloomFilter.Stored
import RomLedger.Depot.Generation

/- A depot root: one directory with a size in bytes, and a filter of the content in it once one was built.
   Both live in memory and reach the disk when the root is flushed; `touched` says that they may differ from
   what is stored. -/
namespace RomLedger

structure RootConfig where
  path : String
  maxSize : Int64
  deriving DecidableEq, Repr

structure Root where
  path : Path
  maxSize : Int
  size : Int
  touched : Bool
  filter : Option BloomFilter
  deriving DecidableEq, Repr

namespace Root

inductive OpenFault where
  | directory (p : Path) (f : Disk.Fault)
  | generation (f : Generation.Fault)
  deriving DecidableEq, Repr

def OpenFault.chain : OpenFault → List String
  | .directory p f => ["Unable to create depot root: " ++ p.shown, f.message]
  | .generation f => f.chain

inductive FlushFault where
  | generation (f : Generation.Fault)
  | filter (p : Path) (f : Disk.Fault)
  deriving DecidableEq, Repr

def FlushFault.chain : FlushFault → List String
  | .generation f => f.chain
  | .filter p f => ["Unable to write bloom filter into " ++ p.shown, f.message]

def isReady (r : Root) : Bool := r.filter.isSome
def isFull (r : Root) : Bool := r.maxSize ≤ r.size

variable {σ : Type}

def load (d : Disk σ) (c : RootConfig) : Except OpenFault Root × Disk σ :=
  let path := Path.ofString c.path
  match d.makeDirectories path with
  | .error f => (.error (.directory path f), d)
  | .ok d =>
    match Generation.read d path with
    | (.error f, d) => (.error (.generation f), d)
    | (.ok size, d) => (.ok ⟨path, c.maxSize.toInt, size, false, BloomFilter.stored? d path⟩, d)

def accounted (size delta : Int) : Int := max 0 (min Numeral.max63 (size + delta))

/-- Accounts for content that came or went, and records its identifier if there is a filter. -/
def adjust (r : Root) (delta : Int) (id : Option Bytes) : Root :=
  { r with
    size := accounted r.size delta
    filter := match id with
      | some i => r.filter.map (·.add i)
      | none => r.filter
    touched := true }

def minCapacity : Nat := 1000000
def falsePositiveRate : Float := 0.01

def populate (r : Root) (ids : List Bytes) : Root :=
  let room := UInt64.ofNat (max (2 * ids.length) minCapacity)
  { r with
    filter := some ((BloomFilter.ofEstimate room falsePositiveRate).addAll ids)
    touched := true }

def mightContain (r : Root) (id : Bytes) : Bool :=
  match r.filter with
  | some f => f.contains id
  | none => true

/-- Stores a touched root: the size, and then the filter even where the size failed. It stays touched
unless both succeed. -/
def flush (d : Disk σ) (r : Root) : Except FlushFault Unit × Root × Disk σ :=
  if !r.touched then (.ok (), r, d)
  else
    let (sized, d) := Generation.write d r.path r.size
    let (filtered, d) : Except Disk.Fault Unit × Disk σ :=
      match r.filter with
      | some f => BloomFilter.store d r.path f
      | none => (.ok (), d)
    match sized, filtered with
    | .ok (), .ok () => (.ok (), { r with touched := false }, d)
    | .error f, _ => (.error (.generation f), r, d)
    | _, .error f => (.error (.filter r.path f), r, d)

end Root
end RomLedger
