import RomLedger.Index.Basic

/- Batches of writes. A batch gathers writes in memory with an estimate of their size; a flush applies all of
   them in order, or none. -/
namespace RomLedger

inductive Write where
  | catalog (c : Catalog) (digest : Bytes)
  | content (r : Rom)
  deriving DecidableEq, Repr

namespace Write

def hashLength (h : Option Bytes) : Nat := (h.map List.length).getD 0

def total (sizes : List Nat) : Nat := sizes.foldr (· + ·) 0

def romSize (r : Rom) : Nat :=
  r.name.utf8ByteSize + hashLength r.crc + hashLength r.md5 + hashLength r.sha1 + 48

def gameSize (g : Game) : Nat :=
  g.name.utf8ByteSize + g.description.utf8ByteSize + 64 + total (g.allRoms.map romSize)

/-- Roughly the bytes that a write takes in memory. -/
def size : Write → Nat
  | .content r => romSize r
  | .catalog c digest =>
    c.name.utf8ByteSize + c.description.utf8ByteSize + digest.length + 64
      + total (c.allGames.map gameSize)

def apply (i : Index) : Write → Except Index.SizeFault Index
  | .catalog c digest => i.insertCatalog c digest
  | .content r => i.insertContent r

end Write

structure Batch where
  pending : List Write
  size : Nat
  deriving DecidableEq, Repr

namespace Batch

def empty : Batch := ⟨[], 0⟩

def add (b : Batch) (w : Write) : Batch := ⟨b.pending ++ [w], b.size + w.size⟩

def addCatalog (b : Batch) (c : Catalog) (digest : Bytes) : Batch := b.add (.catalog c digest)
def addContent (b : Batch) (r : Rom) : Batch := b.add (.content r)

def applyAll (i : Index) : List Write → Except Index.SizeFault Index
  | [] => .ok i
  | w :: rest =>
    match w.apply i with
    | .ok i => applyAll i rest
    | .error f => .error f

/-- Applies what is pending. A fault leaves the index and the batch as they were. -/
def flush (i : Index) (b : Batch) : Except Index.SizeFault (Index × Batch) :=
  match applyAll i b.pending with
  | .ok i => .ok (i, empty)
  | .error f => .error f

end Batch
end RomLedger
