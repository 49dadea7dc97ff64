import RomLedger.Disk.Path

/- What is counted and reported while files are worked on. Counters wrap. -/
namespace RomLedger

structure Counts where
  discovered : UInt64
  processed : UInt64
  failed : UInt64
  bytes : UInt64
  cancelled : Bool
  deriving DecidableEq, Repr

inductive Event where
  | started (root : Path) (workers : Nat)
  | completed (p : Path) (size : UInt64)
  | failed (p : Path) (error : String)
  | flushed (worker : Nat) (pending : Nat)
  | summary (c : Counts)
  deriving DecidableEq, Repr

namespace Counts

def zero : Counts := ⟨0, 0, 0, 0, false⟩

def discover (c : Counts) : Counts := { c with discovered := c.discovered + 1 }

def complete (c : Counts) (size : UInt64) : Counts :=
  { c with processed := c.processed + 1, bytes := c.bytes + size }

def fail (c : Counts) : Counts := { c with failed := c.failed + 1 }

def cancel (c : Counts) : Counts := { c with cancelled := true }

end Counts
end RomLedger
