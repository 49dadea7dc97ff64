import RomLedger.BloomFilter.Artifact
import RomLedger.Disk.Basic

/- The filter of a depot root on disk: a current file, and a backup that is the current file from before the
   last write. Reading takes the first of the two that is sound. -/
namespace RomLedger.BloomFilter

def fileName : String := "bloomfilter"
def backupName : String := "backup.bloomfilter"

variable {σ : Type}

def readFile (d : Disk σ) (p : Path) : Option BloomFilter :=
  match d.read p with
  | .ok b => (decode b).toOption
  | .error _ => none

def stored? (d : Disk σ) (root : Path) : Option BloomFilter :=
  match readFile d (root.join fileName) with
  | some f => some f
  | none => readFile d (root.join backupName)

/-- Stores a filter, after the current file has become the backup. -/
def store (d : Disk σ) (root : Path) (f : BloomFilter) : Except Disk.Fault Unit × Disk σ :=
  let current := root.join fileName
  if d.fileExists current then
    match d.rename current (root.join backupName) with
    | (.error e, d) => (.error e, d)
    | (.ok (), d) => d.write current f.encode
  else d.write current f.encode

end RomLedger.BloomFilter
