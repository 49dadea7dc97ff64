import RomLedger.Depot.Root
import RomLedger.Json.Record

/- The configuration: where the index lies, where catalogs are found, how they are worked on, and the roots of
   the depot. -/
namespace RomLedger

structure Config where
  indexPath : String
  catalogRoot : Option String
  workers : UInt64
  maxBatchSize : UInt64
  roots : List RootConfig
  deriving DecidableEq, Repr

namespace Config

def directory (home : String) : String := Path.joined home ".romdepot"

def defaultPath (home : String) : String := Path.joined (directory home) "config.json"

def defaultBatchSize : UInt64 := 10 * 1024 * 1024

/-- The defaults of a user on a machine with some number of processors. -/
def defaults (home : String) (processors : UInt64) : Config where
  indexPath := Path.joined (directory home) "romdepot.db"
  catalogRoot := none
  workers := processors
  maxBatchSize := defaultBatchSize
  roots := []

def rootValue (r : RootConfig) : Json.Value :=
  .object [("path", .text r.path), ("max_size", .integer r.maxSize.toInt)]

def value (c : Config) : Json.Value :=
  .object [
    ("db_path", .text c.indexPath),
    ("dat_root", (c.catalogRoot.map Json.Value.text).getD .null),
    ("workers", .integer c.workers.toNat),
    ("max_batch_size", .integer c.maxBatchSize.toNat),
    ("depot", .list (c.roots.map rootValue))]

def render (c : Config) : String := c.value.pretty

structure RootDraft where
  path : Option String
  maxSize : Option Int64

def rootRecord : Json.Record RootDraft where
  label := "struct DepotRootConfig"
  fields := [
    ⟨"path", true, fun d => d.path.isSome,
      (Json.Reader.text "path string").map fun v d => { d with path := some v }⟩,
    ⟨"max_size", true, fun d => d.maxSize.isSome,
      (Json.Reader.signed "i64").map fun v d => { d with maxSize := some v }⟩]

def readRoot : Json.Reader RootConfig :=
  (rootRecord.reader ⟨none, none⟩).map fun d => ⟨d.path.getD "", d.maxSize.getD 0⟩

structure Draft where
  indexPath : Option String
  catalogRoot : Option (Option String)
  workers : Option UInt64
  maxBatchSize : Option UInt64
  roots : Option (List RootConfig)

def Draft.blank : Draft := ⟨none, none, none, none, none⟩

def record : Json.Record Draft where
  label := "struct Config"
  fields := [
    ⟨"db_path", false, fun d => d.indexPath.isSome,
      (Json.Reader.text "path string").map fun v d => { d with indexPath := some v }⟩,
    ⟨"dat_root", false, fun d => d.catalogRoot.isSome,
      (Json.Reader.text "path string").nullable.map fun v d => { d with catalogRoot := some v }⟩,
    ⟨"workers", false, fun d => d.workers.isSome,
      (Json.Reader.unsigned "usize").map fun v d => { d with workers := some v }⟩,
    ⟨"max_batch_size", false, fun d => d.maxBatchSize.isSome,
      (Json.Reader.unsigned "u64").map fun v d => { d with maxBatchSize := some v }⟩,
    ⟨"depot", false, fun d => d.roots.isSome,
      readRoot.list.map fun v d => { d with roots := some v }⟩]

def Draft.withDefaults (d : Draft) (c : Config) : Config where
  indexPath := d.indexPath.getD c.indexPath
  catalogRoot := d.catalogRoot.getD c.catalogRoot
  workers := d.workers.getD c.workers
  maxBatchSize := d.maxBatchSize.getD c.maxBatchSize
  roots := d.roots.getD c.roots

def parse (defaults : Config) (text : String) : Except Json.Fault Config :=
  ((record.reader .blank).document text).map (·.withDefaults defaults)

inductive LoadFault where
  | unreadable (p : Path) (f : Disk.Fault)
  | notText (p : Path)
  | invalid (p : Path) (text : String) (f : Json.Fault)
  deriving DecidableEq, Repr

def LoadFault.chain : LoadFault → List String
  | .unreadable p f => ["Unable to read config file: " ++ p.shown, f.message]
  | .notText p => ["Unable to read config file: " ++ p.shown, "stream did not contain valid UTF-8"]
  | .invalid p text f => ["Invalid config file: " ++ p.shown, f.message text]

inductive SaveFault where
  | parent (f : Disk.Fault)
  | unwritable (p : Path) (f : Disk.Fault)
  deriving DecidableEq, Repr

def SaveFault.chain : SaveFault → List String
  | .parent f => [f.message]
  | .unwritable p f => ["Unable to write config file: " ++ p.shown, f.message]

variable {σ : Type}

def load (d : Disk σ) (defaults : Config) (p : Path) : Except LoadFault Config :=
  if d.fileExists p then
    match d.read p with
    | .error f => .error (.unreadable p f)
    | .ok b =>
      match Utf8.decode b with
      | .error _ => .error (.notText p)
      | .ok text => (parse defaults text).mapError (.invalid p text)
  else .ok defaults

/-- Saves a configuration, making the directories above it if they are missing. -/
def save (d : Disk σ) (p : Path) (c : Config) : Except SaveFault Unit × Disk σ :=
  match (p.parent?.map d.makeDirectories).getD (.ok d) with
  | .error f => (.error (.parent f), d)
  | .ok d =>
    let (result, d) := d.write p (Bytes.ofString c.render)
    (result.mapError (.unwritable p), d)

end Config
end RomLedger
