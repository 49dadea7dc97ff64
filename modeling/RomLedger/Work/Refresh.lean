import RomLedger.Catalog.Source
import RomLedger.Index.Batch
import RomLedger.Work.Schedule

/- Refreshing the index from a tree of catalog files. Every catalog known before is orphaned, and each file
   that is found restores or adds its own. -/
namespace RomLedger.Refresh

def extensions : List String := ["dat", "xml"]

def accepts (p : Path) : Bool :=
  match p.extension? with
  | some e => extensions.contains e.toLower
  | none => false

inductive Fault where
  | source (r : Source.Refusal)
  | flush (f : Index.SizeFault)
  | close (f : Index.SizeFault)
  deriving DecidableEq, Repr

def Fault.chain : Fault → List String
  | .source r => r.chain
  | .flush f => "Failed to flush index batch" :: f.chain
  | .close f => "Failed to close index batch" :: f.chain

structure Worker where
  index : Nat
  batch : Batch
  deriving DecidableEq, Repr

def relieve (limit : Nat) (w : Worker) (i : Index) :
    Except Index.SizeFault (Worker × Index × List Event) :=
  if limit ≤ w.batch.size then
    match w.batch.flush i with
    | .ok (i, b) => .ok ({ w with batch := b }, i, [.flushed w.index w.batch.size])
    | .error f => .error f
  else .ok (w, i, [])

/-- One file: relieve the batch, then read the file and add what it holds. -/
def process (parse : Path → Except Source.Refusal (Catalog × Bytes)) (limit : Nat) (p : Path)
    (w : Worker) (i : Index) : Attempt Worker Index Fault :=
  match relieve limit w i with
  | .error f => ⟨.error (.flush f), w, i, [], false⟩
  | .ok (w, i, events) =>
    match parse p with
    | .error r => ⟨.error (.source r), w, i, events, false⟩
    | .ok (c, digest) =>
      ⟨.ok (), { w with batch := w.batch.addCatalog c digest }, i, events, false⟩

def close (w : Worker) (i : Index) : Except Fault Unit × Index :=
  match w.batch.flush i with
  | .ok (i, _) => (.ok (), i)
  | .error f => (.error (.close f), i)

def crew (parse : Path → Except Source.Refusal (Catalog × Bytes)) (limit : Nat) :
    Crew Worker Index Fault where
  accepts := accepts
  hire index i := (.ok ⟨index, .empty⟩, i)
  process p _ w i := process parse limit p w i
  close := close
  finish i := (.ok (), i)
  chain := Fault.chain

structure Options where
  workers : Nat
  maxBatchSize : Nat
  deriving DecidableEq, Repr

structure NoRoot where
  path : Path
  deriving DecidableEq, Repr

def NoRoot.message (e : NoRoot) : String := "DAT root is not a directory: " ++ e.path.shown

variable {σ : Type}

def refresh (d : Disk σ) (root : Path) (o : Options) (stopping : Bool) (i : Index) :
    Except NoRoot (Crew.State Worker Index Fault) :=
  if d.isDirectory root then
    .ok ((crew (Source.parseFile d) o.maxBatchSize).work root o.workers (d.walk root) stopping
      i.orphanAll)
  else .error ⟨root⟩

end RomLedger.Refresh
