import RomLedger.Disk.Basic
import RomLedger.Index.Basic

/- Where an index lives on disk: in a store, a file that only the index looks into. An empty file becomes an
   empty index; a file that holds anything else is no index. -/
namespace RomLedger.Index

inductive OpenFault where
  | parent (f : Disk.Fault)
  | unopened (p : Path)
  | notIndex
  deriving DecidableEq, Repr

def OpenFault.chain : OpenFault → List String
  | .parent f => [f.message]
  | .unopened p =>
    ["Failed to open rom index: " ++ p.shown, "unable to open database file: " ++ p.shown,
      "Error code 14: Unable to open the database file"]
  | .notIndex =>
    ["file is not a database", "Error code 26: File opened that is not a database file"]

def openAt (d : Disk Index) (p : Path) : Except OpenFault (Disk Index) :=
  match d.locate true p with
  | .error _ => if p.shown.isEmpty then .ok d else .error (.unopened p)
  | .ok place =>
    match d.get? place with
    | some (.store _) => .ok d
    | some (.file []) | none => .ok (d.set place (.store empty))
    | some (.file _) => .error .notIndex
    | some _ => .error (.unopened p)

/-- Opens the index at a path, making the directories above it and the index itself if they are
missing. -/
def openStored (d : Disk Index) (p : Path) : Except OpenFault Unit × Disk Index :=
  match (p.parent?.map d.makeDirectories).getD (.ok d) with
  | .error f => (.error (.parent f), d)
  | .ok d =>
    match openAt d p with
    | .ok d => (.ok (), d)
    | .error f => (.error f, d)

def load (d : Disk Index) (p : Path) : Index :=
  match d.open? p with
  | .ok (_, .store i) => i
  | _ => empty

def save (d : Disk Index) (p : Path) (i : Index) : Disk Index :=
  match d.locate true p with
  | .ok place => d.set place (.store i)
  | .error _ => d

end RomLedger.Index
