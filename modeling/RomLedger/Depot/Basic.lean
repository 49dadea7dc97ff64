import RomLedger.Depot.Root

/- A depot is a list of roots. A root that cannot be stored keeps nobody else from being stored. -/
namespace RomLedger

structure Depot where
  roots : List Root
  deriving DecidableEq, Repr

namespace Depot

variable {σ : Type}

def loadAll (d : Disk σ) : List RootConfig → Except Root.OpenFault (List Root) × Disk σ
  | [] => (.ok [], d)
  | c :: rest =>
    match Root.load d c with
    | (.error f, d) => (.error f, d)
    | (.ok r, d) =>
      let (others, d) := loadAll d rest
      (others.map (r :: ·), d)

def load (d : Disk σ) (cs : List RootConfig) : Except Root.OpenFault Depot × Disk σ :=
  let (roots, d) := loadAll d cs
  (roots.map Depot.mk, d)

structure NoRoot where
  index : Nat
  deriving DecidableEq, Repr

def NoRoot.message (e : NoRoot) : String := s!"no depot root at index {e.index}"

def change (d : Depot) (i : Nat) (f : Root → Root) : Except NoRoot Depot :=
  if i < d.roots.length then .ok ⟨d.roots.modify i f⟩ else .error ⟨i⟩

def adjust (d : Depot) (i : Nat) (delta : Int) (id : Option Bytes) : Except NoRoot Depot :=
  d.change i (·.adjust delta id)

def populate (d : Depot) (i : Nat) (ids : List Bytes) : Except NoRoot Depot :=
  d.change i (·.populate ids)

def mightContain (d : Depot) (id : Bytes) : Bool := d.roots.any (·.mightContain id)

/-- Flushes roots in order; gives the paths of those that failed. -/
def flushAll (d : Disk σ) : List Root → List Path × List Root × Disk σ
  | [] => ([], [], d)
  | r :: rest =>
    let (result, r, d) := Root.flush d r
    let (failed, others, d) := flushAll d rest
    (match result with
      | .ok () => failed
      | .error _ => r.path :: failed,
     r :: others, d)

structure Unsaved where
  paths : List Path
  deriving DecidableEq, Repr

def Unsaved.message (e : Unsaved) : String :=
  s!"failed to persist {e.paths.length} depot root(s): "
    ++ ", ".intercalate (e.paths.map Path.shown)

def flush (d : Disk σ) (depot : Depot) : Except Unsaved Unit × Depot × Disk σ :=
  let (failed, roots, d) := flushAll d depot.roots
  (if failed.isEmpty then .ok () else .error ⟨failed⟩, ⟨roots⟩, d)

end Depot
end RomLedger
