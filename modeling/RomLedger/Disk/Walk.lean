import RomLedger.Disk.Basic

/- A walk through a tree, depth first and by name. Links are followed, but not into a directory that the walk
   is inside of, so every walk ends. -/
namespace RomLedger

inductive Visit where
  | file (p : Path) (size : UInt64)
  | directory (p : Path)
  | unreadable (p : Path)
  deriving DecidableEq, Repr

def storeSize : Nat := 49152

def Entry.size {σ : Type} : Entry σ → UInt64
  | .file b => UInt64.ofNat b.length
  | .store _ => UInt64.ofNat storeSize
  | _ => 0

namespace Disk

variable {σ : Type}

/-- The children of a directory: `around` are the places of the directories that the walk is in,
innermost first, and `budget` bounds how much deeper it may go. -/
def walkIn (d : Disk σ) : Nat → List Place → Path → List Visit
  | 0, _, _ => []
  | _, [], _ => []
  | budget + 1, here :: around, p =>
    (d.children here).flatMap fun (name, entry) =>
      let q := p.join name
      match entry with
      | .dir => .directory q :: walkIn d budget ((here ++ [name]) :: here :: around) q
      | .link _ =>
        match d.open? q with
        | .error _ => [.unreadable q]
        | .ok (place, .dir) =>
          if (here :: around).contains place then [.unreadable q]
          else .directory q :: walkIn d budget (place :: here :: around) q
        | .ok (_, e) => [.file q (e.size)]
      | e => [.file q (e.size)]

def depthBound (d : Disk σ) : Nat := (d.entries.length + 1) * (d.entries.length + 1)

def walk (d : Disk σ) (p : Path) : List Visit :=
  match d.open? p with
  | .error _ => [.unreadable p]
  | .ok (place, .dir) => .directory p :: walkIn d d.depthBound [place] p
  | .ok (_, e) => [.file p (e.size)]

def placeLe : Place → Place → Bool
  | [], _ => true
  | _ :: _, [] => false
  | a :: p, b :: q => a < b || a == b && placeLe p q

def listing (d : Disk σ) (p : Path) : Except Fault (List (Place × Option UInt64)) :=
  match d.open? p with
  | .error f => .error f
  | .ok (place, .dir) =>
    let found := d.entries.filterMap fun e =>
      if e.1 ≠ place ∧ place.isPrefixOf e.1 then
        some (e.1.drop place.length, match e.2 with | .dir => none | x => some x.size)
      else none
    .ok (found.mergeSort fun a b => placeLe a.1 b.1)
  | .ok _ => .error .notDirectory

end Disk
end RomLedger
