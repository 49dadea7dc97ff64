import RomLedger.Bytes.Utf8
import RomLedger.Disk.Path

/- A disk: directories, files and links by place, a place being the names that lead to it from the root
   without links. -/
namespace RomLedger

abbrev Place := List String

/-- What lies at a place. The inside of a store is nobody's business but its owner's. -/
inductive Entry (σ : Type) where
  | dir
  | file (content : Bytes)
  | link (target : String)
  | store (content : σ)
  deriving Repr

inductive Remains where
  | unchanged
  | nothing
  | beginning (count : Nat)
  deriving DecidableEq, Repr

inductive Outcome where
  | done
  | failed (r : Remains)
  deriving DecidableEq, Repr

structure Disk (σ : Type) where
  entries : List (Place × Entry σ)
  ahead : List Outcome
  here : Place
  deriving Repr

namespace Disk

inductive Fault where
  | missing
  | present
  | notDirectory
  | isDirectory
  | notEmpty
  | tooManyLinks
  | failed
  deriving DecidableEq, Repr

def Fault.message : Fault → String
  | .missing => "No such file or directory (os error 2)"
  | .present => "File exists (os error 17)"
  | .notDirectory => "Not a directory (os error 20)"
  | .isDirectory => "Is a directory (os error 21)"
  | .notEmpty => "Directory not empty (os error 39)"
  | .tooManyLinks => "Too many levels of symbolic links (os error 40)"
  | .failed => "Input/output error (os error 5)"

variable {σ : Type}

def empty : Disk σ := ⟨[], [], []⟩

def get? (d : Disk σ) (p : Place) : Option (Entry σ) :=
  if p = [] then some .dir else d.entries.lookup p

def clear (d : Disk σ) (p : Place) : Disk σ :=
  { d with entries := d.entries.filter fun e => e.1 ≠ p }

def set (d : Disk σ) (p : Place) (e : Entry σ) : Disk σ :=
  { d with entries := (p, e) :: (d.clear p).entries }

def maxLinks : Nat := 40

/-- The place that names lead to; `jump` goes on from the target of a link. -/
def followWith (d : Disk σ) (through : Bool) (jump : Place → List String → Except Fault Place)
    (here : Place) : List String → Except Fault Place
  | [] => .ok here
  | name :: rest =>
    match d.get? here with
    | some .dir =>
      if name = "." then followWith d through jump here rest
      else if name = ".." then followWith d through jump here.dropLast rest
      else
        match d.get? (here ++ [name]) with
        | some (.link target) =>
          if rest.isEmpty && !through then .ok (here ++ [name])
          else jump (if Path.isAbsolute target then [] else here) (Path.namesOf target ++ rest)
        | some _ => followWith d through jump (here ++ [name]) rest
        | none => if rest.isEmpty then .ok (here ++ [name]) else .error .missing
    | _ => .error .notDirectory

/-- The place that names lead to over at most a number of links. The last name may be missing; if it is
a link, `through` says whether the link is followed. -/
def follow (d : Disk σ) (through : Bool) : Nat → Place → List String → Except Fault Place
  | 0 => d.followWith through fun _ _ => .error .tooManyLinks
  | links + 1 => d.followWith through (d.follow through links)

def locate (d : Disk σ) (through : Bool) (p : Path) : Except Fault Place :=
  if p.text.isEmpty ∧ p.below.isEmpty then .error .missing
  else d.follow through maxLinks (if Path.isAbsolute p.text then [] else d.here) p.names

def open? (d : Disk σ) (p : Path) : Except Fault (Place × Entry σ) :=
  match d.locate true p with
  | .error f => .error f
  | .ok place =>
    match d.get? place with
    | some e => .ok (place, e)
    | none => .error .missing

def fileExists (d : Disk σ) (p : Path) : Bool := (d.open? p).toOption.isSome

def isDirectory (d : Disk σ) (p : Path) : Bool :=
  match d.open? p with
  | .ok (_, .dir) => true
  | _ => false

def storeOpening : Bytes := Bytes.ofString "SQLite format 3" ++ [0]

def read (d : Disk σ) (p : Path) : Except Fault Bytes :=
  match d.open? p with
  | .error f => .error f
  | .ok (_, .file b) => .ok b
  | .ok (_, .store _) => .ok storeOpening
  | .ok _ => .error .isDirectory

def outcome (d : Disk σ) : Outcome × Disk σ :=
  match d.ahead with
  | [] => (.done, d)
  | o :: rest => (o, { d with ahead := rest })

def write (d : Disk σ) (p : Path) (content : Bytes) : Except Fault Unit × Disk σ :=
  match d.locate true p with
  | .error f => (.error f, d)
  | .ok place =>
    match d.get? place with
    | some .dir => (.error .isDirectory, d)
    | _ =>
      match d.outcome with
      | (.done, d) => (.ok (), d.set place (.file content))
      | (.failed .unchanged, d) => (.error .failed, d)
      | (.failed .nothing, d) => (.error .failed, d.clear place)
      | (.failed (.beginning n), d) => (.error .failed, d.set place (.file (content.take n)))

def makeDirectory (d : Disk σ) (p : Path) : Except Fault (Disk σ) :=
  match d.locate false p with
  | .error f => .error f
  | .ok place =>
    match d.get? place with
    | some _ => .error .present
    | none => .ok (d.set place .dir)

def ensureDirectory (d : Disk σ) (p : Path) : Except Fault (Disk σ) :=
  match d.makeDirectory p with
  | .ok d => .ok d
  | .error f => if d.isDirectory p then .ok d else .error f

/-- The path and everything above it, outermost first; `budget` bounds their number. -/
def ancestry : Nat → Path → List Path
  | 0, p => [p]
  | budget + 1, p =>
    match p.parent? with
    | none => [p]
    | some q => ancestry budget q ++ [p]

def makeDirectories (d : Disk σ) (p : Path) : Except Fault (Disk σ) :=
  if p.text.isEmpty ∧ p.below.isEmpty then .ok d
  else
    match d.ensureDirectory p with
    | .error .missing =>
      let above := (ancestry (p.names.length + 1) p).filter fun q =>
        !(q.text.isEmpty && q.below.isEmpty)
      above.foldlM ensureDirectory d
    | r => r

def within (p : Place) (e : Place × Entry σ) : Bool := p.isPrefixOf e.1

def remove (d : Disk σ) (p : Path) : Bool × Disk σ :=
  match d.locate false p with
  | .error _ => (false, d)
  | .ok place =>
    match d.get? place with
    | none => (false, d)
    | some _ => (true, { d with entries := d.entries.filter fun e => !within place e })

def move (d : Disk σ) (source target : Place) : Disk σ :=
  let kept := d.entries.filter fun e => !within source e && e.1 ≠ target
  let moved := (d.entries.filter (within source)).map fun e =>
    (target ++ e.1.drop source.length, e.2)
  { d with entries := moved ++ kept }

def hasChildren (d : Disk σ) (p : Place) : Bool := d.entries.any fun e => e.1.dropLast = p

def moveFault (d : Disk σ) (source : Entry σ) (target : Place) : Option Fault :=
  match source, d.get? target with
  | _, none => none
  | .dir, some .dir => if d.hasChildren target then some .notEmpty else none
  | .dir, some _ => some .notDirectory
  | _, some .dir => some .isDirectory
  | _, some _ => none

def rename (d : Disk σ) (p q : Path) : Except Fault Unit × Disk σ :=
  match d.locate false p, d.locate false q with
  | .error f, _ => (.error f, d)
  | _, .error f => (.error f, d)
  | .ok source, .ok target =>
    match d.get? source with
    | none => (.error .missing, d)
    | some e =>
      match d.moveFault e target with
      | some f => (.error f, d)
      | none =>
        match d.outcome with
        | (.done, d) => (.ok (), if source = target then d else d.move source target)
        | (.failed _, d) => (.error .failed, d)

def link (d : Disk σ) (p : Path) (target : String) : Except Fault Unit × Disk σ :=
  match d.locate false p with
  | .error f => (.error f, d)
  | .ok place =>
    match d.get? place with
    | some _ => (.error .present, d)
    | none => (.ok (), d.set place (.link target))

def children (d : Disk σ) (p : Place) : List (String × Entry σ) :=
  let found := d.entries.filterMap fun e =>
    if e.1 ≠ [] ∧ e.1.dropLast = p then e.1.getLast?.map fun n => (n, e.2) else none
  found.mergeSort fun a b => decide (a.1 ≤ b.1)

end Disk
end RomLedger
