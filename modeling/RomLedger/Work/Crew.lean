import RomLedger.Disk.Walk
import RomLedger.Work.Progress

/- A crew works through the files of a tree. One walk puts accepted files into a queue of bounded length,
   workers take them out, and what all of them share changes with every call. -/
namespace RomLedger

structure Attempt (ω σ ε : Type) where
  result : Except ε Unit
  worker : ω
  shared : σ
  events : List Event
  stops : Bool

structure Crew (ω σ ε : Type) where
  accepts : Path → Bool
  hire : Nat → σ → Except ε ω × σ
  process : Path → UInt64 → ω → σ → Attempt ω σ ε
  close : ω → σ → Except ε Unit × σ
  finish : σ → Except ε Unit × σ
  chain : ε → List String

namespace Crew

variable {ω σ ε : Type}

inductive Post (ω : Type) where
  | vacant
  | absent
  | open_ (w : ω)
  | closing (w : ω)
  | closed
  deriving Repr

namespace Post

def isVacant : Post ω → Bool
  | .vacant => true
  | _ => false

def isOpen : Post ω → Bool
  | .open_ _ => true
  | _ => false

def isGone : Post ω → Bool
  | .absent | .closed => true
  | _ => false

end Post

structure State (ω σ ε : Type) where
  shared : σ
  walk : Option (List Visit)
  queue : List (Path × UInt64)
  posts : List (Post ω)
  stopping : Bool
  counts : Counts
  events : List Event
  fault : Option ε

inductive Move where
  | walk
  | work (i : Nat)
  | stop
  deriving DecidableEq, Repr

def queueDepth : Nat := 4

namespace State

def record (s : State ω σ ε) : Except ε Unit → State ω σ ε
  | .ok () => s
  | .error e => { s with fault := s.fault.or (some e) }

def emit (s : State ω σ ε) (es : List Event) : State ω σ ε := { s with events := s.events ++ es }

def post (s : State ω σ ε) (i : Nat) (p : Post ω) : State ω σ ε :=
  { s with posts := s.posts.set i p }

def capacity (s : State ω σ ε) : Nat := s.posts.length * queueDepth

def isOver (s : State ω σ ε) : Bool := s.walk.isNone && s.posts.all Post.isGone

end State

/-- One visit of the walk. It waits while the queue is full, and ends when no worker is left. -/
def visit (c : Crew ω σ ε) (s : State ω σ ε) : Option (State ω σ ε) :=
  match s.walk with
  | none => none
  | some [] => some { s with walk := none }
  | some (v :: rest) =>
    if s.stopping then some { s with walk := none, counts := s.counts.cancel }
    else
      match v with
      | .file p size =>
        if !c.accepts p then some { s with walk := some rest }
        else if s.posts.all Post.isGone then
          some { s with walk := none, counts := s.counts.discover }
        else if s.queue.length < s.capacity then
          some { s with
            walk := some rest
            queue := s.queue ++ [(p, size)]
            counts := s.counts.discover }
        else none
      | _ => some { s with walk := some rest }

def take (c : Crew ω σ ε) (s : State ω σ ε) (i : Nat) (w : ω) : Option (State ω σ ε) :=
  match s.queue with
  | [] => if s.walk.isNone then some (s.post i (.closing w)) else none
  | (p, size) :: rest =>
    let s := { s with queue := rest }
    if s.stopping then some ({ s with counts := s.counts.cancel }.post i (.closing w))
    else
      let a := c.process p size w s.shared
      let s := ({ s with shared := a.shared, stopping := s.stopping || a.stops }.post i
        (.open_ a.worker)).emit a.events
      match a.result with
      | .ok () => some ({ s with counts := s.counts.complete size }.emit [.completed p size])
      | .error e =>
        some (({ s with counts := s.counts.fail }.emit
          [.failed p (": ".intercalate (c.chain e))]).record (.error e))

def workerMove (c : Crew ω σ ε) (s : State ω σ ε) (i : Nat) : Option (State ω σ ε) :=
  match s.posts[i]? with
  | some .vacant =>
    match c.hire i s.shared with
    | (.ok w, shared) => some ({ s with shared := shared }.post i (.open_ w))
    | (.error e, shared) =>
      some (({ s with shared := shared }.post i .absent).record (.error e))
  | some (.open_ w) => c.take s i w
  | some (.closing w) =>
    let (result, shared) := c.close w s.shared
    some (({ s with shared := shared }.post i .closed).record result)
  | _ => none

def step (c : Crew ω σ ε) (s : State ω σ ε) : Move → Option (State ω σ ε)
  | .walk => c.visit s
  | .work i => c.workerMove s i
  | .stop => some { s with stopping := true }

def run (c : Crew ω σ ε) (s : State ω σ ε) (ms : List Move) : State ω σ ε :=
  ms.foldl (fun s m => (c.step s m).getD s) s

/-- The state before the first move; there is always at least one worker. -/
def start (root : Path) (workers : Nat) (visits : List Visit) (stopping : Bool) (shared : σ) :
    State ω σ ε where
  shared := shared
  walk := some visits
  queue := []
  posts := List.replicate (max 1 workers) .vacant
  stopping := stopping
  counts := .zero
  events := [.started root (max 1 workers)]
  fault := none

def conclude (c : Crew ω σ ε) (s : State ω σ ε) : State ω σ ε :=
  let (result, shared) := c.finish s.shared
  ({ s with shared := shared }.record result).emit [.summary s.counts]

def State.result (s : State ω σ ε) : Except ε Counts :=
  match s.fault with
  | some e => .error e
  | none => .ok s.counts

end Crew
end RomLedger
