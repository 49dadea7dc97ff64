import RomLedger.Work.Crew

/- One order of moves among many: all workers are hired first, and every file is worked on as soon as the walk
   has found it, by the first worker that is open. -/
namespace RomLedger.Crew

variable {ω σ ε : Type}

def promptMove (s : State ω σ ε) : Move :=
  match s.posts.findIdx? Post.isVacant with
  | some i => .work i
  | none =>
    match s.queue, s.posts.findIdx? Post.isOpen with
    | _ :: _, some i => .work i
    | _, _ =>
      if s.walk.isSome then .walk
      else .work ((s.posts.findIdx? fun p => !p.isGone).getD 0)

def promptMoves (c : Crew ω σ ε) : Nat → State ω σ ε → List Move
  | 0, _ => []
  | budget + 1, s =>
    if s.isOver then []
    else
      let m := promptMove s
      m :: promptMoves c budget ((c.step s m).getD s)

/-- A bound on the moves: one for each visit and each file, three for each worker, and the end of the
walk. -/
def moveBound (workers visits : Nat) : Nat := 2 * visits + 3 * max 1 workers + 1

def work (c : Crew ω σ ε) (root : Path) (workers : Nat) (visits : List Visit) (stopping : Bool)
    (shared : σ) : State ω σ ε :=
  let s : State ω σ ε := start root workers visits stopping shared
  c.conclude (c.run s (promptMoves c (moveBound workers visits.length) s))

end RomLedger.Crew
