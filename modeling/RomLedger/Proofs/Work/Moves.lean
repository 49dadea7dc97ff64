import RomLedger.Work.Crew

/- What one move of a crew can do, and what therefore holds after every run. -/
namespace RomLedger.Crew

variable {ω σ ε : Type}

/-- The file that a visit is to, if the crew works on it. -/
def wanted? (c : Crew ω σ ε) : Visit → Option (Path × UInt64)
  | .file p size => if c.accepts p then some (p, size) else none
  | _ => none

/-- Where a move of the walk or of a worker may lead. -/
inductive Moved (c : Crew ω σ ε) (s : State ω σ ε) : State ω σ ε → Prop where
  | walked (ended : s.walk = some []) : Moved c s { s with walk := none }
  | cut {v : Visit} {rest : List Visit} (walk : s.walk = some (v :: rest)) (stopped : s.stopping = true) :
      Moved c s { s with walk := none, counts := s.counts.cancel }
  | passed {v : Visit} {rest : List Visit} (walk : s.walk = some (v :: rest))
      (going : s.stopping = false) (other : c.wanted? v = none) : Moved c s { s with walk := some rest }
  | abandoned {v : Visit} {rest : List Visit} {f : Path × UInt64} (walk : s.walk = some (v :: rest))
      (going : s.stopping = false) (wanted : c.wanted? v = some f) (gone : s.posts.all Post.isGone) :
      Moved c s { s with walk := none, counts := s.counts.discover }
  | found {v : Visit} {rest : List Visit} {f : Path × UInt64} (walk : s.walk = some (v :: rest))
      (going : s.stopping = false) (wanted : c.wanted? v = some f) (room : s.queue.length < s.capacity) :
      Moved c s { s with walk := some rest, queue := s.queue ++ [f], counts := s.counts.discover }
  | hired {i : Nat} {w : ω} {shared : σ} (post : s.posts[i]? = some .vacant)
      (hire : c.hire i s.shared = (.ok w, shared)) :
      Moved c s { s with shared := shared, posts := s.posts.set i (.open_ w) }
  | refused {i : Nat} {e : ε} {shared : σ} (post : s.posts[i]? = some .vacant)
      (hire : c.hire i s.shared = (.error e, shared)) :
      Moved c s { s with
        shared := shared, posts := s.posts.set i .absent, fault := s.fault.or (some e) }
  | left {i : Nat} {w : ω} (post : s.posts[i]? = some (.open_ w)) (empty : s.queue = [])
      (ended : s.walk = none) : Moved c s { s with posts := s.posts.set i (.closing w) }
  | dropped {i : Nat} {w : ω} {f : Path × UInt64} {rest : List (Path × UInt64)}
      (post : s.posts[i]? = some (.open_ w)) (queue : s.queue = f :: rest) (stopped : s.stopping = true) :
      Moved c s { s with
        queue := rest, posts := s.posts.set i (.closing w), counts := s.counts.cancel }
  | done {i : Nat} {w : ω} {p : Path} {size : UInt64} {rest : List (Path × UInt64)}
      {a : Attempt ω σ ε} (post : s.posts[i]? = some (.open_ w)) (queue : s.queue = (p, size) :: rest)
      (going : s.stopping = false) (attempt : c.process p size w s.shared = a) (good : a.result = .ok ()) :
      Moved c s { s with
        shared := a.shared, queue := rest, posts := s.posts.set i (.open_ a.worker)
        stopping := a.stops, counts := s.counts.complete size
        events := s.events ++ a.events ++ [.completed p size] }
  | failed {i : Nat} {w : ω} {p : Path} {size : UInt64} {rest : List (Path × UInt64)}
      {a : Attempt ω σ ε} {e : ε} (post : s.posts[i]? = some (.open_ w))
      (queue : s.queue = (p, size) :: rest) (going : s.stopping = false)
      (attempt : c.process p size w s.shared = a) (bad : a.result = .error e) :
      Moved c s { s with
        shared := a.shared, queue := rest, posts := s.posts.set i (.open_ a.worker)
        stopping := a.stops, counts := s.counts.fail
        events := s.events ++ a.events ++ [.failed p (": ".intercalate (c.chain e))]
        fault := s.fault.or (some e) }
  | closed {i : Nat} {w : ω} {shared : σ} (post : s.posts[i]? = some (.closing w))
      (close : c.close w s.shared = (.ok (), shared)) :
      Moved c s { s with shared := shared, posts := s.posts.set i .closed }
  | spoiled {i : Nat} {w : ω} {e : ε} {shared : σ} (post : s.posts[i]? = some (.closing w))
      (close : c.close w s.shared = (.error e, shared)) :
      Moved c s { s with
        shared := shared, posts := s.posts.set i .closed, fault := s.fault.or (some e) }

theorem moved_of_visit {c : Crew ω σ ε} {s t : State ω σ ε} (moved : c.visit s = some t) :
    Moved c s t := by
  unfold visit at moved
  split at moved
  · cases moved
  · rename_i ended
    cases moved
    exact .walked ended
  · rename_i v rest walk
    split at moved
    · rename_i stopped
      cases moved
      exact .cut walk stopped
    · rename_i going
      rw [Bool.not_eq_true] at going
      split at moved
      · rename_i p size
        split at moved
        · rename_i other
          cases moved
          exact .passed walk going (by simpa [wanted?] using other)
        · rename_i accepted
          have wanted : c.wanted? (.file p size) = some (p, size) := by
            simpa [wanted?] using accepted
          split at moved
          · rename_i gone
            cases moved
            exact .abandoned walk going wanted gone
          · split at moved
            · rename_i room
              cases moved
              exact .found walk going wanted room
            · cases moved
      · rename_i other
        cases moved
        refine .passed walk going ?_
        cases v with
        | file p size => exact absurd rfl (other p size)
        | directory p => rfl
        | unreadable p => rfl

theorem moved_of_take {c : Crew ω σ ε} {s t : State ω σ ε} {i : Nat} {w : ω}
    (post : s.posts[i]? = some (.open_ w)) (moved : c.take s i w = some t) : Moved c s t := by
  unfold take at moved
  split at moved
  · rename_i empty
    split at moved
    · rename_i ended
      cases moved
      exact .left post empty (Option.isNone_iff_eq_none.mp ended)
    · cases moved
  · rename_i p size rest queue
    dsimp only at moved
    split at moved
    · rename_i stopped
      cases moved
      exact .dropped post queue stopped
    · rename_i going
      rw [Bool.not_eq_true] at going
      split at moved
      · rename_i good
        cases moved
        simpa [State.emit, State.post, going] using Moved.done post queue going rfl good
      · rename_i e bad
        cases moved
        simpa [State.emit, State.post, State.record, going] using
          Moved.failed post queue going rfl bad

theorem moved_of_workerMove {c : Crew ω σ ε} {s t : State ω σ ε} {i : Nat}
    (moved : c.workerMove s i = some t) : Moved c s t := by
  cases post : s.posts[i]? with
  | none => simp [workerMove, post] at moved
  | some place =>
    cases place with
    | vacant =>
      cases hire : c.hire i s.shared with
      | mk result shared =>
        cases result with
        | ok w =>
          simp only [workerMove, post, hire, Option.some.injEq] at moved
          exact moved ▸ .hired post hire
        | error e =>
          simp only [workerMove, post, hire, Option.some.injEq] at moved
          exact moved ▸ .refused post hire
    | open_ w =>
      simp only [workerMove, post] at moved
      exact moved_of_take post moved
    | closing w =>
      cases close : c.close w s.shared with
      | mk result shared =>
        simp only [workerMove, post, close, Option.some.injEq] at moved
        cases result with
        | ok u => exact moved ▸ .closed post close
        | error e => exact moved ▸ .spoiled post close
    | absent => simp [workerMove, post] at moved
    | closed => simp [workerMove, post] at moved

theorem moved_of_step {c : Crew ω σ ε} {s t : State ω σ ε} {m : Move} (proper : m ≠ .stop)
    (moved : c.step s m = some t) : Moved c s t := by
  cases m with
  | walk => exact moved_of_visit moved
  | work i => exact moved_of_workerMove moved
  | stop => exact absurd rfl proper

theorem events_moved {c : Crew ω σ ε} {s t : State ω σ ε} (moved : Moved c s t) :
    ∃ new, t.events = s.events ++ new := by
  cases moved with
  | done _ _ _ _ _ | failed _ _ _ _ _ => exact ⟨_, List.append_assoc ..⟩
  | _ => exact ⟨[], (List.append_nil _).symm⟩

def total (f : Post ω → Nat) : List (Post ω) → Nat
  | [] => 0
  | p :: rest => f p + total f rest

theorem total_set (f : Post ω → Nat) {posts : List (Post ω)} {i : Nat} {p : Post ω}
    (post : posts[i]? = some p) (q : Post ω) :
    total f (posts.set i q) + f p = total f posts + f q := by
  induction posts generalizing i with
  | nil => simp at post
  | cons first rest ih =>
    cases i with
    | zero =>
      simp only [List.getElem?_cons_zero, Option.some.injEq] at post
      subst post
      simp only [List.set_cons_zero, total]
      omega
    | succ i =>
      have := ih (by simpa using post)
      simp only [List.set_cons_succ, total]
      omega

theorem le_total (f : Post ω → Nat) {posts : List (Post ω)} {p : Post ω} (member : p ∈ posts) :
    f p ≤ total f posts := by
  induction posts with
  | nil => cases member
  | cons first rest ih =>
    rcases List.mem_cons.mp member with rfl | later
    · exact Nat.le_add_right ..
    · exact Nat.le_trans (ih later) (Nat.le_add_left ..)

theorem forall_posts_set {α : Type} {posts : List α} {P : α → Prop} (all : ∀ p ∈ posts, P p) {i : Nat}
    {q : α} (new : P q) : ∀ p ∈ posts.set i q, P p := by
  intro p member
  rcases List.mem_or_eq_of_mem_set member with old | rfl
  · exact all p old
  · exact new

theorem result_ok_iff {s : State ω σ ε} {counts : Counts} :
    s.result = .ok counts ↔ s.fault = none ∧ s.counts = counts := by
  unfold State.result
  cases s.fault <;> simp

theorem result_error_iff {s : State ω σ ε} : (∃ e, s.result = .error e) ↔ s.fault.isSome = true := by
  unfold State.result
  cases s.fault <;> simp

theorem run_induction {c : Crew ω σ ε} {P : State ω σ ε → Prop} {s : State ω σ ε} (first : P s)
    (keeps : ∀ s t, P s → Moved c s t → P t) (stops : ∀ s, P s → P { s with stopping := true })
    (ms : List Move) : P (c.run s ms) := by
  induction ms generalizing s with
  | nil => exact first
  | cons m rest ih =>
    simp only [run, List.foldl_cons] at ih ⊢
    cases moved : c.step s m with
    | none => exact ih first
    | some t =>
      by_cases stop : m = .stop
      · subst stop
        cases moved
        exact ih (stops s first)
      · exact ih (keeps s t first (moved_of_step stop moved))

end RomLedger.Crew
