import Mathlib
import RomLedger.Proofs.Work.Prompt

/- The same crew with every single action on its own. -/
namespace RomLedger.Crew

variable {ω σ ε : Type}

inductive Walker where
  | next (visits : List Visit)
  | sending (f : Path × UInt64) (visits : List Visit)
  | ended
  | finished

inductive Task (ω ε : Type) where
  | vacant
  | absent
  | ready (w : ω)
  | taken (w : ω) (f : Path × UInt64)
  | cleared (w : ω) (f : Path × UInt64)
  | reporting (w : ω) (f : Path × UInt64) (result : Except ε Unit)
  | closing (w : ω)
  | closed

inductive Call (ε : Type) where
  | hire (worker : Nat) (result : Except ε Unit)
  | process (worker : Nat) (f : Path × UInt64) (result : Except ε Unit)
  | close (worker : Nat) (result : Except ε Unit)
  | finish (result : Except ε Unit)

structure Moment (ω σ ε : Type) where
  shared : σ
  walker : Walker
  queue : List (Path × UInt64)
  tasks : List (Task ω ε)
  stopping : Bool
  counts : Counts
  events : List Event
  fault : Option ε
  calls : List (Call ε)

namespace Task

def isGone : Task ω ε → Bool
  | .absent | .closed => true
  | _ => false

def ofHire : Except ε ω → Task ω ε
  | .ok w => .ready w
  | .error _ => .absent

def ofPost : Post ω → Task ω ε
  | .vacant => .vacant
  | .absent => .absent
  | .open_ w => .ready w
  | .closing w => .closing w
  | .closed => .closed

def post : Task ω ε → Post ω
  | .vacant => .vacant
  | .absent => .absent
  | .ready w | .taken w _ | .cleared w _ | .reporting w _ _ => .open_ w
  | .closing w => .closing w
  | .closed => .closed

theorem post_ofPost (p : Post ω) : (ofPost p : Task ω ε).post = p := by
  cases p <;> rfl

theorem isGone_ofPost (p : Post ω) : (ofPost p : Task ω ε).isGone = p.isGone := by
  cases p <;> rfl

end Task

def noted (fault : Option ε) : Except ε Unit → Option ε
  | .ok () => fault
  | .error e => fault.or (some e)

def counted (k : Counts) (size : UInt64) : Except ε Unit → Counts
  | .ok () => k.complete size
  | .error _ => k.fail

/-- How the result of a file is told. -/
def report (c : Crew ω σ ε) (f : Path × UInt64) : Except ε Unit → Event
  | .ok () => .completed f.1 f.2
  | .error e => .failed f.1 (": ".intercalate (c.chain e))

/-- What a single action of the walk, of a worker or at the end does. -/
inductive Tick (c : Crew ω σ ε) (s : Moment ω σ ε) : Moment ω σ ε → Prop where
  | walked (walker : s.walker = .next []) : Tick c s { s with walker := .ended }
  | cut {v : Visit} {rest : List Visit} (walker : s.walker = .next (v :: rest))
      (stopped : s.stopping = true) :
      Tick c s { s with walker := .ended, counts := s.counts.cancel }
  | passed {v : Visit} {rest : List Visit} (walker : s.walker = .next (v :: rest))
      (going : s.stopping = false) (other : c.wanted? v = none) :
      Tick c s { s with walker := .next rest }
  | discovered {v : Visit} {rest : List Visit} {f : Path × UInt64}
      (walker : s.walker = .next (v :: rest)) (going : s.stopping = false) (wanted : c.wanted? v = some f) :
      Tick c s { s with walker := .sending f rest, counts := s.counts.discover }
  | abandoned {f : Path × UInt64} {rest : List Visit} (walker : s.walker = .sending f rest)
      (gone : s.tasks.all Task.isGone = true) : Tick c s { s with walker := .ended }
  | sent {f : Path × UInt64} {rest : List Visit} (walker : s.walker = .sending f rest)
      (present : s.tasks.all Task.isGone = false) (room : s.queue.length < s.tasks.length * queueDepth) :
      Tick c s { s with walker := .next rest, queue := s.queue ++ [f] }
  | hired {i : Nat} {result : Except ε ω} {shared : σ} (task : s.tasks[i]? = some .vacant)
      (hire : c.hire i s.shared = (result, shared)) :
      Tick c s { s with
        shared := shared, tasks := s.tasks.set i (.ofHire result)
        fault := noted s.fault (result.map fun _ => ())
        calls := s.calls ++ [.hire i (result.map fun _ => ())] }
  | took {i : Nat} {w : ω} {f : Path × UInt64} {rest : List (Path × UInt64)}
      (task : s.tasks[i]? = some (.ready w)) (queue : s.queue = f :: rest) :
      Tick c s { s with queue := rest, tasks := s.tasks.set i (.taken w f) }
  | left {i : Nat} {w : ω} (task : s.tasks[i]? = some (.ready w)) (empty : s.queue = [])
      (ended : s.walker = .ended) : Tick c s { s with tasks := s.tasks.set i (.closing w) }
  | dropped {i : Nat} {w : ω} {f : Path × UInt64} (task : s.tasks[i]? = some (.taken w f))
      (stopped : s.stopping = true) :
      Tick c s { s with tasks := s.tasks.set i (.closing w), counts := s.counts.cancel }
  | cleared {i : Nat} {w : ω} {f : Path × UInt64} (task : s.tasks[i]? = some (.taken w f))
      (going : s.stopping = false) : Tick c s { s with tasks := s.tasks.set i (.cleared w f) }
  | processed {i : Nat} {w : ω} {f : Path × UInt64} {a : Attempt ω σ ε}
      (task : s.tasks[i]? = some (.cleared w f)) (attempt : c.process f.1 f.2 w s.shared = a) :
      Tick c s { s with
        shared := a.shared, tasks := s.tasks.set i (.reporting a.worker f a.result)
        stopping := s.stopping || a.stops, events := s.events ++ a.events
        calls := s.calls ++ [.process i f a.result] }
  | reported {i : Nat} {w : ω} {f : Path × UInt64} {result : Except ε Unit}
      (task : s.tasks[i]? = some (.reporting w f result)) :
      Tick c s { s with
        tasks := s.tasks.set i (.ready w), counts := counted s.counts f.2 result
        events := s.events ++ [c.report f result], fault := noted s.fault result }
  | closed {i : Nat} {w : ω} {result : Except ε Unit} {shared : σ}
      (task : s.tasks[i]? = some (.closing w)) (close : c.close w s.shared = (result, shared)) :
      Tick c s { s with
        shared := shared, tasks := s.tasks.set i .closed, fault := noted s.fault result
        calls := s.calls ++ [.close i result] }
  | finished {result : Except ε Unit} {shared : σ} (ended : s.walker = .ended)
      (gone : s.tasks.all Task.isGone = true) (finish : c.finish s.shared = (result, shared)) :
      Tick c s { s with
        shared := shared, walker := .finished, fault := noted s.fault result
        events := s.events ++ [.summary s.counts], calls := s.calls ++ [.finish result] }

def Next (c : Crew ω σ ε) (s t : Moment ω σ ε) : Prop := Tick c s t ∨ t = { s with stopping := true }

def Reached (c : Crew ω σ ε) : Moment ω σ ε → Moment ω σ ε → Prop := Relation.ReflTransGen (Next c)

theorem reached_induction {c : Crew ω σ ε} {P : Moment ω σ ε → Prop} {s t : Moment ω σ ε} (first : P s)
    (keeps : ∀ s t, P s → Tick c s t → P t) (stops : ∀ s, P s → P { s with stopping := true })
    (reached : Reached c s t) : P t := by
  induction reached with
  | refl => exact first
  | tail _ next ih =>
    rcases next with tick | rfl
    · exact keeps _ _ ih tick
    · exact stops _ ih

def Walker.ofWalk : Option (List Visit) → Walker
  | some visits => .next visits
  | none => .ended

def State.moment (s : State ω σ ε) (calls : List (Call ε)) : Moment ω σ ε where
  shared := s.shared
  walker := .ofWalk s.walk
  queue := s.queue
  tasks := s.posts.map Task.ofPost
  stopping := s.stopping
  counts := s.counts
  events := s.events
  fault := s.fault
  calls := calls

/-- The moment before the first action. -/
def outset (root : Path) (workers : Nat) (visits : List Visit) (stopping : Bool) (shared : σ) :
    Moment ω σ ε :=
  (start root workers visits stopping shared : State ω σ ε).moment []

/-- What is seen of a moment between moves. -/
def Moment.outward (s : Moment ω σ ε) : State ω σ ε where
  shared := s.shared
  walk :=
    match s.walker with
    | .next visits | .sending _ visits => some visits
    | .ended | .finished => none
  queue := s.queue
  posts := s.tasks.map Task.post
  stopping := s.stopping
  counts := s.counts
  events := s.events
  fault := s.fault

theorem outward_moment (s : State ω σ ε) (calls : List (Call ε)) : (s.moment calls).outward = s := by
  have posts : s.posts.map (Task.post ∘ Task.ofPost (ε := ε)) = s.posts := by
    simp [Function.comp_def, Task.post_ofPost]
  cases s with
  | mk shared walk queue posts' stopping counts events fault =>
    cases walk <;> simpa [State.moment, Moment.outward, Walker.ofWalk] using posts

section

variable {c : Crew ω σ ε} {s t : State ω σ ε} {calls : List (Call ε)}

theorem Reached.tick {c : Crew ω σ ε} {s t u : Moment ω σ ε} (reached : Reached c s t) (tick : Tick c t u) :
    Reached c s u :=
  Relation.ReflTransGen.tail reached (.inl tick)

theorem task_of_post {i : Nat} {p : Post ω} (post : s.posts[i]? = some p) :
    (s.moment calls).tasks[i]? = some (.ofPost p) := by
  simp [State.moment, post]

theorem all_isGone_moment (s : State ω σ ε) (calls : List (Call ε)) :
    (s.moment calls).tasks.all Task.isGone = s.posts.all Post.isGone := by
  simp [State.moment, Function.comp_def, Task.isGone_ofPost]

theorem present_of_grown {m : Move} (moved : c.step s m = some t)
    (grown : s.queue.length < t.queue.length) : s.posts.all Post.isGone = false := by
  cases m with
  | walk =>
    simp only [step, visit] at moved
    grind
  | work i =>
    simp only [step, workerMove, take, State.post, State.emit, State.record] at moved
    grind
  | stop =>
    cases moved
    exact absurd grown (Nat.lt_irrefl _)

theorem getElem?_set_task {tasks : List (Task ω ε)} {i : Nat} {p : Task ω ε} (task : tasks[i]? = some p)
    (q : Task ω ε) : (tasks.set i q)[i]? = some q := by
  rw [List.getElem?_set_self (List.getElem?_eq_some_iff.mp task).1]

theorem walker_moment {visits : List Visit} (walk : s.walk = some visits) :
    (s.moment calls).walker = .next visits := by
  simp [State.moment, walk, Walker.ofWalk]

theorem reached_of_taken {s : Moment ω σ ε} {i : Nat} {w : ω} {f : Path × UInt64}
    {rest : List (Path × UInt64)} {a : Attempt ω σ ε} (task : s.tasks[i]? = some (.ready w))
    (queue : s.queue = f :: rest) (going : s.stopping = false)
    (attempt : c.process f.1 f.2 w s.shared = a) :
    Reached c s { s with
      shared := a.shared, queue := rest, tasks := s.tasks.set i (.ready a.worker)
      stopping := s.stopping || a.stops, counts := counted s.counts f.2 a.result
      events := s.events ++ a.events ++ [c.report f a.result], fault := noted s.fault a.result
      calls := s.calls ++ [.process i f a.result] } := by
  have took : Tick c s _ := .took task queue
  have cleared : Tick c _ _ := .cleared (s := { s with queue := rest, tasks := s.tasks.set i (.taken w f) })
    (getElem?_set_task task _) going
  have processed : Tick c _ _ := .processed (s := { s with
    queue := rest, tasks := (s.tasks.set i (.taken w f)).set i (.cleared w f) })
    (getElem?_set_task (getElem?_set_task task _) _) attempt
  have reported := ((Reached.tick .refl took).tick cleared).tick processed
  have := reported.tick (.reported (getElem?_set_task (getElem?_set_task (getElem?_set_task task _) _) _))
  simpa only [List.set_set] using this

theorem reached_of_moved (moved : Moved c s t)
    (present : s.queue.length < t.queue.length → s.posts.all Post.isGone = false) :
    ∃ calls', Reached c (s.moment calls) (t.moment calls') := by
  cases moved with
  | walked ended => exact ⟨_, .tick .refl (.walked (walker_moment ended))⟩
  | cut walk stopped => exact ⟨_, .tick .refl (.cut (walker_moment walk) stopped)⟩
  | passed walk going other => exact ⟨_, .tick .refl (.passed (walker_moment walk) going other)⟩
  | abandoned walk going wanted gone =>
    exact ⟨_, .tick (.tick .refl (.discovered (walker_moment walk) going wanted))
      (.abandoned rfl ((all_isGone_moment s calls).trans gone))⟩
  | found walk going wanted room =>
    refine ⟨_, .tick (.tick .refl (.discovered (walker_moment walk) going wanted))
      (.sent rfl ((all_isGone_moment s calls).trans (present (by simp))) ?_)⟩
    simpa [State.moment, State.capacity] using room
  | @hired i w shared post hire =>
    refine ⟨calls ++ [.hire i (.ok ())], .tick .refl ?_⟩
    simpa only [State.moment, List.map_set, Task.ofPost, Task.ofHire, noted, Except.map] using
      Tick.hired (s := s.moment calls) (task_of_post post) hire
  | @refused i e shared post hire =>
    refine ⟨calls ++ [.hire i (.error e)], .tick .refl ?_⟩
    simpa only [State.moment, List.map_set, Task.ofPost, Task.ofHire, noted, Except.map] using
      Tick.hired (s := s.moment calls) (task_of_post post) hire
  | left post empty ended =>
    refine ⟨calls, .tick .refl ?_⟩
    simpa only [State.moment, List.map_set, Task.ofPost] using
      Tick.left (s := s.moment calls) (task_of_post post) empty (by simp [State.moment, ended, Walker.ofWalk])
  | @dropped i w f rest post queue stopped =>
    have took : Tick c (s.moment calls) _ := .took (task_of_post post) queue
    have dropped : Tick c _ _ := .dropped
      (s := { s.moment calls with queue := rest, tasks := (s.moment calls).tasks.set i (.taken w f) })
      (getElem?_set_task (task_of_post post) _) stopped
    refine ⟨calls, .tick (.tick .refl took) ?_⟩
    simpa only [State.moment, List.map_set, Task.ofPost, List.set_set] using dropped
  | @done i w p size rest a post queue going attempt good =>
    have taken := reached_of_taken (s := s.moment calls) (task_of_post post) queue going attempt
    refine ⟨calls ++ [.process i (p, size) (.ok ())], ?_⟩
    simpa only [State.moment, List.map_set, Task.ofPost, counted, report, noted, going, Bool.false_or,
      good] using taken
  | @failed i w p size rest a e post queue going attempt bad =>
    have taken := reached_of_taken (s := s.moment calls) (task_of_post post) queue going attempt
    refine ⟨calls ++ [.process i (p, size) (.error e)], ?_⟩
    simpa only [State.moment, List.map_set, Task.ofPost, counted, report, noted, going, Bool.false_or,
      bad] using taken
  | @closed i w shared post close =>
    refine ⟨calls ++ [.close i (.ok ())], .tick .refl ?_⟩
    simpa only [State.moment, List.map_set, Task.ofPost, noted] using
      Tick.closed (s := s.moment calls) (task_of_post post) close
  | @spoiled i w e shared post close =>
    refine ⟨calls ++ [.close i (.error e)], .tick .refl ?_⟩
    simpa only [State.moment, List.map_set, Task.ofPost, noted] using
      Tick.closed (s := s.moment calls) (task_of_post post) close

theorem reached_of_run (c : Crew ω σ ε) (s : State ω σ ε) (calls : List (Call ε)) (ms : List Move) :
    ∃ calls', Reached c (s.moment calls) ((c.run s ms).moment calls') := by
  induction ms generalizing s calls with
  | nil => exact ⟨calls, .refl⟩
  | cons m rest ih =>
    have first : ∃ calls', Reached c (s.moment calls) (((c.step s m).getD s).moment calls') := by
      cases moved : c.step s m with
      | none => exact ⟨calls, .refl⟩
      | some t =>
        by_cases stop : m = .stop
        · subst stop
          cases moved
          exact ⟨calls, .tail .refl (.inr rfl)⟩
        · exact reached_of_moved (moved_of_step stop moved) (present_of_grown moved)
    obtain ⟨between, first⟩ := first
    obtain ⟨last, others⟩ := ih ((c.step s m).getD s) between
    exact ⟨last, first.trans others⟩

theorem record_eq (s : State ω σ ε) (result : Except ε Unit) :
    s.record result = { s with fault := noted s.fault result } := by
  cases result <;> rfl

theorem reached_of_work (c : Crew ω σ ε) (root : Path) (workers : Nat) (visits : List Visit)
    (stopping : Bool) (shared : σ) :
    ∃ s, Reached c (outset root workers visits stopping shared) s ∧ s.walker = .finished ∧
      s.outward = c.work root workers visits stopping shared := by
  obtain ⟨ms, ended, work⟩ := exists_run_of_work c root workers visits stopping shared
  obtain ⟨calls, reached⟩ := reached_of_run c (start root workers visits stopping shared) [] ms
  generalize c.run (start root workers visits stopping shared) ms = e at ended work reached
  simp only [State.isOver, Bool.and_eq_true, Option.isNone_iff_eq_none] at ended
  have finished : Tick c (e.moment calls) _ := .finished (by simp [State.moment, ended.1, Walker.ofWalk])
    ((all_isGone_moment e calls).trans ended.2) rfl
  refine ⟨_, reached.tick finished, rfl, ?_⟩
  have posts := congrArg State.posts (outward_moment e calls)
  simp only [Moment.outward] at posts
  simp only [work, conclude, record_eq, State.emit, Moment.outward, posts, ended.1]
  rfl

end

def Task.toDo : Task ω ε → Nat
  | .vacant => 3
  | .ready _ => 2
  | .taken _ _ => 5
  | .cleared _ _ => 4
  | .reporting _ _ _ => 3
  | .closing _ => 1
  | .absent | .closed => 0

def Walker.toDo : Walker → Nat
  | .next visits => 6 * visits.length + 2
  | .sending _ visits => 6 * visits.length + 7
  | .ended => 1
  | .finished => 0

/-- The work that is left; a file in the queue has four actions before it. -/
def Moment.toDo (s : Moment ω σ ε) : Nat :=
  s.walker.toDo + 4 * s.queue.length + (s.tasks.map Task.toDo).sum

theorem perm_set {α : Type} {l : List α} {i : Nat} {a : α} (found : l[i]? = some a) (b : α) :
    (a :: l.set i b).Perm (b :: l) := by
  obtain ⟨bound, rfl⟩ := List.getElem?_eq_some_iff.mp found
  calc (l[i] :: l.set i b).Perm (l[i] :: b :: l.eraseIdx i) :=
        (List.set_perm_cons_eraseIdx bound b).cons _
    _ |>.Perm (b :: l[i] :: l.eraseIdx i) := .swap ..
    _ |>.Perm (b :: l) := (List.getElem_cons_eraseIdx_perm bound).cons b

theorem sum_set {tasks : List (Task ω ε)} {i : Nat} {p : Task ω ε} (task : tasks[i]? = some p)
    (q : Task ω ε) :
    p.toDo + ((tasks.set i q).map Task.toDo).sum = q.toDo + (tasks.map Task.toDo).sum := by
  simpa using ((perm_set task q).map Task.toDo).sum_eq

section

variable {c : Crew ω σ ε} {s t : Moment ω σ ε}

theorem tick_toDo (tick : Tick c s t) : t.toDo < s.toDo := by
  cases tick with
  | walked walker | abandoned walker _ | finished walker _ _ =>
    simp only [Moment.toDo, walker, Walker.toDo]
    omega
  | cut walker _ | passed walker _ _ | discovered walker _ _ =>
    simp only [Moment.toDo, walker, Walker.toDo, List.length_cons]
    omega
  | sent walker _ _ =>
    simp only [Moment.toDo, walker, Walker.toDo, List.length_append, List.length_singleton]
    omega
  | @hired i result shared task hire =>
    have := sum_set task (.ofHire result)
    cases result <;> simp only [Moment.toDo, Task.toDo, Task.ofHire] at this ⊢ <;> omega
  | @took i w f rest task queue =>
    have := sum_set task (.taken w f)
    simp only [Moment.toDo, Task.toDo, queue, List.length_cons] at this ⊢
    omega
  | @left i w task _ _ | @dropped i w _ task _ =>
    have := sum_set task (.closing w)
    simp only [Moment.toDo, Task.toDo] at this ⊢
    omega
  | @cleared i w f task _ =>
    have := sum_set task (.cleared w f)
    simp only [Moment.toDo, Task.toDo] at this ⊢
    omega
  | @processed i w f a task _ =>
    have := sum_set task (.reporting a.worker f a.result)
    simp only [Moment.toDo, Task.toDo] at this ⊢
    omega
  | @reported i w f result task =>
    have := sum_set task (.ready w)
    simp only [Moment.toDo, Task.toDo] at this ⊢
    omega
  | closed task _ =>
    have := sum_set task .closed
    simp only [Moment.toDo, Task.toDo] at this ⊢
    omega

theorem exists_tick_of_task {i : Nat} {p : Task ω ε} (task : s.tasks[i]? = some p)
    (present : p.isGone = false) (ready : s.queue ≠ [] ∨ s.walker = .ended) : ∃ t, Tick c s t := by
  cases p with
  | vacant => exact ⟨_, .hired task rfl⟩
  | ready w =>
    cases queue : s.queue with
    | nil => exact ⟨_, .left task queue (ready.resolve_left (not_not_intro queue))⟩
    | cons f rest => exact ⟨_, .took task queue⟩
  | taken w f =>
    cases stopping : s.stopping with
    | true => exact ⟨_, .dropped task stopping⟩
    | false => exact ⟨_, .cleared task stopping⟩
  | cleared w f => exact ⟨_, .processed task rfl⟩
  | reporting w f result => exact ⟨_, .reported task⟩
  | closing w => exact ⟨_, .closed task rfl⟩
  | absent | closed => cases present

theorem exists_tick (busy : s.walker ≠ .finished) : ∃ t, Tick c s t := by
  have present (some_left : s.tasks.all Task.isGone = false) :
      ∃ (i : Nat) (p : Task ω ε), s.tasks[i]? = some p ∧ p.isGone = false := by
    obtain ⟨p, member, here⟩ : ∃ p ∈ s.tasks, p.isGone = false := by simpa using some_left
    obtain ⟨i, task⟩ := List.getElem?_of_mem member
    exact ⟨i, p, task, here⟩
  cases walker : s.walker with
  | next visits =>
    cases visits with
    | nil => exact ⟨_, .walked walker⟩
    | cons v rest =>
      cases stopping : s.stopping with
      | true => exact ⟨_, .cut walker stopping⟩
      | false =>
        cases wanted : c.wanted? v with
        | none => exact ⟨_, .passed walker stopping wanted⟩
        | some f => exact ⟨_, .discovered walker stopping wanted⟩
  | sending f rest =>
    cases gone : s.tasks.all Task.isGone with
    | true => exact ⟨_, .abandoned walker gone⟩
    | false =>
      by_cases room : s.queue.length < s.tasks.length * queueDepth
      · exact ⟨_, .sent walker gone room⟩
      · -- the queue is full, so it holds a file for whoever is present
        obtain ⟨i, p, task, here⟩ := present gone
        have bound := (List.getElem?_eq_some_iff.mp task).1
        refine exists_tick_of_task task here (.inl fun empty => room ?_)
        simp only [empty, List.length_nil, queueDepth]
        omega
  | ended =>
    cases gone : s.tasks.all Task.isGone with
    | true => exact ⟨_, .finished walker gone rfl⟩
    | false =>
      obtain ⟨i, p, task, here⟩ := present gone
      exact exists_tick_of_task task here (.inr walker)
  | finished => exact absurd walker busy

end

end RomLedger.Crew
