import RomLedger.Proofs.Work.Interleaving

/- Where every file is between any two actions: still ahead of the walk, offered to the queue, in it, in the
   hands of a worker, handed to a call, or lost. A file is lost only by cancelling, or because no worker could
   be hired. -/
namespace RomLedger

def Event.isFlush : Event → Bool
  | .flushed _ _ => true
  | _ => false

namespace Crew

variable {ω σ ε : Type}

/-- Whether a crew emits nothing on its own but flushes. -/
def Modest (c : Crew ω σ ε) : Prop :=
  ∀ p size w shared, ∀ e ∈ (c.process p size w shared).events, e.isFlush = true

def Walker.isOut : Walker → Bool
  | .next _ | .sending _ _ => true
  | .ended | .finished => false

def Walker.ending (k : Counts) : Walker → List Event
  | .finished => [.summary k]
  | _ => []

theorem Walker.ending_of_unfinished {w : Walker} (busy : w ≠ .finished) (k : Counts) : w.ending k = [] := by
  cases w with
  | finished => exact absurd rfl busy
  | next _ | sending _ _ | ended => rfl

namespace Task

def isLeaving : Task ω ε → Bool
  | .closing _ | .closed => true
  | _ => false

def inHand : Task ω ε → List (Path × UInt64)
  | .taken _ f | .cleared _ f => [f]
  | _ => []

/-- The result that a worker has yet to report. -/
def pending : Task ω ε → List ((Path × UInt64) × Except ε Unit)
  | .reporting _ f result => [(f, result)]
  | _ => []

end Task

namespace Call

def result : Call ε → Except ε Unit
  | .hire _ r | .process _ _ r | .close _ r | .finish r => r

def attempt? : Call ε → Option ((Path × UInt64) × Except ε Unit)
  | .process _ f r => some (f, r)
  | _ => none

end Call

namespace Moment

/-- The files that were handed to a worker's call, each with what came of it. -/
def attempts (s : Moment ω σ ε) : List ((Path × UInt64) × Except ε Unit) :=
  s.calls.filterMap Call.attempt?

def handed (s : Moment ω σ ε) : List (Path × UInt64) := s.attempts.map Prod.fst

def done (s : Moment ω σ ε) : List (Path × UInt64) := (s.attempts.filter (·.2.isOk)).map Prod.fst

def refused (s : Moment ω σ ε) : List (Path × UInt64) := (s.attempts.filter (!·.2.isOk)).map Prod.fst

def offered (s : Moment ω σ ε) : List (Path × UInt64) :=
  match s.walker with
  | .sending f _ => [f]
  | _ => []

def ahead (s : Moment ω σ ε) : List Visit :=
  match s.walker with
  | .next visits | .sending _ visits => visits
  | _ => []

end Moment

theorem perm_flatMap_set {α : Type} {tasks : List (Task ω ε)} {i : Nat} {p : Task ω ε}
    (task : tasks[i]? = some p) (q : Task ω ε) (g : Task ω ε → List α) :
    (g p ++ (tasks.set i q).flatMap g).Perm (g q ++ tasks.flatMap g) := by
  simpa using (perm_set task q).flatMap_right g

structure Kept (s : Moment ω σ ε) : Prop where
  asked : s.counts.cancelled = true → s.stopping = true
  staying : s.counts.cancelled = false → s.walker.isOut = true ∨ s.queue ≠ [] →
    ∀ p ∈ s.tasks, p.isLeaving = false
  finished : s.walker = .finished → ∀ p ∈ s.tasks, p.isGone = true

theorem Kept.unfinished {s : Moment ω σ ε} (kept : Kept s) {i : Nat} {p : Task ω ε}
    (task : s.tasks[i]? = some p) (present : p.isGone = false) : s.walker ≠ .finished := by
  intro ended
  have gone := kept.finished ended p (List.mem_of_getElem? task)
  rw [present] at gone
  cases gone

theorem kept_tick {c : Crew ω σ ε} {s t : Moment ω σ ε} (kept : Kept s) (tick : Tick c s t) : Kept t := by
  have ⟨asked, staying, finished⟩ := kept
  cases tick with
  | walked walker => exact ⟨asked, fun calm _ => staying calm (.inl (by simp [walker, Walker.isOut])), nofun⟩
  | cut walker stopped => exact ⟨fun _ => stopped, nofun, nofun⟩
  | passed walker _ _ | discovered walker _ _ | abandoned walker _ | sent walker _ _ =>
    exact ⟨asked, fun calm _ => staying calm (.inl (by simp [walker, Walker.isOut])), nofun⟩
  | @hired i result shared task hire =>
    refine ⟨asked, fun calm busy => forall_posts_set (staying calm busy) ?_,
      fun ended => absurd ended (kept.unfinished task rfl)⟩
    cases result <;> rfl
  | took task queue =>
    exact ⟨asked, fun calm _ => forall_posts_set (staying calm (.inr (by simp [queue]))) rfl,
      fun ended => absurd ended (kept.unfinished task rfl)⟩
  | left task empty ended =>
    refine ⟨asked, fun _ busy => ?_, fun ended => absurd ended (kept.unfinished task rfl)⟩
    simp [empty, ended, Walker.isOut] at busy
  | dropped task stopped =>
    exact ⟨fun _ => stopped, nofun, fun ended => absurd ended (kept.unfinished task rfl)⟩
  | cleared task _ =>
    exact ⟨asked, fun calm busy => forall_posts_set (staying calm busy) rfl,
      fun ended => absurd ended (kept.unfinished task rfl)⟩
  | processed task _ =>
    exact ⟨fun cancelled => by simp [asked cancelled],
      fun calm busy => forall_posts_set (staying calm busy) rfl,
      fun ended => absurd ended (kept.unfinished task rfl)⟩
  | @reported i w f result task =>
    have same : (counted s.counts f.2 result).cancelled = s.counts.cancelled := by cases result <;> rfl
    rw [← same] at asked staying
    exact ⟨asked, fun calm busy => forall_posts_set (staying calm busy) rfl,
      fun ended => absurd ended (kept.unfinished task rfl)⟩
  | closed task _ =>
    refine ⟨asked, fun calm busy => ?_, fun ended => absurd ended (kept.unfinished task rfl)⟩
    exact absurd (staying calm busy _ (List.mem_of_getElem? task)) nofun
  | finished ended gone _ =>
    exact ⟨asked, fun calm busy => staying calm (.inr (busy.resolve_left (by simp [Walker.isOut]))),
      fun _ => List.all_eq_true.mp gone⟩

/-- Every file of the tree is in one place: `found` are those that the walk has counted, `lost` those of
them that nobody will work on, and `cut` those that the walk will not come to. -/
structure Custody (c : Crew ω σ ε) (files : List (Path × UInt64)) (s : Moment ω σ ε)
    (found lost cut : List (Path × UInt64)) : Prop where
  counted : s.counts.discovered = UInt64.ofNat found.length
  places : (s.handed ++ s.tasks.flatMap Task.inHand ++ s.queue ++ s.offered ++ lost).Perm found
  files : (found ++ s.ahead.filterMap c.wanted? ++ cut).Perm files
  spared : s.counts.cancelled = false → lost = [] ∧ cut = [] ∨ ∀ p ∈ s.tasks, p = .absent

theorem Custody.exchange {c : Crew ω σ ε} {files found lost cut gone : List (Path × UInt64)}
    {s t : Moment ω σ ε} (custody : Custody c files s found lost cut) {i : Nat} {p q : Task ω ε}
    (task : s.tasks[i]? = some p) (tasks : t.tasks = s.tasks.set i q) (walker : t.walker = s.walker)
    (discovered : t.counts.discovered = s.counts.discovered)
    (balance : (q.inHand ++ t.handed ++ t.queue ++ gone).Perm (p.inHand ++ s.handed ++ s.queue))
    (present : p.isGone = false) (kept : t.counts.cancelled = false → s.counts.cancelled = false ∧ gone = []) :
    Custody c files t found (gone ++ lost) cut where
  counted := discovered.trans custody.counted
  places := by
    have places := custody.places
    have moved := perm_flatMap_set task q Task.inHand
    simp only [List.perm_iff_count, List.count_append, Moment.offered, tasks, walker]
      at places moved balance ⊢
    intro f
    have := places f
    have := moved f
    have := balance f
    omega
  files := by
    have files := custody.files
    simpa only [Moment.ahead, walker] using files
  spared calm := by
    obtain ⟨calm, none_gone⟩ := kept calm
    rcases custody.spared calm with ⟨none_lost, uncut⟩ | absent
    · exact .inl ⟨by rw [none_gone, none_lost, List.append_nil], uncut⟩
    · rw [absent p (List.mem_of_getElem? task)] at present
      cases present

theorem custody_tick {c : Crew ω σ ε} {files found lost cut : List (Path × UInt64)} {s t : Moment ω σ ε}
    (kept : Kept s) (custody : Custody c files s found lost cut) (tick : Tick c s t) :
    ∃ found' lost' cut', Custody c files t found' lost' cut' := by
  have ⟨counted, places, files, spared⟩ := custody
  cases tick with
  | walked walker =>
    simp only [Moment.offered, Moment.ahead, walker] at places files
    exact ⟨found, lost, cut, counted, places, files, spared⟩
  | @cut v rest walker stopped =>
    simp only [Moment.offered, Moment.ahead, walker] at places files
    refine ⟨found, lost, (v :: rest).filterMap c.wanted? ++ cut, counted, places, ?_,
      fun calm => absurd calm.symm Bool.false_ne_true⟩
    simpa [Moment.ahead] using files
  | passed walker going other =>
    simp only [Moment.offered, Moment.ahead, walker, List.filterMap_cons_none other] at places files
    exact ⟨found, lost, cut, counted, places, files, spared⟩
  | @discovered v rest f walker going wanted =>
    simp only [Moment.offered, Moment.ahead, walker, List.filterMap_cons_some wanted] at places files
    refine ⟨found ++ [f], lost, cut, ?_, ?_, ?_, spared⟩
    · simp [Counts.discover, counted, UInt64.ofNat_add]
    · simp only [List.perm_iff_count, List.count_append, List.count_nil, Moment.offered, Moment.handed,
        Moment.attempts] at places ⊢
      intro g
      have := places g
      omega
    · simpa [Moment.ahead] using files
  | @abandoned f rest walker gone =>
    have out : s.walker.isOut = true := by simp [walker, Walker.isOut]
    simp only [Moment.offered, Moment.ahead, walker] at places files
    refine ⟨found, f :: lost, rest.filterMap c.wanted? ++ cut, counted, ?_, ?_, fun calm => .inr ?_⟩
    · simpa [Moment.offered, Moment.handed, Moment.attempts] using places
    · simpa [Moment.ahead] using files
    · -- nobody leaves a walk that goes on uncancelled, so nobody was hired
      intro p member
      have left := List.all_eq_true.mp gone p member
      have stays := kept.staying calm (.inl out) p member
      cases p <;> simp_all [Task.isGone, Task.isLeaving]
  | @sent f rest walker present room =>
    simp only [Moment.offered, Moment.ahead, walker] at places files
    refine ⟨found, lost, cut, counted, ?_, files, spared⟩
    simpa [Moment.offered, Moment.handed, Moment.attempts] using places
  | @hired i result shared task hire =>
    refine ⟨found, [] ++ lost, cut, ?_⟩
    refine custody.exchange task rfl rfl rfl ?_ rfl fun calm => ⟨calm, rfl⟩
    cases result <;>
      simp [Task.inHand, Task.ofHire, Moment.handed, Moment.attempts, List.filterMap_cons, Call.attempt?]
  | @took i w f rest task queue =>
    refine ⟨found, [] ++ lost, cut, ?_⟩
    refine custody.exchange task rfl rfl rfl ?_ rfl fun calm => ⟨calm, rfl⟩
    simpa [Task.inHand, queue, Moment.handed, Moment.attempts] using List.perm_middle.symm
  | left task empty ended =>
    refine ⟨found, [] ++ lost, cut, ?_⟩
    refine custody.exchange task rfl rfl rfl ?_ rfl fun calm => ⟨calm, rfl⟩
    simp [Task.inHand, Moment.handed, Moment.attempts]
  | @dropped i w f task stopped =>
    refine ⟨found, [f] ++ lost, cut, ?_⟩
    refine custody.exchange task rfl rfl rfl ?_ rfl fun calm => absurd calm.symm Bool.false_ne_true
    simpa [Task.inHand, Moment.handed, Moment.attempts] using
      List.perm_append_singleton f (s.handed ++ s.queue)
  | cleared task _ =>
    refine ⟨found, [] ++ lost, cut, ?_⟩
    refine custody.exchange task rfl rfl rfl ?_ rfl fun calm => ⟨calm, rfl⟩
    simp [Task.inHand, Moment.handed, Moment.attempts]
  | @processed i w f a task attempt =>
    refine ⟨found, [] ++ lost, cut, ?_⟩
    refine custody.exchange task rfl rfl rfl ?_ rfl fun calm => ⟨calm, rfl⟩
    simp [Task.inHand, Moment.handed, Moment.attempts, Call.attempt?]
  | @reported i w f result task =>
    refine ⟨found, [] ++ lost, cut, ?_⟩
    have same : (Crew.counted s.counts f.2 result).discovered = s.counts.discovered ∧
        (Crew.counted s.counts f.2 result).cancelled = s.counts.cancelled := by
      cases result <;> exact ⟨rfl, rfl⟩
    refine custody.exchange task rfl rfl same.1 ?_ rfl fun calm => ⟨same.2.symm.trans calm, rfl⟩
    simp [Task.inHand, Moment.handed, Moment.attempts]
  | closed task _ =>
    refine ⟨found, [] ++ lost, cut, ?_⟩
    refine custody.exchange task rfl rfl rfl ?_ rfl fun calm => ⟨calm, rfl⟩
    simp [Task.inHand, Moment.handed, Moment.attempts, List.filterMap_cons, Call.attempt?]
  | finished ended gone finish =>
    simp only [Moment.offered, Moment.ahead, ended] at places files
    refine ⟨found, lost, cut, counted, ?_, files, spared⟩
    simpa [Moment.offered, Moment.handed, Moment.attempts, List.filterMap_cons, Call.attempt?] using places

structure Told (c : Crew ω σ ε) (root : Path) (workers : Nat) (s : Moment ω σ ε)
    (reported : List ((Path × UInt64) × Except ε Unit)) : Prop where
  attempts : (reported ++ s.tasks.flatMap Task.pending).Perm s.attempts
  processed : s.counts.processed = UInt64.ofNat (reported.filter (·.2.isOk)).length
  failed : s.counts.failed = UInt64.ofNat (reported.filter (!·.2.isOk)).length
  bytes : s.counts.bytes = UInt64.ofNat ((reported.filter (·.2.isOk)).map (·.1.2.toNat)).sum
  fault : s.fault.isSome = true ↔ (∃ r ∈ reported, r.2.isOk = false) ∨
    ∃ k ∈ s.calls, k.attempt? = none ∧ k.result.isOk = false
  events : c.Modest → ∃ middle, s.events = .started root workers :: middle ++ s.walker.ending s.counts ∧
    middle.filter (!·.isFlush) = reported.map fun r => c.report r.1 r.2

theorem isSome_noted (fault : Option ε) (result : Except ε Unit) :
    (noted fault result).isSome = true ↔ fault.isSome = true ∨ result.isOk = false := by
  cases result <;> cases fault <;> simp [noted, Except.isOk, Except.toBool]

theorem isSome_noted_call {fault : Option ε} {told : Prop} {calls : List (Call ε)} {k : Call ε}
    (before : fault.isSome = true ↔ told ∨ ∃ l ∈ calls, l.attempt? = none ∧ l.result.isOk = false)
    (plain : k.attempt? = none) :
    (noted fault k.result).isSome = true ↔
      told ∨ ∃ l ∈ calls ++ [k], l.attempt? = none ∧ l.result.isOk = false := by
  have last : (∃ l ∈ calls ++ [k], l.attempt? = none ∧ l.result.isOk = false) ↔
      (∃ l ∈ calls, l.attempt? = none ∧ l.result.isOk = false) ∨ k.result.isOk = false := by
    simp [or_and_right, exists_or, plain]
  rw [isSome_noted, before, last, or_assoc]

theorem told_tick {c : Crew ω σ ε} {root : Path} {workers : Nat} {s t : Moment ω σ ε}
    {reported : List ((Path × UInt64) × Except ε Unit)} (kept : Kept s)
    (told : Told c root workers s reported) (tick : Tick c s t) :
    ∃ reported', Told c root workers t reported' := by
  have ⟨attempts, processed, failed, bytes, fault, events⟩ := told
  have same {q p : Task ω ε} {i : Nat} (task : s.tasks[i]? = some p) (old : p.pending = [])
      (new : q.pending = []) : (reported ++ (s.tasks.set i q).flatMap Task.pending).Perm s.attempts := by
    have moved := perm_flatMap_set task q Task.pending
    rw [old, new] at moved
    exact (moved.append_left reported).trans attempts
  cases tick with
  | walked walker | cut walker _ | passed walker _ _ | discovered walker _ _ | abandoned walker _
  | sent walker _ _ =>
    simp only [walker, Walker.ending] at events
    exact ⟨reported, attempts, processed, failed, bytes, fault, events⟩
  | took task _ | left task _ _ | cleared task _ =>
    exact ⟨reported, same task rfl rfl, processed, failed, bytes, fault, events⟩
  | dropped task _ =>
    simp only [Walker.ending_of_unfinished (kept.unfinished task rfl)] at events
    refine ⟨reported, same task rfl rfl, processed, failed, bytes, fault, ?_⟩
    simpa only [Walker.ending_of_unfinished (kept.unfinished task rfl)] using events
  | @hired i result shared task hire =>
    have unchanged := same (q := .ofHire result) task rfl (by cases result <;> rfl)
    refine ⟨reported, ?_, processed, failed, bytes, isSome_noted_call (k := .hire i _) fault rfl, events⟩
    simpa [Moment.attempts, List.filterMap_cons, Call.attempt?] using unchanged
  | @processed i w f a task attempt =>
    have moved := perm_flatMap_set task (.reporting a.worker f a.result) Task.pending
    have busy := kept.unfinished task rfl
    refine ⟨reported, ?_, processed, failed, bytes, fault.trans (by simp [Call.attempt?]), fun modest => ?_⟩
    · have grown : ((s.tasks.set i (.reporting a.worker f a.result)).flatMap Task.pending).Perm
          ((f, a.result) :: s.tasks.flatMap Task.pending) := moved
      have attempts' := (List.perm_append_singleton (f, a.result) _).symm.trans (attempts.append_right _)
      simpa [Moment.attempts, Call.attempt?] using
        (grown.append_left reported).trans (List.perm_middle.trans attempts')
    · obtain ⟨middle, story, shown⟩ := events modest
      have flushes : a.events.filter (!·.isFlush) = [] := by
        subst attempt
        simpa using modest f.1 f.2 w s.shared
      refine ⟨middle ++ a.events, ?_, ?_⟩
      · simp [story, Walker.ending_of_unfinished busy]
      · rw [List.filter_append, flushes, List.append_nil, shown]
  | @reported i w f result task =>
    have moved := perm_flatMap_set task (.ready w) Task.pending
    have busy := kept.unfinished task rfl
    refine ⟨reported ++ [(f, result)], ?_, ?_, ?_, ?_, ?_, fun modest => ?_⟩
    · rw [List.append_assoc]
      exact (moved.append_left reported).trans attempts
    · cases result <;>
        simp [Crew.counted, Counts.complete, Counts.fail, processed, UInt64.ofNat_add, Except.isOk,
          Except.toBool]
    · cases result <;>
        simp [Crew.counted, Counts.complete, Counts.fail, failed, UInt64.ofNat_add, Except.isOk,
          Except.toBool]
    · cases result <;>
        simp [Crew.counted, Counts.complete, Counts.fail, bytes, UInt64.ofNat_add, Except.isOk,
          Except.toBool]
    · rw [isSome_noted, fault]
      simp only [List.mem_append, List.mem_singleton, or_and_right, exists_or, exists_eq_left]
      exact or_right_comm
    · obtain ⟨middle, story, shown⟩ := events modest
      have own : (c.report f result).isFlush = false := by cases result <;> rfl
      refine ⟨middle ++ [c.report f result], ?_, ?_⟩
      · simp [story, Walker.ending_of_unfinished busy]
      · simp [shown, own]
  | @closed i w result shared task close =>
    have unchanged := same (q := .closed) task rfl rfl
    refine ⟨reported, ?_, processed, failed, bytes, isSome_noted_call (k := .close i _) fault rfl, events⟩
    simpa [Moment.attempts, List.filterMap_cons, Call.attempt?] using unchanged
  | @finished result shared ended gone finish =>
    simp only [ended, Walker.ending, List.append_nil] at events
    refine ⟨reported, ?_, processed, failed, bytes, isSome_noted_call (k := .finish _) fault rfl,
      fun modest => ?_⟩
    · simpa [Moment.attempts, List.filterMap_cons, Call.attempt?] using attempts
    · obtain ⟨middle, story, shown⟩ := events modest
      exact ⟨middle, by rw [story]; rfl, shown⟩

section

variable {c : Crew ω σ ε} {root : Path} {workers : Nat} {visits : List Visit} {stopping : Bool} {shared : σ}
  {s : Moment ω σ ε}

theorem tasks_outset (p : Task ω ε)
    (member : p ∈ (outset root workers visits stopping shared : Moment ω σ ε).tasks) : p = .vacant := by
  simp only [outset, State.moment, start, List.map_replicate] at member
  exact (List.mem_replicate.mp member).2

theorem flatMap_outset {α : Type} {g : Task ω ε → List α} (none_yet : g .vacant = []) :
    (outset root workers visits stopping shared : Moment ω σ ε).tasks.flatMap g = [] :=
  List.flatMap_eq_nil_iff.mpr fun p member => by rw [tasks_outset p member, none_yet]

theorem unfinished_outset :
    (outset root workers visits stopping shared : Moment ω σ ε).walker ≠ .finished :=
  nofun

theorem kept_outset : Kept (outset root workers visits stopping shared : Moment ω σ ε) where
  asked cancelled := absurd cancelled Bool.false_ne_true
  staying _ _ p member := by
    rw [tasks_outset p member]
    rfl
  finished ended := absurd ended unfinished_outset

theorem Kept.stop {s : Moment ω σ ε} (kept : Kept s) : Kept { s with stopping := true } :=
  ⟨fun _ => rfl, kept.staying, kept.finished⟩

theorem kept_reached (reached : Reached c (outset root workers visits stopping shared) s) : Kept s :=
  reached_induction kept_outset (fun _ _ => kept_tick) (fun _ => Kept.stop) reached

theorem custody_reached (reached : Reached c (outset root workers visits stopping shared) s) :
    ∃ found lost cut, Custody c (visits.filterMap c.wanted?) s found lost cut := by
  refine (reached_induction (P := fun s => Kept s ∧ ∃ found lost cut,
    Custody c (visits.filterMap c.wanted?) s found lost cut) ?_ ?_ ?_ reached).2
  · refine ⟨kept_outset, [], [], [], rfl, ?_, ?_, fun _ => .inl ⟨rfl, rfl⟩⟩
    · rw [flatMap_outset rfl]
      exact .refl _
    · simp [Moment.ahead, outset, State.moment, start, Walker.ofWalk]
  · rintro s t ⟨kept, found, lost, cut, custody⟩ tick
    exact ⟨kept_tick kept tick, custody_tick kept custody tick⟩
  · rintro s ⟨kept, found, lost, cut, custody⟩
    exact ⟨kept.stop, found, lost, cut, custody.counted, custody.places, custody.files, custody.spared⟩

theorem told_reached (reached : Reached c (outset root workers visits stopping shared) s) :
    ∃ reported, Told c root (max 1 workers) s reported := by
  refine (reached_induction (P := fun s => Kept s ∧ ∃ reported, Told c root (max 1 workers) s reported)
    ?_ ?_ ?_ reached).2
  · refine ⟨kept_outset, [], ?_, rfl, rfl, rfl, ?_, fun _ => ⟨[], rfl, rfl⟩⟩
    · rw [flatMap_outset rfl]
      exact .refl _
    · simp [outset, State.moment, start]
  · rintro s t ⟨kept, reported, told⟩ tick
    exact ⟨kept_tick kept tick, told_tick kept told tick⟩
  · rintro s ⟨kept, reported, told⟩
    exact ⟨kept.stop, reported, told.attempts, told.processed, told.failed, told.bytes, told.fault,
      told.events⟩

end

theorem Kept.calm {s : Moment ω σ ε} (kept : Kept s) (going : s.stopping = false) :
    s.counts.cancelled = false := by
  refine Bool.eq_false_iff.mpr fun cancelled => ?_
  rw [kept.asked cancelled] at going
  cases going

theorem Kept.idle {α : Type} {s : Moment ω σ ε} (kept : Kept s) (ended : s.walker = .finished)
    {g : Task ω ε → List α} (absent : g .absent = []) (closed : g .closed = []) : s.tasks.flatMap g = [] := by
  refine List.flatMap_eq_nil_iff.mpr fun p member => ?_
  have gone := kept.finished ended p member
  cases p <;> simp_all [Task.isGone]

theorem Custody.complete {c : Crew ω σ ε} {files found lost cut : List (Path × UInt64)}
    {s : Moment ω σ ε} (custody : Custody c files s found lost cut) (kept : Kept s)
    (ended : s.walker = .finished) (calm : s.counts.cancelled = false)
    (crewed : ¬∀ p ∈ s.tasks, p = .absent) :
    s.handed.Perm files ∧ s.counts.discovered = UInt64.ofNat files.length := by
  have empty : s.queue = [] := by
    refine Decidable.by_contra fun waiting => crewed fun p member => ?_
    have stays := kept.staying calm (.inr waiting) p member
    have gone := kept.finished ended p member
    cases p <;> simp_all [Task.isLeaving, Task.isGone]
  obtain ⟨none_lost, uncut⟩ := (custody.spared calm).resolve_right crewed
  have places := custody.places
  have files := custody.files
  rw [kept.idle ended rfl rfl, empty, none_lost] at places
  simp only [Moment.offered, Moment.ahead, ended, uncut, List.append_nil, List.filterMap_nil] at places files
  exact ⟨places.trans files, custody.counted.trans (congrArg UInt64.ofNat files.length_eq)⟩

theorem Told.complete {c : Crew ω σ ε} {root : Path} {workers : Nat} {s : Moment ω σ ε}
    {reported : List ((Path × UInt64) × Except ε Unit)} (told : Told c root workers s reported)
    (kept : Kept s) (ended : s.walker = .finished) : reported.Perm s.attempts := by
  have attempts := told.attempts
  rwa [kept.idle ended rfl rfl, List.append_nil] at attempts

end Crew
end RomLedger
