import RomLedger.Proofs.Work.Moves

/- Where the files of a tree are while a crew works: reported as completed or failed, in the queue, still to
   be met by the walk, or lost. A file is lost only by cancelling, or because no worker could be hired. -/
namespace RomLedger

namespace Event

def completed? : Event → Option (Path × UInt64)
  | .completed p size => some (p, size)
  | _ => none

def failed? : Event → Option Path
  | .failed p _ => some p
  | _ => none

end Event

namespace Counts

@[simp] theorem cancelled_discover (c : Counts) : c.discover.cancelled = c.cancelled := rfl

@[simp] theorem cancelled_complete (c : Counts) (size : UInt64) :
    (c.complete size).cancelled = c.cancelled := rfl

@[simp] theorem cancelled_fail (c : Counts) : c.fail.cancelled = c.cancelled := rfl

@[simp] theorem cancelled_cancel (c : Counts) : c.cancel.cancelled = true := rfl

end Counts

namespace Crew

variable {ω σ ε : Type}

def Post.isLeaving : Post ω → Bool
  | .closing _ | .closed => true
  | _ => false

namespace State

def completions (s : State ω σ ε) : List (Path × UInt64) := s.events.filterMap Event.completed?

def failures (s : State ω σ ε) : List Path := s.events.filterMap Event.failed?

def visits (s : State ω σ ε) : List Visit := s.walk.getD []

end State

/-- Whether the crew leaves it to the files' results to report them. -/
def Quiet (c : Crew ω σ ε) : Prop :=
  ∀ p size w shared, ∀ e ∈ (c.process p size w shared).events, e.completed? = none ∧ e.failed? = none

theorem Quiet.events {c : Crew ω σ ε} (quiet : c.Quiet) {p : Path} {size : UInt64} {w : ω} {shared : σ}
    {a : Attempt ω σ ε} (attempt : c.process p size w shared = a) :
    a.events.filterMap Event.completed? = [] ∧ a.events.filterMap Event.failed? = [] := by
  subst attempt
  exact ⟨List.filterMap_eq_nil_iff.mpr fun e member => (quiet p size w shared e member).1,
    List.filterMap_eq_nil_iff.mpr fun e member => (quiet p size w shared e member).2⟩

/-- Every file of the tree is in one place, and as long as nothing was cancelled no worker goes while
files may come. -/
structure Ledger (c : Crew ω σ ε) (files : List (Path × UInt64)) (s : State ω σ ε) : Prop where
  staying : s.counts.cancelled = false → s.walk ≠ none ∨ s.queue ≠ [] →
    ∀ p ∈ s.posts, p.isLeaving = false
  account : ∃ failed lost, failed.map Prod.fst = s.failures ∧
    (s.completions ++ failed ++ s.queue ++ s.visits.filterMap c.wanted? ++ lost).Perm files ∧
    (s.counts.cancelled = false → lost = [] ∨ ∀ p ∈ s.posts, p = .absent)

theorem not_absent_of_post {s : State ω σ ε} {i : Nat} {q : Post ω} (post : s.posts[i]? = some q)
    (present : q ≠ .absent) : ¬∀ p ∈ s.posts, p = .absent :=
  fun all => present (all q (List.mem_of_getElem? post))

theorem ledger_start (c : Crew ω σ ε) (root : Path) (workers : Nat) (visits : List Visit)
    (stopping : Bool) (shared : σ) :
    Ledger c (visits.filterMap c.wanted?) (start root workers visits stopping shared) where
  staying _ _ p member := by
    rw [(List.mem_replicate.mp member).2]
    rfl
  account := ⟨[], [], rfl, by
    simp [start, State.completions, State.visits, List.filterMap_cons, Event.completed?],
    fun _ => .inl rfl⟩

theorem ledger_moved {c : Crew ω σ ε} (quiet : c.Quiet) {files : List (Path × UInt64)}
    {s t : State ω σ ε} (ledger : Ledger c files s) (moved : Moved c s t) : Ledger c files t := by
  obtain ⟨staying, failed, lost, reported, perm, few⟩ := ledger
  cases moved with
  | walked ended =>
    refine ⟨fun going _ => staying going (.inl (by simp [ended])), failed, lost, reported, ?_, few⟩
    simpa [State.visits, State.completions, ended] using perm
  | @cut v rest walk stopped =>
    refine ⟨by simp, failed, (v :: rest).filterMap c.wanted? ++ lost, reported, ?_, by simp⟩
    simpa [State.visits, State.completions, walk] using perm
  | @passed v rest walk going other =>
    refine ⟨fun calm _ => staying calm (.inl (by simp [walk])), failed, lost, reported, ?_, few⟩
    simpa [State.visits, State.completions, walk, List.filterMap_cons_none other] using perm
  | @abandoned v rest f walk going wanted gone =>
    refine ⟨fun calm _ => staying calm (.inl (by simp [walk])), failed,
      (v :: rest).filterMap c.wanted? ++ lost, reported, ?_, fun calm => .inr fun p member => ?_⟩
    · simpa [State.visits, State.completions, walk] using perm
    · have stays := staying calm (.inl (by simp [walk])) p member
      have left := List.all_eq_true.mp gone p member
      cases p <;> simp_all [Post.isLeaving, Post.isGone]
  | @found v rest f walk going wanted room =>
    refine ⟨fun calm _ => staying calm (.inl (by simp [walk])), failed, lost, reported, ?_, few⟩
    simpa [State.visits, State.completions, walk, List.filterMap_cons_some wanted] using perm
  | hired post hire =>
    refine ⟨fun calm busy => forall_posts_set (staying calm busy) rfl, failed, lost, reported, perm,
      fun calm => (few calm).imp_right fun all => ?_⟩
    exact absurd all (not_absent_of_post post nofun)
  | refused post hire =>
    exact ⟨fun calm busy => forall_posts_set (staying calm busy) rfl, failed, lost, reported, perm,
      fun calm => (few calm).imp_right fun all => forall_posts_set all rfl⟩
  | left post empty ended =>
    refine ⟨fun _ busy => ?_, failed, lost, reported, perm, fun calm => (few calm).imp_right fun all => ?_⟩
    · simp [empty, ended] at busy
    · exact absurd all (not_absent_of_post post nofun)
  | @dropped i w f rest post queue stopped =>
    refine ⟨by simp, failed, f :: lost, reported, ?_, by simp⟩
    simp only [List.perm_iff_count, List.count_append, List.count_cons, queue, State.completions,
      State.visits] at perm ⊢
    intro g
    have := perm g
    omega
  | @done i w p size rest a post queue going attempt good =>
    obtain ⟨silent, sound⟩ := quiet.events attempt
    refine ⟨fun calm _ => forall_posts_set (staying calm (.inr (by simp [queue]))) rfl, failed, lost, ?_,
      ?_, fun calm => (few calm).imp_right fun all => ?_⟩
    · simpa [State.failures, sound, List.filterMap_cons, Event.failed?] using reported
    · simp only [List.perm_iff_count, List.count_append, List.count_cons, queue, State.completions,
        State.visits, List.filterMap_append, silent, List.filterMap_cons, List.filterMap_nil,
        Event.completed?, List.count_nil] at perm ⊢
      intro g
      have := perm g
      omega
    · exact absurd all (not_absent_of_post post nofun)
  | @failed i w p size rest a e post queue going attempt bad =>
    obtain ⟨silent, sound⟩ := quiet.events attempt
    refine ⟨fun calm _ => forall_posts_set (staying calm (.inr (by simp [queue]))) rfl,
      failed ++ [(p, size)], lost, ?_, ?_, fun calm => (few calm).imp_right fun all => ?_⟩
    · simp [State.failures, sound, Event.failed?, reported]
    · simp only [List.perm_iff_count, List.count_append, List.count_cons, queue, State.completions,
        State.visits, List.filterMap_append, silent, List.filterMap_cons, List.filterMap_nil,
        Event.completed?, List.count_nil] at perm ⊢
      intro g
      have := perm g
      omega
    · exact absurd all (not_absent_of_post post nofun)
  | closed post close =>
    refine ⟨fun calm busy => ?_, failed, lost, reported, perm, fun calm => (few calm).imp_right fun all => ?_⟩
    · exact absurd (staying calm busy _ (List.mem_of_getElem? post)) nofun
    · exact absurd all (not_absent_of_post post nofun)
  | spoiled post close =>
    refine ⟨fun calm busy => ?_, failed, lost, reported, perm, fun calm => (few calm).imp_right fun all => ?_⟩
    · exact absurd (staying calm busy _ (List.mem_of_getElem? post)) nofun
    · exact absurd all (not_absent_of_post post nofun)

theorem ledger_run {c : Crew ω σ ε} (quiet : c.Quiet) (root : Path) (workers : Nat)
    (visits : List Visit) (stopping : Bool) (shared : σ) (ms : List Move) :
    Ledger c (visits.filterMap c.wanted?) (c.run (start root workers visits stopping shared) ms) :=
  run_induction (ledger_start c root workers visits stopping shared)
    (fun _ _ ledger moved => ledger_moved quiet ledger moved)
    (fun _ ledger => ⟨ledger.staying, ledger.account⟩) ms

theorem Ledger.emptied {c : Crew ω σ ε} {files : List (Path × UInt64)} {s : State ω σ ε}
    (ledger : Ledger c files s) (ended : s.isOver = true) (calm : s.counts.cancelled = false)
    (crewed : ¬∀ p ∈ s.posts, p = .absent) : s.queue = [] := by
  simp only [State.isOver, Bool.and_eq_true, List.all_eq_true] at ended
  refine Decidable.by_contra fun waiting => crewed fun p member => ?_
  have stays := ledger.staying calm (.inr waiting) p member
  have left := ended.2 p member
  cases p <;> simp_all [Post.isLeaving, Post.isGone]

theorem Ledger.complete {c : Crew ω σ ε} {files : List (Path × UInt64)} {s : State ω σ ε}
    (ledger : Ledger c files s) (ended : s.isOver = true) (calm : s.counts.cancelled = false)
    (crewed : ¬∀ p ∈ s.posts, p = .absent) :
    ∃ failed, failed.map Prod.fst = s.failures ∧ (s.completions ++ failed).Perm files := by
  have empty := ledger.emptied ended calm crewed
  obtain ⟨staying, failed, lost, reported, perm, few⟩ := ledger
  simp only [State.isOver, Bool.and_eq_true, Option.isNone_iff_eq_none] at ended
  have none_lost : lost = [] := (few calm).resolve_right crewed
  exact ⟨failed, reported, by simpa [empty, none_lost, State.visits, ended.1] using perm⟩

theorem Ledger.completed_mem {c : Crew ω σ ε} {files : List (Path × UInt64)} {s : State ω σ ε}
    (ledger : Ledger c files s) {f : Path × UInt64} (completed : f ∈ s.completions) : f ∈ files := by
  obtain ⟨_, failed, lost, _, perm, _⟩ := ledger
  exact perm.mem_iff.mp (by simp [completed])

/-- The counters say how many files were reported, up to wrapping. -/
structure Counted (s : State ω σ ε) : Prop where
  processed : s.counts.processed = UInt64.ofNat s.completions.length
  failed : s.counts.failed = UInt64.ofNat s.failures.length

theorem counted_moved {c : Crew ω σ ε} (quiet : c.Quiet) {s t : State ω σ ε} (counted : Counted s)
    (moved : Moved c s t) : Counted t := by
  obtain ⟨processed, failed⟩ := counted
  cases moved with
  | done _ _ _ attempt _ =>
    obtain ⟨silent, sound⟩ := quiet.events attempt
    constructor
    · simp [State.completions, Counts.complete, silent, Event.completed?, processed, UInt64.ofNat_add]
    · simpa [State.failures, Counts.complete, sound, List.filterMap_cons, Event.failed?] using failed
  | failed _ _ _ attempt _ =>
    obtain ⟨silent, sound⟩ := quiet.events attempt
    constructor
    · simpa [State.completions, Counts.fail, silent, List.filterMap_cons, Event.completed?] using
        processed
    · simp [State.failures, Counts.fail, sound, Event.failed?, failed, UInt64.ofNat_add]
  | _ => exact ⟨processed, failed⟩

theorem counted_run {c : Crew ω σ ε} (quiet : c.Quiet) (root : Path) (workers : Nat)
    (visits : List Visit) (stopping : Bool) (shared : σ) (ms : List Move) :
    Counted (c.run (start root workers visits stopping shared) ms) :=
  run_induction ⟨rfl, rfl⟩ (fun _ _ counted moved => counted_moved quiet counted moved)
    (fun _ counted => ⟨counted.processed, counted.failed⟩) ms

end Crew
end RomLedger
