import Mathlib
import RomLedger.Proofs.Work.Ledger

/- The two counters that say more than how many files were reported. The bytes are the sizes of the completed
   files. -/
namespace RomLedger.Crew

variable {ω σ ε : Type}

def State.sizes (s : State ω σ ε) : Nat := (s.completions.map fun f => f.2.toNat).sum

structure Tallied (s : State ω σ ε) : Prop where
  bytes : s.counts.bytes = UInt64.ofNat s.sizes
  discovered : s.counts.cancelled = false → (¬∀ p ∈ s.posts, p = .absent) →
    s.counts.discovered = UInt64.ofNat (s.completions.length + s.failures.length + s.queue.length)

theorem tallied_moved {c : Crew ω σ ε} (quiet : c.Quiet) {files : List (Path × UInt64)}
    {s t : State ω σ ε} (ledger : Ledger c files s) (tallied : Tallied s) (moved : Moved c s t) :
    Tallied t := by
  obtain ⟨bytes, discovered⟩ := tallied
  cases moved with
  | walked _ | passed _ _ _ => exact ⟨bytes, discovered⟩
  | cut _ _ => exact ⟨bytes, by simp⟩
  | abandoned walk _ _ gone =>
    -- all workers are gone before the walk has ended, so none was hired
    refine ⟨bytes, fun calm crewed => absurd (fun p member => ?_) crewed⟩
    have stays := ledger.staying calm (.inl (by simp [walk])) p member
    have left := List.all_eq_true.mp gone p member
    cases p <;> simp_all [Post.isLeaving, Post.isGone]
  | found _ _ _ _ =>
    refine ⟨bytes, fun calm crewed => ?_⟩
    have before := discovered calm crewed
    simp only [Counts.discover, before, State.completions, State.failures, List.length_append,
      List.length_singleton, ← Nat.add_assoc, UInt64.ofNat_add]
    rfl
  | refused _ _ =>
    exact ⟨bytes, fun calm crewed => discovered calm fun all => crewed (forall_posts_set all rfl)⟩
  | hired post _ | left post _ _ | closed post _ | spoiled post _ =>
    exact ⟨bytes, fun calm _ => discovered calm (not_absent_of_post post (by simp))⟩
  | dropped _ _ _ => exact ⟨bytes, by simp⟩
  | @done i w p size rest a post queue going attempt good =>
    obtain ⟨silent, sound⟩ := quiet.events attempt
    refine ⟨?_, fun calm _ => ?_⟩
    · simp [State.sizes, State.completions, Counts.complete, silent, Event.completed?, UInt64.ofNat_add, bytes]
    · have before := discovered calm (not_absent_of_post post (by simp))
      simp only [queue, List.length_cons] at before
      simp only [Counts.complete, before, State.completions, State.failures, List.filterMap_append, silent,
        sound]
      congr 1
      simp [List.filterMap_cons, Event.completed?, Event.failed?]
      omega
  | @failed i w p size rest a e post queue going attempt bad =>
    obtain ⟨silent, sound⟩ := quiet.events attempt
    refine ⟨?_, fun calm _ => ?_⟩
    · simpa [State.sizes, State.completions, Counts.fail, silent, List.filterMap_cons, Event.completed?]
        using bytes
    · have before := discovered calm (not_absent_of_post post (by simp))
      simp only [queue, List.length_cons] at before
      simp only [Counts.fail, before, State.completions, State.failures, List.filterMap_append, silent,
        sound]
      congr 1
      simp [List.filterMap_cons, Event.completed?, Event.failed?]
      omega

theorem tallied_run {c : Crew ω σ ε} (quiet : c.Quiet) (root : Path) (workers : Nat)
    (visits : List Visit) (stopping : Bool) (shared : σ) (ms : List Move) :
    Tallied (c.run (start root workers visits stopping shared) ms) := by
  have both := run_induction (c := c) (s := start root workers visits stopping shared)
    (P := fun s => Ledger c (visits.filterMap c.wanted?) s ∧ Tallied s)
    ⟨ledger_start c root workers visits stopping shared, rfl, fun _ _ => rfl⟩
    (fun _ _ before moved =>
      ⟨ledger_moved quiet before.1 moved, tallied_moved quiet before.1 before.2 moved⟩)
    (fun _ before => ⟨⟨before.1.staying, before.1.account⟩, before.2.bytes, before.2.discovered⟩) ms
  exact both.2

/-- A run that is over without being cancelled has reported all that it has discovered. -/
theorem Tallied.reported {c : Crew ω σ ε} {files : List (Path × UInt64)} {s : State ω σ ε}
    (tallied : Tallied s) (ledger : Ledger c files s) (ended : s.isOver = true)
    (calm : s.counts.cancelled = false) (crewed : ¬∀ p ∈ s.posts, p = .absent) :
    s.counts.discovered = UInt64.ofNat (s.completions.length + s.failures.length) := by
  rw [tallied.discovered calm crewed, ledger.emptied ended calm crewed]
  rfl

end RomLedger.Crew
