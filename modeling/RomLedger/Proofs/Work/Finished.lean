import RomLedger.Proofs.Catalog.Digest
import RomLedger.Proofs.Disk.Walk
import RomLedger.Proofs.Work.Refresh

/- Refreshes that have come to their end: any number of workers, any order of the visits and of the moves, and
   the stop flag set at any time. -/
namespace RomLedger.Refresh

open Crew

variable {σ : Type}

def Finished (d : Disk σ) (root : Path) (o : Options) (i : Index) (s : State Worker Index Fault) : Prop :=
  d.isDirectory root = true ∧ ∃ visits stopping ms e, visits.Perm (d.walk root) ∧
    e = (crew (Source.parseFile d) o.maxBatchSize).run
      (start root o.workers visits stopping i.orphanAll) ms ∧
    e.isOver = true ∧ s = (crew (Source.parseFile d) o.maxBatchSize).conclude e

theorem finished_work {d : Disk σ} {root : Path} (directory : d.isDirectory root = true) (o : Options)
    {visits : List Visit} (all : visits.Perm (d.walk root)) (stopping : Bool) (i : Index) :
    Finished d root o i
      ((crew (Source.parseFile d) o.maxBatchSize).work root o.workers visits stopping i.orphanAll) := by
  obtain ⟨ms, ended, same⟩ := exists_run_of_work (crew (Source.parseFile d) o.maxBatchSize) root o.workers
    visits stopping i.orphanAll
  exact ⟨directory, visits, stopping, ms, _, all, rfl, ended, same⟩

theorem finished_refresh {d : Disk σ} {root : Path} {o : Options} {stopping : Bool} {i : Index}
    {s : State Worker Index Fault} (refreshed : refresh d root o stopping i = .ok s) :
    Finished d root o i s := by
  unfold refresh at refreshed
  split at refreshed
  · rename_i directory
    cases refreshed
    exact finished_work directory o (.refl _) stopping i
  · cases refreshed

def Accepted (d : Disk σ) (root p : Path) (size : UInt64) : Prop :=
  accepts p = true ∧ d.FileOf root p size

theorem crewed_run {parse : Path → Except Source.Refusal (Catalog × Bytes)} {limit : Nat} (root : Path)
    (workers : Nat) (visits : List Visit) (stopping : Bool) (i : Index) (ms : List Move) :
    ¬∀ p ∈ ((crew parse limit).run (start root workers visits stopping i) ms).posts, p = .absent := by
  have present : 0 < ((crew parse limit).run (start root workers visits stopping i) ms).posts.length ∧
      ∀ p ∈ ((crew parse limit).run (start root workers visits stopping i) ms).posts, p ≠ .absent := by
    refine run_induction (P := fun s => 0 < s.posts.length ∧ ∀ p ∈ s.posts, p ≠ .absent) ?_ ?_ ?_ ms
    · simp only [start, List.length_replicate]
      exact ⟨by omega, fun p member => by simp [(List.mem_replicate.mp member).2]⟩
    · rintro s t ⟨some_post, present⟩ moved
      cases moved with
      | refused _ hire => cases hire
      | hired _ _ | left _ _ _ | dropped _ _ _ | done _ _ _ _ _ | failed _ _ _ _ _ | closed _ _
      | spoiled _ _ =>
        exact ⟨by simpa using some_post, forall_posts_set present (by simp)⟩
      | _ => exact ⟨some_post, present⟩
    · exact fun _ same => same
  intro absent
  obtain ⟨p, member⟩ := List.exists_mem_of_length_pos present.1
  exact present.2 p member (absent p member)

/-- The files of a tree that are worked on; how much the workers gather makes no difference to them. -/
def files (d : Disk σ) (root : Path) : List (Path × UInt64) :=
  (d.walk root).filterMap (crew (Source.parseFile d) 0).wanted?

theorem wanted_perm {d : Disk σ} {root : Path} {limit : Nat} {visits : List Visit}
    (all : visits.Perm (d.walk root)) :
    (visits.filterMap (crew (Source.parseFile d) limit).wanted?).Perm (files d root) :=
  all.filterMap _

theorem mem_files_iff {d : Disk σ} {root : Path} (directory : d.isDirectory root = true) {p : Path}
    {size : UInt64} : (p, size) ∈ files d root ↔ Accepted d root p size := by
  rw [Accepted, ← Disk.mem_walk_iff directory, files, List.mem_filterMap]
  constructor
  · rintro ⟨v, member, wanted⟩
    cases v with
    | file q n =>
      simp only [wanted?] at wanted
      split at wanted
      · rename_i accepted
        cases wanted
        exact ⟨accepted, member⟩
      · cases wanted
    | directory q => cases wanted
    | unreadable q => cases wanted
  · rintro ⟨accepted, member⟩
    exact ⟨.file p size, member, if_pos accepted⟩

section

variable {d : Disk σ} {root : Path} {o : Options} {i : Index} {s : State Worker Index Fault}

theorem mem_completions_iff {p : Path} {size : UInt64} :
    (p, size) ∈ s.completions ↔ .completed p size ∈ s.events := by
  simp only [State.completions, List.mem_filterMap]
  constructor
  · rintro ⟨e, member, completed⟩
    cases e <;> simp_all [Event.completed?]
  · exact fun member => ⟨_, member, rfl⟩

theorem completions_conclude {parse : Path → Except Source.Refusal (Catalog × Bytes)} {limit : Nat}
    (e : State Worker Index Fault) : ((crew parse limit).conclude e).completions = e.completions := by
  simp [conclude, State.completions, State.emit, State.record, crew, List.filterMap_cons,
    Event.completed?]

theorem failures_conclude {parse : Path → Except Source.Refusal (Catalog × Bytes)} {limit : Nat}
    (e : State Worker Index Fault) : ((crew parse limit).conclude e).failures = e.failures := by
  simp [conclude, State.failures, State.emit, State.record, crew, List.filterMap_cons, Event.failed?]

theorem held_of_isOver {e : State Worker Index Fault} (ended : e.isOver = true) :
    e.posts.flatMap held = [] := by
  simp only [State.isOver, Bool.and_eq_true, List.all_eq_true] at ended
  refine List.flatMap_eq_nil_iff.mpr fun p member => ?_
  have gone := ended.2 p member
  cases p <;> simp_all [Post.isGone, held]

theorem Finished.settled (finished : Finished d root o i s) :
    ∃ committed lost, Batch.applyAll i.orphanAll committed = .ok s.shared ∧
      (s.completions.filterMap (writeOf? (Source.parseFile d))).Perm (committed ++ lost) ∧
      (∀ f ∈ s.completions, ∃ c x, Source.parseFile d f.1 = .ok (c, x)) ∧
      (s.fault = none → lost = [] ∧ s.failures = []) := by
  obtain ⟨_, visits, stopping, ms, e, _, rfl, ended, rfl⟩ := finished
  obtain ⟨committed, lost, account, calm⟩ :=
    @account_run (Source.parseFile d) o.maxBatchSize i.orphanAll root o.workers visits stopping ms
  refine ⟨committed, lost, account.applied, ?_, ?_, ?_⟩
  · rw [completions_conclude]
    simpa [held_of_isOver ended] using account.perm
  · rw [completions_conclude]
    exact account.parsed
  · rw [failures_conclude]
    exact calm

/-- Where all completed files fit the index, all their catalogs are written, and only files that do not
parse have failed. -/
theorem Finished.settled_of_fit (finished : Finished d root o i s)
    (fit : ∀ f ∈ s.completions, ∀ w, writeOf? (Source.parseFile d) f = some w → w.Fits i.orphanAll) :
    ∃ committed, Batch.applyAll i.orphanAll committed = .ok s.shared ∧
      (s.completions.filterMap (writeOf? (Source.parseFile d))).Perm committed ∧
      ∀ p ∈ s.failures, ∃ r, Source.parseFile d p = .error r := by
  obtain ⟨_, visits, stopping, ms, e, _, rfl, ended, rfl⟩ := finished
  rw [completions_conclude] at fit
  obtain ⟨committed, account, unparsed⟩ :=
    account_of_fit i.orphanAll root o.workers visits stopping ms fit
  refine ⟨committed, account.applied, ?_, ?_⟩
  · rw [completions_conclude]
    simpa [held_of_isOver ended] using account.perm
  · rw [failures_conclude]
    exact unparsed

theorem Finished.reported (finished : Finished d root o i s) (calm : s.counts.cancelled = false) :
    ∃ failed, failed.map Prod.fst = s.failures ∧ (s.completions ++ failed).Perm (files d root) := by
  obtain ⟨_, visits, stopping, ms, e, all, rfl, ended, rfl⟩ := finished
  obtain ⟨failed, reported, perm⟩ :=
    (ledger_run quiet_crew root o.workers visits stopping i.orphanAll ms).complete ended calm
      (crewed_run root o.workers visits stopping i.orphanAll ms)
  refine ⟨failed, by rw [failures_conclude, reported], ?_⟩
  rw [completions_conclude]
  exact perm.trans (wanted_perm all)

theorem Finished.tried (finished : Finished d root o i s) (calm : s.counts.cancelled = false) :
    ∃ failed : List (Path × UInt64), failed.map Prod.fst = s.failures ∧
      ∀ p size, (p, size) ∈ s.completions ++ failed ↔ Accepted d root p size := by
  obtain ⟨failed, reported, perm⟩ := finished.reported calm
  exact ⟨failed, reported, fun p size => by rw [perm.mem_iff, mem_files_iff finished.1]⟩

theorem Finished.completed_accepted (finished : Finished d root o i s) {p : Path} {size : UInt64}
    (completed : (p, size) ∈ s.completions) : Accepted d root p size := by
  obtain ⟨directory, visits, stopping, ms, e, all, rfl, ended, rfl⟩ := finished
  rw [completions_conclude] at completed
  have met := (ledger_run quiet_crew root o.workers visits stopping i.orphanAll ms).completed_mem completed
  rwa [(wanted_perm all).mem_iff, mem_files_iff directory] at met

theorem Finished.counted (finished : Finished d root o i s) : Counted s := by
  obtain ⟨_, visits, stopping, ms, e, _, rfl, _, rfl⟩ := finished
  obtain ⟨processed, failed⟩ := counted_run quiet_crew root o.workers visits stopping i.orphanAll ms
  exact ⟨by rw [completions_conclude]; exact processed, by rw [failures_conclude]; exact failed⟩

end

end RomLedger.Refresh
