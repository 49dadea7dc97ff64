import RomLedger.Proofs.Index.Commuting
import RomLedger.Proofs.Work.Isolation
import RomLedger.Proofs.Work.Tally

/-!
The outcome of a refresh does not depend on scheduling. A run that is not cancelled tries every accepted file
of the tree, and while the tables have room it completes those that parse and fails the others, so what is
counted and the writes that are committed are settled by the tree. The order of the writes is not, but they
commute, unless two files of the tree have one digest and different catalogs.
-/
namespace RomLedger.Refresh

open Crew

variable {σ : Type} {d : Disk σ} {root : Path} {o o' : Options} {i : Index} {s t : State Worker Index Fault}

def parses (d : Disk σ) (f : Path × UInt64) : Bool := (Source.parseFile d f.1).isOk

def tally (d : Disk σ) (root : Path) : Counts where
  discovered := UInt64.ofNat (files d root).length
  processed := UInt64.ofNat ((files d root).countP (parses d))
  failed := UInt64.ofNat ((files d root).countP fun f => !parses d f)
  bytes := UInt64.ofNat (((files d root).filter (parses d)).map fun f => f.2.toNat).sum
  cancelled := false

def NoOversized (d : Disk σ) (root : Path) : Prop :=
  ∀ p size c x, Accepted d root p size → Source.parseFile d p = .ok (c, x) → c.Storable

/-- Whether two accepted files of one digest are read as different catalogs. -/
def Clash (d : Disk σ) (root : Path) (x : Bytes) : Prop :=
  ∃ p q n m c c', Accepted d root p n ∧ Accepted d root q m ∧ Source.parseFile d p = .ok (c, x) ∧
    Source.parseFile d q = .ok (c', x) ∧ c ≠ c'

theorem Finished.discovered (finished : Finished d root o i s) (calm : s.counts.cancelled = false) :
    s.counts.discovered = UInt64.ofNat (files d root).length := by
  obtain ⟨failed, reported, perm⟩ := finished.reported calm
  obtain ⟨_, visits, stopping, ms, e, _, rfl, ended, rfl⟩ := finished
  have counted := (tallied_run quiet_crew root o.workers visits stopping i.orphanAll ms).reported
    (ledger_run quiet_crew root o.workers visits stopping i.orphanAll ms) ended calm
    (crewed_run root o.workers visits stopping i.orphanAll ms)
  have lost := congrArg List.length reported
  rw [List.length_map, failures_conclude] at lost
  rw [← perm.length_eq, List.length_append, lost, completions_conclude]
  exact counted

theorem Finished.bytes (finished : Finished d root o i s) : s.counts.bytes = UInt64.ofNat s.sizes := by
  obtain ⟨_, visits, stopping, ms, e, _, rfl, _, rfl⟩ := finished
  rw [State.sizes, completions_conclude]
  exact (tallied_run quiet_crew root o.workers visits stopping i.orphanAll ms).bytes

theorem fits_of_noOversized (small : NoOversized d root) (finished : Finished d root o i s) :
    ∀ f ∈ s.completions, ∀ w, writeOf? (Source.parseFile d) f = some w → w.Fits i.orphanAll :=
  fun f completed => fits_iff_hasRoom.mpr fun c x parsed =>
    .inr (small f.1 f.2 c x (finished.completed_accepted completed) parsed)

theorem Finished.divided (finished : Finished d root o i s) (calm : s.counts.cancelled = false)
    (small : NoOversized d root) :
    s.completions.Perm ((files d root).filter (parses d)) ∧
      s.failures.Perm (((files d root).filter fun f => !parses d f).map Prod.fst) := by
  obtain ⟨_, _, _, unparsed⟩ := finished.settled_of_fit (fits_of_noOversized small finished)
  obtain ⟨_, _, _, _, parsed, _⟩ := finished.settled
  obtain ⟨failed, reported, perm⟩ := finished.reported calm
  have good : ∀ f ∈ s.completions, parses d f = true := by
    intro f completed
    obtain ⟨c, x, held⟩ := parsed f completed
    simp [parses, held, Except.isOk, Except.toBool]
  have bad : ∀ f ∈ failed, parses d f = false := by
    intro f lost
    obtain ⟨r, refused⟩ := unparsed f.1 (reported ▸ List.mem_map_of_mem lost)
    simp [parses, refused, Except.isOk, Except.toBool]
  constructor
  · have kept := perm.filter (parses d)
    rwa [List.filter_append, List.filter_eq_self.mpr good,
      List.filter_eq_nil_iff.mpr fun f lost => by simp [bad f lost], List.append_nil] at kept
  · have kept := perm.filter fun f => !parses d f
    rw [List.filter_append, List.filter_eq_nil_iff.mpr fun f completed => by simp [good f completed],
      List.filter_eq_self.mpr fun f lost => by simp [bad f lost], List.nil_append] at kept
    exact reported ▸ kept.map Prod.fst

theorem Finished.counts_eq (finished : Finished d root o i s) (calm : s.counts.cancelled = false)
    (small : NoOversized d root) : s.counts = tally d root := by
  obtain ⟨completed, failed⟩ := finished.divided calm small
  have discovered := finished.discovered calm
  obtain ⟨processed, failures⟩ := finished.counted
  have bytes := finished.bytes
  rw [completed.length_eq, ← List.countP_eq_length_filter] at processed
  rw [failed.length_eq, List.length_map, ← List.countP_eq_length_filter] at failures
  rw [State.sizes, (completed.map _).sum_eq] at bytes
  calc s.counts
      = ⟨s.counts.discovered, s.counts.processed, s.counts.failed, s.counts.bytes, s.counts.cancelled⟩ := rfl
    _ = tally d root := by rw [discovered, processed, failures, bytes, calm, tally]

theorem Finished.wrote (finished : Finished d root o i s) (calm : s.counts.cancelled = false)
    (small : NoOversized d root) :
    ∃ committed, Batch.applyAll i.orphanAll committed = .ok s.shared ∧
      (s.completions.filterMap (writeOf? (Source.parseFile d))).Perm committed ∧
      (((files d root).filter (parses d)).filterMap (writeOf? (Source.parseFile d))).Perm committed := by
  obtain ⟨committed, applied, perm, _⟩ := finished.settled_of_fit (fits_of_noOversized small finished)
  exact ⟨committed, applied, perm, ((finished.divided calm small).1.filterMap _).symm.trans perm⟩

/-- Two refreshes of one tree, whatever their workers, batches and schedules, have one outcome; only which
catalog is stored can differ, and only for a digest that is new and that files of different catalogs share. -/
theorem same_outcome (sound : i.Consistent) (first : Finished d root o i s)
    (second : Finished d root o' i t) (calm : s.counts.cancelled = false)
    (calm' : t.counts.cancelled = false) (small : NoOversized d root) :
    s.counts = t.counts ∧ (∀ x, s.shared.isOrphaned x = t.shared.isOrphaned x) ∧
      (∀ x, i.knows x = true ∨ ¬Clash d root x → s.shared.get? x = t.shared.get? x) ∧
      ((∀ x, i.knows x = true ∨ ¬Clash d root x) → s.shared.Alike t.shared) := by
  obtain ⟨ws, applied, mine, perm⟩ := first.wrote calm small
  obtain ⟨vs, applied', _, perm'⟩ := second.wrote calm' small
  have shuffled : ws.Perm vs := perm.symm.trans perm'
  have consistent := Index.consistent_orphanAll sound
  have catalogs (x : Bytes) (settled : i.knows x = true ∨ ¬Clash d root x) :
      s.shared.get? x = t.shared.get? x := by
    apply Index.get?_perm consistent shuffled applied applied'
    rw [Index.knows_orphanAll]
    refine settled.imp_right fun clear c c' member member' => ?_
    obtain ⟨p, n, completed, parsed⟩ := catalog_mem_iff.mp (mine.mem_iff.mpr member)
    obtain ⟨q, m, completed', parsed'⟩ := catalog_mem_iff.mp (mine.mem_iff.mpr member')
    have accepted := first.completed_accepted (mem_completions_iff.mpr completed)
    have accepted' := first.completed_accepted (mem_completions_iff.mpr completed')
    by_contra other
    exact clear ⟨p, q, n, m, c, c', accepted, accepted', parsed, parsed', other⟩
  refine ⟨(first.counts_eq calm small).trans (second.counts_eq calm' small).symm, fun x => ?_, catalogs,
    fun settled => ?_⟩
  · simp only [isOrphaned_of_applied applied, isOrphaned_of_applied applied',
      (shuffled.filterMap _).mem_iff]
  · exact Index.alike_of_perm consistent shuffled applied applied' fun x => catalogs x (settled x)

def twins : Disk Unit where
  entries := [(["t"], .dir), (["t", "a.dat"], .file (Bytes.ofString "game(name x)")),
    (["t", "b.dat"], .file (Bytes.ofString "game(name x)")), (["t", "c.dat"], .file (Bytes.ofString "game("))]
  ahead := []
  here := []

def twinsVisits : List Visit :=
  [.directory ⟨"t", []⟩, .file ⟨"t", ["a.dat"]⟩ 12, .file ⟨"t", ["b.dat"]⟩ 12, .file ⟨"t", ["c.dat"]⟩ 5]

/-- What a crew makes of it, with every file worked on as soon as it is found. -/
def twinsRun (workers limit : Nat) (visits : List Visit) : State Worker Index Fault :=
  (crew (Source.parseFile twins) limit).work (.ofString "t") workers visits false Index.empty.orphanAll

theorem walk_twins : twins.walk (.ofString "t") = twinsVisits := by
  have opens : twins.open? (.ofString "t") = .ok (["t"], .dir) := rfl
  have files : twins.children ["t"]
      = [("a.dat", Bytes.ofString "game(name x)"), ("b.dat", Bytes.ofString "game(name x)"),
          ("c.dat", Bytes.ofString "game(")].map fun f => (f.1, .file f.2) :=
    List.mergeSort_of_pairwise (by decide +kernel)
  exact Disk.walk_flat opens files

def twinsPaths : List Path := [⟨"t", ["a.dat"]⟩, ⟨"t", ["b.dat"]⟩, ⟨"t", ["c.dat"]⟩]

theorem path_of_accepted_twins {p : Path} {size : UInt64} (accepted : Accepted twins (.ofString "t") p size) :
    p ∈ twinsPaths := by
  have met := (Disk.mem_walk_iff rfl).mpr accepted.2
  simp only [walk_twins, twinsVisits, List.mem_cons, reduceCtorEq, Visit.file.injEq, List.not_mem_nil,
    or_false, false_or] at met
  simp only [twinsPaths, List.mem_cons, List.not_mem_nil, or_false]
  exact met.imp And.left (Or.imp And.left And.left)

theorem noOversized_twins : NoOversized twins (.ofString "t") := by
  intro p size c x accepted parsed
  have small : ∀ q ∈ twinsPaths, (Source.parseFile twins q).toOption.all (fun f => f.1.Storable) = true := by
    decide +kernel
  have fits := small p (path_of_accepted_twins accepted)
  simpa [parsed, Except.toOption] using fits

theorem not_clash_twins (x : Bytes) : ¬Clash twins (.ofString "t") x := by
  rintro ⟨p, q, n, m, c, c', accepted, accepted', parsed, parsed', other⟩
  have same : ∀ p ∈ twinsPaths, ∀ q ∈ twinsPaths, ∀ f ∈ (Source.parseFile twins p).toOption,
      ∀ g ∈ (Source.parseFile twins q).toOption, f.1 = g.1 := by
    decide +kernel
  exact other (same p (path_of_accepted_twins accepted) q (path_of_accepted_twins accepted') (c, x)
    (by rw [parsed]; rfl) (c', x) (by rw [parsed']; rfl))

theorem same_outcome_twins :
    (twinsRun 3 0 twinsVisits).counts = (twinsRun 1 10485760 twinsVisits.reverse).counts ∧
      (twinsRun 3 0 twinsVisits).shared.Alike (twinsRun 1 10485760 twinsVisits.reverse).shared := by
  have first : Finished twins (.ofString "t") ⟨3, 0⟩ .empty (twinsRun 3 0 twinsVisits) :=
    finished_work rfl ⟨3, 0⟩ (by rw [walk_twins]) false .empty
  have second : Finished twins (.ofString "t") ⟨1, 10485760⟩ .empty
      (twinsRun 1 10485760 twinsVisits.reverse) :=
    finished_work rfl ⟨1, 10485760⟩ (by rw [walk_twins]; exact List.reverse_perm _) false .empty
  obtain ⟨counts, _, _, alike⟩ := same_outcome Index.consistent_empty first second (by decide +kernel)
    (by decide +kernel) noOversized_twins
  exact ⟨counts, alike fun x => .inr (not_clash_twins x)⟩

theorem noOversized_colliding : NoOversized colliding (.ofString "t") := by
  intro p size c x accepted parsed
  have met := (Disk.mem_walk_iff rfl).mpr accepted.2
  rw [colliding, walk_pairOf] at met
  simp only [List.mem_cons, reduceCtorEq, Visit.file.injEq, List.not_mem_nil, or_false, false_or] at met
  rcases met with ⟨rfl, -⟩ | ⟨rfl, -⟩
  · cases parse_one.symm.trans parsed
    decide +kernel
  · cases parse_two.symm.trans parsed
    decide +kernel

theorem collidingRun_second (n m : UInt64) :
    let s := collidingRun [.directory (.ofString "t"), .file ⟨"t", ["b.dat"]⟩ m, .file ⟨"t", ["a.dat"]⟩ n]
    s.counts.cancelled = false ∧ s.shared.get? commonDigest = some .blank := by
  obtain ⟨_, counts, _, stored⟩ := work_pair (n := m) (m := n) (.ofString "t")
    (Index.consistent_orphanAll Index.consistent_empty) (by decide +kernel) (by decide +kernel) parse_two
    parse_one (by decide +kernel) (by decide +kernel) (room_for_colliding (by decide +kernel))
  exact ⟨congrArg Counts.cancelled counts, stored⟩

theorem outcome_of_order : ∃ s t,
    Finished colliding (.ofString "t") ⟨1, 10485760⟩ .empty s ∧
      Finished colliding (.ofString "t") ⟨1, 10485760⟩ .empty t ∧ s.counts.cancelled = false ∧
      t.counts.cancelled = false ∧ NoOversized colliding (.ofString "t") ∧
      ∃ x, s.shared.get? x ≠ t.shared.get? x := by
  obtain ⟨_, calm, _, stored⟩ := collidingRun_first (UInt64.ofNat (Sha1.one ++ ending).length)
    (UInt64.ofNat (Sha1.two ++ ending).length)
  obtain ⟨calm', stored'⟩ := collidingRun_second (UInt64.ofNat (Sha1.one ++ ending).length)
    (UInt64.ofNat (Sha1.two ++ ending).length)
  have walk := walk_pairOf (Sha1.one ++ ending) (Sha1.two ++ ending)
  refine ⟨_, _, finished_work rfl ⟨1, 10485760⟩ (by rw [colliding, walk]) false .empty,
    finished_work rfl ⟨1, 10485760⟩ (by rw [colliding, walk]; exact (List.Perm.swap _ _ _).cons _) false .empty,
    calm, calm', noOversized_colliding, commonDigest, fun same => ?_⟩
  cases stored.symm.trans (same.trans stored')

end RomLedger.Refresh
