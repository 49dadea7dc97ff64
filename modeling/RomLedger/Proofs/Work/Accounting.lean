import RomLedger.Proofs.Disk.Apart
import RomLedger.Proofs.Work.Lifecycle
import RomLedger.Proofs.Work.Scheduling

/-!
The counters and events of a walk account for every file of the tree, whoever fails and whatever the order of
actions. At every moment no file has been handed over twice, and no more is counted as worked on than as
discovered. At the end the events are the start, the reports and the summary, and unless the stop flag was set
the files are those of the tree.
-/
namespace RomLedger

namespace Crew

variable {ω σ ε τ : Type} {c : Crew ω σ ε}

theorem path_of_wanted {v : Visit} {f : Path × UInt64} (wanted : c.wanted? v = some f) : f.1 = v.path := by
  cases v with
  | file p size =>
    simp only [wanted?, Option.ite_none_right_eq_some, Option.some.injEq] at wanted
    rw [← wanted.2]
    rfl
  | directory p | unreadable p => cases wanted

theorem paths_sublist (c : Crew ω σ ε) (visits : List Visit) :
    ((visits.filterMap c.wanted?).map Prod.fst).Sublist (visits.map Visit.path) := by
  induction visits with
  | nil => exact .slnil
  | cons v rest ih =>
    cases wanted : c.wanted? v with
    | none =>
      rw [List.filterMap_cons_none wanted]
      exact ih.cons v.path
    | some f =>
      rw [List.filterMap_cons_some wanted, List.map_cons, path_of_wanted wanted]
      exact ih.cons_cons v.path

section

variable {files found lost cut : List (Path × UInt64)} {root : Path} {workers : Nat} {s : Moment ω σ ε}
  {reported : List ((Path × UInt64) × Except ε Unit)}

theorem Custody.handed_perm (custody : Custody c files s found lost cut) :
    ∃ rest, (s.handed ++ rest).Perm files := by
  refine ⟨s.tasks.flatMap Task.inHand ++ s.queue ++ s.offered ++ lost
    ++ s.ahead.filterMap c.wanted? ++ cut, ?_⟩
  have places := custody.places.append_right (s.ahead.filterMap c.wanted? ++ cut)
  have files := custody.files
  simp only [List.append_assoc] at places files ⊢
  exact places.trans files

theorem Told.le_found (told : Told c root workers s reported) (custody : Custody c files s found lost cut) :
    reported.length ≤ found.length := by
  have attempts := told.attempts.length_eq
  have places := custody.places.length_eq
  simp only [List.length_append, Moment.handed, List.length_map] at attempts places
  omega

theorem Told.totals (told : Told c root workers s reported) (kept : Kept s) (ended : s.walker = .finished) :
    s.counts.processed = UInt64.ofNat s.done.length ∧ s.counts.failed = UInt64.ofNat s.refused.length ∧
      s.counts.bytes = UInt64.ofNat (s.done.map (·.2.toNat)).sum := by
  have all := told.complete kept ended
  refine ⟨?_, ?_, ?_⟩
  · rw [told.processed, (all.filter _).length_eq, Moment.done, List.length_map]
  · rw [told.failed, (all.filter _).length_eq, Moment.refused, List.length_map]
  · rw [told.bytes, ((all.filter _).map _).sum_eq, Moment.done, List.map_map]
    rfl

theorem length_handed (s : Moment ω σ ε) : s.done.length + s.refused.length = s.handed.length := by
  have split := List.length_eq_length_filter_add (l := s.attempts) (·.2.isOk)
  simp only [Moment.done, Moment.refused, Moment.handed, List.length_map]
  omega

theorem Told.faultless (told : Told c root workers s reported) (lived : Lived workers s) (kept : Kept s)
    (ended : s.walker = .finished) (some_worker : 0 < workers) (sound : s.fault = none) :
    s.refused = [] ∧ ∃ i, .hire i (.ok ()) ∈ s.calls := by
  have good : ∀ k ∈ s.calls, k.result.isOk = true := by
    intro k member
    refine Bool.eq_false_or_eq_true _ |>.resolve_right fun bad => ?_
    have faulty := (told.failed_iff kept ended).mpr ⟨k, member, bad⟩
    rw [sound] at faulty
    cases faulty
  constructor
  · refine List.map_eq_nil_iff.mpr (List.filter_eq_nil_iff.mpr fun r member => ?_)
    obtain ⟨k, called, attempt⟩ := List.mem_filterMap.mp member
    simp [← result_of_attempt attempt, good k called]
  · rcases lived.whole kept ended some_worker with ⟨e, calls⟩ | ⟨attempts, r, calls⟩
    · have own : Call.hire 0 (.error e) ∈ s.callsOf 0 := by simp [calls]
      exact absurd (good _ (mem_callsOf.mp own).1) nofun
    · have own : Call.hire 0 (.ok ()) ∈ s.callsOf 0 := by simp [calls]
      exact ⟨0, (mem_callsOf.mp own).1⟩

end

/-- Every file of the tree is accounted for, at every moment and at the end. -/
theorem every_file_accounted {d : Disk τ} {root : Path} {workers : Nat} {visits : List Visit}
    (all : visits.Perm (d.walk root)) {stopping : Bool} {shared : σ} {s : Moment ω σ ε}
    (reached : Reached c (outset root workers visits stopping shared) s) :
    (∃ rest, (s.handed ++ rest).Perm ((d.walk root).filterMap c.wanted?)) ∧
    (d.Tidy → (s.handed.map Prod.fst).Nodup) ∧
    (∃ processed failed discovered, s.counts.processed = .ofNat processed ∧
      s.counts.failed = .ofNat failed ∧ s.counts.discovered = .ofNat discovered ∧
      processed + failed ≤ discovered ∧ discovered ≤ ((d.walk root).filterMap c.wanted?).length) ∧
    (((d.walk root).filterMap c.wanted?).length < 2 ^ 64 →
      s.counts.processed.toNat + s.counts.failed.toNat ≤ s.counts.discovered.toNat) ∧
    (s.walker = .finished →
      (c.Modest → ∃ middle, s.events = .started root (max 1 workers) :: middle ++ [.summary s.counts] ∧
        (middle.filter (!·.isFlush)).Perm (s.attempts.map fun a => c.report a.1 a.2)) ∧
      (s.stopping = false → (∃ i, .hire i (.ok ()) ∈ s.calls) →
        s.handed.Perm ((d.walk root).filterMap c.wanted?) ∧
        s.counts.discovered = s.counts.processed + s.counts.failed ∧
        s.counts = ⟨.ofNat ((d.walk root).filterMap c.wanted?).length, .ofNat s.done.length,
          .ofNat s.refused.length, .ofNat (s.done.map (·.2.toNat)).sum, false⟩) ∧
      ∀ k, s.outward.result = .ok k → k.cancelled = false → k.discovered = k.processed) := by
  have kept := kept_reached reached
  have lived := lived_reached reached
  obtain ⟨found, lost, cut, custody⟩ := custody_reached reached
  obtain ⟨reported, told⟩ := told_reached reached
  have files := all.filterMap c.wanted?
  have few : found.length ≤ ((d.walk root).filterMap c.wanted?).length := by
    have places := (custody.files.trans files).length_eq
    simp only [List.length_append] at places
    omega
  have split := List.length_eq_length_filter_add (l := reported) (·.2.isOk)
  have least := told.le_found custody
  obtain ⟨rest, handed⟩ := custody.handed_perm
  refine ⟨⟨rest, handed.trans files⟩, fun tidy => ?_, ?_, fun bounded => ?_,
    fun ended => ⟨fun modest => ?_, ?_, ?_⟩⟩
  · have paths := (Disk.walk_apart tidy root).sublist (paths_sublist c (d.walk root))
    have both := ((handed.trans files).map Prod.fst).nodup_iff.mpr paths
    rw [List.map_append] at both
    exact both.of_append_left
  · exact ⟨_, _, _, told.processed, told.failed, custody.counted, by omega, few⟩
  · rw [told.processed, told.failed, custody.counted]
    simp only [UInt64.toNat_ofNat']
    omega
  · obtain ⟨middle, story, shown⟩ := told.events modest
    rw [ended] at story
    refine ⟨middle, story, ?_⟩
    rw [shown]
    exact (told.complete kept ended).map _
  · intro going hired
    have calm := kept.calm going
    obtain ⟨perm, discovered⟩ := custody.complete kept ended calm ((lived.hired_iff kept ended).mp hired)
    obtain ⟨processed, failed, bytes⟩ := told.totals kept ended
    rw [files.length_eq] at discovered
    refine ⟨perm.trans files, ?_, ?_⟩
    · rw [discovered, processed, failed, ← UInt64.ofNat_add, length_handed, (perm.trans files).length_eq]
    · calc s.counts
          = ⟨s.counts.discovered, s.counts.processed, s.counts.failed, s.counts.bytes,
              s.counts.cancelled⟩ := rfl
        _ = _ := by rw [discovered, processed, failed, bytes, calm]
  · intro k good calm
    obtain ⟨sound, rfl⟩ := result_ok_iff.mp good
    obtain ⟨unrefused, hired⟩ := told.faultless lived kept ended (by omega) sound
    obtain ⟨perm, discovered⟩ := custody.complete kept ended calm ((lived.hired_iff kept ended).mp hired)
    obtain ⟨processed, _, _⟩ := told.totals kept ended
    have tried := length_handed s
    rw [unrefused, List.length_nil, Nat.add_zero, perm.length_eq] at tried
    calc s.counts.discovered = .ofNat _ := discovered
      _ = .ofNat s.done.length := by rw [tried]
      _ = s.counts.processed := processed.symm

end Crew

namespace Refresh

open Crew

theorem modest_crew {parse : Path → Except Source.Refusal (Catalog × Bytes)} {limit : Nat} :
    (crew parse limit).Modest := by
  have relieves {w v : Worker} {i j : Index} {es : List Event}
      (relieved : relieve limit w i = .ok (v, j, es)) : ∀ e ∈ es, e.isFlush = true := by
    unfold relieve at relieved
    split at relieved
    · split at relieved <;> cases relieved
      exact fun e member => List.mem_singleton.mp member ▸ rfl
    · cases relieved
      exact List.forall_mem_nil _
  intro p size w i e member
  change e ∈ (process parse limit p w i).events at member
  unfold process at member
  split at member
  · cases member
  · rename_i relieved
    split at member <;> exact relieves relieved e member

theorem every_file_accounted_twins :
    ∃ s, Reached (crew (Source.parseFile twins) 0)
        (outset (.ofString "t") 2 twinsVisits false Index.empty.orphanAll) s ∧
      s.walker = .finished ∧ s.outward = twinsRun 2 0 twinsVisits ∧
      (s.handed.map Prod.fst).Nodup ∧
      s.handed.Perm [(⟨"t", ["a.dat"]⟩, 12), (⟨"t", ["b.dat"]⟩, 12), (⟨"t", ["c.dat"]⟩, 5)] ∧
      s.counts.discovered = s.counts.processed + s.counts.failed ∧
      ∃ middle, s.events = .started (.ofString "t") 2 :: middle ++ [.summary s.counts] ∧
        (middle.filter (!·.isFlush)).Perm
          (s.attempts.map fun a => (crew (Source.parseFile twins) 0).report a.1 a.2) := by
  obtain ⟨s, reached, ended, outward⟩ :=
    reached_of_work (crew (Source.parseFile twins) 0) (.ofString "t") 2 twinsVisits false Index.empty.orphanAll
  have visits : twinsVisits.Perm (twins.walk (.ofString "t")) := by rw [walk_twins]
  obtain ⟨_, once, _, _, order⟩ := every_file_accounted visits reached
  obtain ⟨events, counts, _⟩ := order ended
  have going : (twinsRun 2 0 twinsVisits).stopping = false := by decide +kernel
  have left : (twinsRun 2 0 twinsVisits).posts.any Post.isLeaving = true := by decide +kernel
  have tidy : (twins.entries.map Prod.fst).Nodup := by decide +kernel
  obtain ⟨p, member, leaving⟩ := List.any_eq_true.mp left
  have hired := (lived_reached reached).hired_of_post (kept_reached reached) ended
    ((congrArg State.posts outward) ▸ member) (by rintro rfl; cases leaving)
  obtain ⟨all, counted, _⟩ := counts ((congrArg State.stopping outward).trans going) hired
  have files : (twins.walk (.ofString "t")).filterMap (crew (Source.parseFile twins) 0).wanted?
      = [(⟨"t", ["a.dat"]⟩, 12), (⟨"t", ["b.dat"]⟩, 12), (⟨"t", ["c.dat"]⟩, 5)] := by
    rw [walk_twins]
    decide +kernel
  rw [files] at all
  exact ⟨s, reached, ended, outward, once tidy, all, counted, events modest_crew⟩

end Refresh
end RomLedger
