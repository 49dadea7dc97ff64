import RomLedger.Proofs.Index.Committing
import RomLedger.Proofs.Work.Ledger
import RomLedger.Proofs.Work.Prompt
import RomLedger.Work.Refresh

/- Where the catalogs of completed files are while an index is refreshed: in the index, in the batch of a
   worker, or lost with a batch that could not be flushed when its worker was closed. -/
namespace RomLedger.Refresh

open Crew

variable {parse : Path → Except Source.Refusal (Catalog × Bytes)} {limit : Nat}

def writeOf? (parse : Path → Except Source.Refusal (Catalog × Bytes)) (f : Path × UInt64) :
    Option Write :=
  match parse f.1 with
  | .ok (c, digest) => some (.catalog c digest)
  | .error _ => none

theorem writeOf?_eq_some_iff {f : Path × UInt64} {w : Write} :
    writeOf? parse f = some w ↔ ∃ c digest, parse f.1 = .ok (c, digest) ∧ w = .catalog c digest := by
  unfold writeOf?
  cases parse f.1 with
  | ok found =>
    obtain ⟨c, digest⟩ := found
    simp only [Option.some.injEq, Except.ok.injEq, Prod.mk.injEq]
    constructor
    · rintro rfl
      exact ⟨c, digest, ⟨rfl, rfl⟩, rfl⟩
    · rintro ⟨_, _, ⟨rfl, rfl⟩, rfl⟩
      rfl
  | error r => simp

def held : Post Worker → List Write
  | .open_ w | .closing w => w.batch.pending
  | _ => []

/-- Whether some worker cannot flush what it has gathered. -/
def Stuck (s : State Worker Index Fault) : Prop :=
  ∃ p ∈ s.posts, ∃ f, Batch.applyAll s.shared (held p) = .error f

theorem relieve_ok {w w' : Worker} {i j : Index} {es : List Event}
    (relieved : relieve limit w i = .ok (w', j, es)) :
    (∃ flushed, w.batch.pending = flushed ++ w'.batch.pending ∧ Batch.applyAll i flushed = .ok j) ∧
      ∀ e ∈ es, e.completed? = none ∧ e.failed? = none := by
  unfold relieve at relieved
  split at relieved
  · split at relieved
    · rename_i k b flushed
      cases relieved
      unfold Batch.flush at flushed
      split at flushed
      · rename_i applied
        cases flushed
        exact ⟨⟨w.batch.pending, by simp [Batch.empty], applied⟩, by simp [Event.completed?, Event.failed?]⟩
      · cases flushed
    · cases relieved
  · cases relieved
    exact ⟨⟨[], rfl, rfl⟩, by simp⟩

theorem relieve_error {w : Worker} {i : Index} {f : Index.SizeFault}
    (relieved : relieve limit w i = .error f) : Batch.applyAll i w.batch.pending = .error f := by
  unfold relieve at relieved
  split at relieved
  · split at relieved
    · cases relieved
    · rename_i refused
      cases relieved
      unfold Batch.flush at refused
      split at refused
      · cases refused
      · rename_i failed
        cases refused
        exact failed
  · cases relieved

theorem process_ok {p : Path} {w : Worker} {i : Index} {a : Attempt Worker Index Fault}
    (attempt : process parse limit p w i = a) (good : a.result = .ok ()) :
    ∃ flushed kept c digest, w.batch.pending = flushed ++ kept ∧
      Batch.applyAll i flushed = .ok a.shared ∧ parse p = .ok (c, digest) ∧
      a.worker.batch.pending = kept ++ [.catalog c digest] := by
  subst attempt
  unfold process at good ⊢
  split at good
  · cases good
  · rename_i v j es relieved
    obtain ⟨⟨flushed, pending, applied⟩, _⟩ := relieve_ok relieved
    split at good
    · cases good
    · rename_i c digest parsed
      exact ⟨flushed, v.batch.pending, c, digest, pending, applied, parsed, rfl⟩

theorem process_error {p : Path} {w : Worker} {i : Index} {a : Attempt Worker Index Fault} {e : Fault}
    (attempt : process parse limit p w i = a) (bad : a.result = .error e) :
    ∃ flushed, w.batch.pending = flushed ++ a.worker.batch.pending ∧
      Batch.applyAll i flushed = .ok a.shared ∧
      ((∃ r, parse p = .error r) ∨ ∃ f, Batch.applyAll i w.batch.pending = .error f) := by
  subst attempt
  unfold process at bad ⊢
  split at bad
  · rename_i f refused
    exact ⟨[], rfl, rfl, .inr ⟨f, relieve_error refused⟩⟩
  · rename_i v j es relieved
    obtain ⟨⟨flushed, pending, applied⟩, _⟩ := relieve_ok relieved
    split at bad
    · rename_i r refused
      exact ⟨flushed, pending, applied, .inl ⟨r, refused⟩⟩
    · cases bad

theorem quiet_crew : (crew parse limit).Quiet := by
  intro p size w i e member
  change e ∈ (process parse limit p w i).events at member
  unfold process at member
  split at member
  · cases member
  · rename_i relieved
    have silent := (relieve_ok relieved).2
    split at member <;> exact silent e member

theorem close_ok {w : Worker} {i j : Index} (closed : close w i = (.ok (), j)) :
    Batch.applyAll i w.batch.pending = .ok j := by
  unfold close Batch.flush at closed
  split at closed
  · rename_i flushed
    split at flushed
    · rename_i applied
      cases flushed
      cases closed
      exact applied
    · cases flushed
  · cases closed

theorem close_error {w : Worker} {i j : Index} {e : Fault} (closed : close w i = (.error e, j)) :
    j = i ∧ ∃ f, Batch.applyAll i w.batch.pending = .error f := by
  unfold close Batch.flush at closed
  split at closed
  · cases closed
  · rename_i flushed
    split at flushed
    · cases flushed
    · rename_i f failed
      cases closed
      exact ⟨rfl, f, failed⟩

/-- Where the writes of completed files are: committed to the index, held by workers, or lost. -/
structure Account (parse : Path → Except Source.Refusal (Catalog × Bytes)) (i : Index)
    (s : State Worker Index Fault) (committed lost : List Write) : Prop where
  applied : Batch.applyAll i committed = .ok s.shared
  perm : (s.completions.filterMap (writeOf? parse)).Perm (committed ++ s.posts.flatMap held ++ lost)
  parsed : ∀ f ∈ s.completions, ∃ c digest, parse f.1 = .ok (c, digest)

theorem count_held_set {posts : List (Post Worker)} {i : Nat} {p : Post Worker}
    (post : posts[i]? = some p) (q : Post Worker) (v : Write) :
    ((posts.set i q).flatMap held).count v + (held p).count v
      = (posts.flatMap held).count v + (held q).count v := by
  have counted (posts : List (Post Worker)) :
      (posts.flatMap held).count v = total (fun p => (held p).count v) posts := by
    induction posts with
    | nil => rfl
    | cons p rest ih => rw [List.flatMap_cons, List.count_append, ih, total]
  rw [counted, counted]
  exact total_set _ post q

theorem Account.post {i : Index} {s t : State Worker Index Fault} {committed lost : List Write}
    (account : Account parse i s committed lost) {n : Nat} {p q : Post Worker}
    (post : s.posts[n]? = some p) (posts : t.posts = s.posts.set n q) (flushed spilled : List Write)
    (new : List (Path × UInt64)) (applied : Batch.applyAll s.shared flushed = .ok t.shared)
    (completions : t.completions = s.completions ++ new)
    (parsed : ∀ f ∈ new, ∃ c digest, parse f.1 = .ok (c, digest))
    (balance : (held p ++ new.filterMap (writeOf? parse)).Perm (flushed ++ held q ++ spilled)) :
    Account parse i t (committed ++ flushed) (lost ++ spilled) where
  applied := by
    rw [Batch.applyAll_append, account.applied]
    exact applied
  perm := by
    have perm := account.perm
    simp only [List.perm_iff_count, List.count_append] at perm balance ⊢
    intro v
    have before := perm v
    have change := balance v
    have moved := count_held_set post q v
    simp only [completions, posts, List.filterMap_append, List.count_append] at before ⊢
    omega
  parsed f member := by
    rw [completions] at member
    rcases List.mem_append.mp member with old | fresh
    · exact account.parsed f old
    · exact parsed f fresh

theorem stuck_of_post {s : State Worker Index Fault} {n : Nat} {p : Post Worker} {f : Index.SizeFault}
    (post : s.posts[n]? = some p) (failed : Batch.applyAll s.shared (held p) = .error f) : Stuck s :=
  ⟨p, List.mem_of_getElem? post, f, failed⟩

theorem Account.same {i : Index} {s t : State Worker Index Fault} {committed lost : List Write}
    (account : Account parse i s committed lost) {n : Nat} {p q : Post Worker}
    (post : s.posts[n]? = some p) (posts : t.posts = s.posts.set n q) (shared : t.shared = s.shared)
    (events : t.events = s.events) (same : held p = held q) : Account parse i t committed lost := by
  have := account.post (t := t) post posts [] [] [] (by rw [shared]; rfl)
    (by simp [State.completions, events]) nofun (by simp [same])
  simpa using this

theorem account_moved {i : Index} {s t : State Worker Index Fault} {committed lost : List Write}
    (account : Account parse i s committed lost) (moved : Moved (crew parse limit) s t) :
    ∃ committed' lost', Account parse i t committed' lost' ∧ (t.fault = none → s.fault = none) ∧
      (t.fault ≠ none ∧ Stuck s ∨ lost' = lost ∧ ∀ p ∈ t.failures, p ∈ s.failures ∨
        t.fault ≠ none ∧ ∃ r, parse p = .error r) := by
  have calm (e : Fault) (still : s.fault.or (some e) = none) : s.fault = none :=
    (Option.or_eq_none_iff.mp still).1
  have faulty (e : Fault) : s.fault.or (some e) ≠ none := by cases s.fault <;> simp
  cases moved with
  | walked _ | cut _ _ | passed _ _ _ | abandoned _ _ _ _ | found _ _ _ _ =>
    exact ⟨committed, lost, ⟨account.applied, account.perm, account.parsed⟩, id,
      .inr ⟨rfl, fun p member => .inl member⟩⟩
  | hired post hire =>
    cases hire
    exact ⟨committed, lost, account.same post rfl rfl rfl rfl, id,
      .inr ⟨rfl, fun p member => .inl member⟩⟩
  | refused post hire => cases hire
  | left post _ _ =>
    exact ⟨committed, lost, account.same post rfl rfl rfl rfl, id,
      .inr ⟨rfl, fun p member => .inl member⟩⟩
  | dropped post _ _ =>
    exact ⟨committed, lost, account.same post rfl rfl rfl rfl, id,
      .inr ⟨rfl, fun p member => .inl member⟩⟩
  | @done n w p size rest a post queue going attempt good =>
    obtain ⟨silent, sound⟩ := quiet_crew.events attempt
    obtain ⟨flushed, kept, c, digest, pending, applied, parsed, gathered⟩ := process_ok attempt good
    refine ⟨committed ++ flushed, lost ++ [], account.post post rfl flushed [] [(p, size)] applied ?_ ?_ ?_,
      id, .inr ⟨List.append_nil lost, fun q member => .inl ?_⟩⟩
    · simp [State.completions, silent, Event.completed?]
    · exact fun f member => List.mem_singleton.mp member ▸ ⟨c, digest, parsed⟩
    · have write : writeOf? parse (p, size) = some (.catalog c digest) :=
        writeOf?_eq_some_iff.mpr ⟨c, digest, parsed, rfl⟩
      simp [held, pending, gathered, write]
    · simpa [State.failures, sound, List.filterMap_cons, Event.failed?] using member
  | @failed n w p size rest a e post queue going attempt bad =>
    -- what was flushed before the file was read stays committed; only the file itself is not written
    obtain ⟨silent, sound⟩ := quiet_crew.events attempt
    obtain ⟨flushed, pending, applied, cause⟩ := process_error attempt bad
    refine ⟨committed ++ flushed, lost ++ [], account.post post rfl flushed [] [] applied ?_ (List.forall_mem_nil _) ?_,
      calm e, ?_⟩
    · simp [State.completions, silent, Event.completed?]
    · simp [held, pending]
    · rcases cause with unparsed | ⟨f, stuck⟩
      · refine .inr ⟨List.append_nil lost, fun q member => ?_⟩
        simp only [State.failures, List.filterMap_append, sound, List.append_nil, List.mem_append,
          List.filterMap_cons, Event.failed?, List.filterMap_nil, List.mem_singleton] at member
        rcases member with old | rfl
        · exact .inl old
        · exact .inr ⟨faulty e, unparsed⟩
      · exact .inl ⟨faulty e, stuck_of_post post stuck⟩
  | @closed n w j post close =>
    refine ⟨committed ++ w.batch.pending, lost ++ [],
      account.post post rfl w.batch.pending [] [] (close_ok close) (List.append_nil _).symm
        (List.forall_mem_nil _) ?_, id,
      .inr ⟨List.append_nil lost, fun p member => .inl member⟩⟩
    simp [held]
  | @spoiled n w e j post close =>
    -- the only move that loses writes: a worker goes with a batch that cannot be flushed
    obtain ⟨rfl, f, stuck⟩ := close_error close
    refine ⟨committed ++ [], lost ++ w.batch.pending,
      account.post post rfl [] w.batch.pending [] rfl (List.append_nil _).symm
        (List.forall_mem_nil _) ?_, calm e,
      .inl ⟨faulty e, stuck_of_post post stuck⟩⟩
    simp [held]

theorem account_start (i : Index) (root : Path) (workers : Nat) (visits : List Visit)
    (stopping : Bool) : Account parse i (start root workers visits stopping i) [] [] where
  applied := rfl
  perm := by
    have empty : (List.replicate (max 1 workers) (Post.vacant : Post Worker)).flatMap held = [] :=
      List.flatMap_eq_nil_iff.mpr fun p member => by rw [(List.mem_replicate.mp member).2]; rfl
    simp [start, State.completions, List.filterMap_cons, Event.completed?, empty]
  parsed f member := by
    simp [start, State.completions, List.filterMap_cons, Event.completed?] at member

theorem account_run (i : Index) (root : Path) (workers : Nat) (visits : List Visit) (stopping : Bool)
    (ms : List Move) :
    ∃ committed lost,
      Account parse i ((crew parse limit).run (start root workers visits stopping i) ms) committed lost ∧
      (((crew parse limit).run (start root workers visits stopping i) ms).fault = none →
        lost = [] ∧
          ((crew parse limit).run (start root workers visits stopping i) ms).failures = []) := by
  refine run_induction (P := fun s => ∃ committed lost, Account parse i s committed lost ∧
    (s.fault = none → lost = [] ∧ s.failures = [])) ?_ ?_ ?_ ms
  · exact ⟨[], [], account_start i root workers visits stopping, fun _ => ⟨rfl, rfl⟩⟩
  · rintro s t ⟨committed, lost, account, sound⟩ moved
    obtain ⟨committed', lost', account', earlier, effect⟩ := account_moved account moved
    refine ⟨committed', lost', account', fun calm => ?_⟩
    obtain ⟨rfl, unfailed⟩ := sound (earlier calm)
    rcases effect with ⟨faulty, _⟩ | ⟨rfl, failed⟩
    · exact absurd calm faulty
    · refine ⟨rfl, List.eq_nil_iff_forall_not_mem.mpr fun p member => ?_⟩
      rcases failed p member with old | ⟨faulty, _⟩
      · simp [unfailed] at old
      · exact faulty calm
  · rintro s ⟨committed, lost, account, sound⟩
    exact ⟨committed, lost, ⟨account.applied, account.perm, account.parsed⟩, sound⟩

theorem not_stuck {i : Index} {s : State Worker Index Fault} {committed lost : List Write}
    (account : Account parse i s committed lost)
    (fit : ∀ f ∈ s.completions, ∀ w, writeOf? parse f = some w → w.Fits i) : ¬Stuck s := by
  rintro ⟨p, member, f, failed⟩
  have fits : ∀ w ∈ held p, w.Fits s.shared := by
    intro w gathered
    have : w ∈ s.completions.filterMap (writeOf? parse) := by
      refine account.perm.mem_iff.mpr (List.mem_append_left _ (List.mem_append_right _ ?_))
      exact List.mem_flatMap.mpr ⟨p, member, gathered⟩
    obtain ⟨g, completed, write⟩ := List.mem_filterMap.mp this
    exact (fit g completed w write).mono fun x known =>
      (Batch.knows_applyAll account.applied x).mpr (.inl known)
  obtain ⟨j, applied⟩ := Batch.applyAll_ok_of_fits fits
  simp [failed] at applied

theorem account_of_fit (i : Index) (root : Path) (workers : Nat) (visits : List Visit)
    (stopping : Bool) (ms : List Move)
    (fit : ∀ f ∈ ((crew parse limit).run (start root workers visits stopping i) ms).completions,
      ∀ w, writeOf? parse f = some w → w.Fits i) :
    ∃ committed,
      Account parse i ((crew parse limit).run (start root workers visits stopping i) ms) committed [] ∧
      ∀ p ∈ ((crew parse limit).run (start root workers visits stopping i) ms).failures,
        ∃ r, parse p = .error r := by
  refine run_induction (P := fun s => (∀ f ∈ s.completions, ∀ w, writeOf? parse f = some w → w.Fits i) →
    ∃ committed, Account parse i s committed [] ∧ ∀ p ∈ s.failures, ∃ r, parse p = .error r)
    ?_ ?_ ?_ ms fit
  · refine fun _ => ⟨[], account_start i root workers visits stopping, fun p member => ?_⟩
    simp [start, State.failures, List.filterMap_cons, Event.failed?] at member
  · intro s t before moved fit
    obtain ⟨new, events⟩ := events_moved moved
    have earlier : ∀ f ∈ s.completions, ∀ w, writeOf? parse f = some w → w.Fits i :=
      fun f member => fit f (by simp [State.completions, events] at member ⊢; exact .inl member)
    obtain ⟨committed, account, unparsed⟩ := before earlier
    obtain ⟨committed', lost', account', _, effect⟩ := account_moved account moved
    rcases effect with ⟨_, stuck⟩ | ⟨rfl, failed⟩
    · exact absurd stuck (not_stuck account earlier)
    · exact ⟨committed', account', fun p member => (failed p member).elim (unparsed p) And.right⟩
  · rintro s before fit
    obtain ⟨committed, account, unparsed⟩ := before fit
    exact ⟨committed, ⟨account.applied, account.perm, account.parsed⟩, unparsed⟩

end RomLedger.Refresh
