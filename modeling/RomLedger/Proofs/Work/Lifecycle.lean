import RomLedger.Proofs.Work.Custody

/-!
The life of a worker, and of a whole crew. A worker is hired, works on files and is closed once after the last
of them; one that could not be hired is never called again. The crew is finished once, after everyone has
gone. An error is returned exactly if some call failed, and no failure keeps a file from being tried.
-/
namespace RomLedger.Crew

variable {ω σ ε : Type}

namespace Call

def worker? : Call ε → Option Nat
  | .hire i _ | .process i _ _ | .close i _ => some i
  | .finish _ => none

end Call

def Moment.callsOf (s : Moment ω σ ε) (i : Nat) : List (Call ε) := s.calls.filter (·.worker? == some i)

def processes (i : Nat) (attempts : List ((Path × UInt64) × Except ε Unit)) : List (Call ε) :=
  attempts.map fun a => .process i a.1 a.2

def Task.Past (i : Nat) (calls : List (Call ε)) : Task ω ε → Prop
  | .vacant => calls = []
  | .absent => ∃ e, calls = [.hire i (.error e)]
  | .closed => ∃ attempts r, calls = .hire i (.ok ()) :: processes i attempts ++ [.close i r]
  | _ => ∃ attempts, calls = .hire i (.ok ()) :: processes i attempts

/-- Every call belongs to the life of one worker, but for the finishing call behind all others. -/
structure Lived (workers : Nat) (s : Moment ω σ ε) : Prop where
  crew : s.tasks.length = workers
  worker : ∀ i (p : Task ω ε), s.tasks[i]? = some p → p.Past i (s.callsOf i)
  nobody : ∀ i, workers ≤ i → s.callsOf i = []
  finish : ∃ before, (∀ k ∈ before, k.worker?.isSome = true) ∧
    (s.walker ≠ .finished ∧ s.calls = before ∨ s.walker = .finished ∧ ∃ r, s.calls = before ++ [.finish r])

theorem callsOf_append {s t : Moment ω σ ε} {i : Nat} {new : List (Call ε)} (calls : t.calls = s.calls ++ new)
    (own : ∀ k ∈ new, k.worker? = some i) (j : Nat) :
    t.callsOf j = s.callsOf j ++ if j = i then new else [] := by
  rw [Moment.callsOf, calls, List.filter_append]
  congr 1
  split
  · rename_i same
    exact List.filter_eq_self.mpr fun k member => by simp [own k member, same]
  · rename_i other
    exact List.filter_eq_nil_iff.mpr fun k member => by simp [own k member, Ne.symm other]

theorem Lived.goes {workers : Nat} {s t : Moment ω σ ε} (lived : Lived workers s) {i : Nat}
    {p q : Task ω ε} {new : List (Call ε)} (task : s.tasks[i]? = some p)
    (tasks : t.tasks = s.tasks.set i q) (walker : t.walker = s.walker) (busy : s.walker ≠ .finished)
    (calls : t.calls = s.calls ++ new) (own : ∀ k ∈ new, k.worker? = some i)
    (grows : ∀ past, p.Past i past → q.Past i (past ++ new)) : Lived workers t where
  crew := by rw [tasks, List.length_set, lived.crew]
  worker j r there := by
    rw [callsOf_append calls own]
    by_cases same : j = i
    · subst same
      rw [tasks, getElem?_set_task task, Option.some.injEq] at there
      subst there
      simpa using grows _ (lived.worker j p task)
    · rw [tasks, List.getElem?_set_ne (Ne.symm same)] at there
      simpa [same] using lived.worker j r there
  nobody j outside := by
    have inside := (List.getElem?_eq_some_iff.mp task).1
    have other : j ≠ i := by
      have := lived.crew
      omega
    simp [callsOf_append calls own, lived.nobody j outside, other]
  finish := by
    obtain ⟨before, whose, ⟨_, all⟩ | ⟨ended, _⟩⟩ := lived.finish
    · refine ⟨s.calls ++ new, fun k member => ?_, .inl ⟨walker ▸ busy, calls⟩⟩
      rcases List.mem_append.mp member with old | fresh
      · exact whose k (all ▸ old)
      · rw [own k fresh, Option.isSome_some]
    · exact absurd ended busy

theorem lived_tick {c : Crew ω σ ε} {workers : Nat} {s t : Moment ω σ ε} (kept : Kept s)
    (lived : Lived workers s) (tick : Tick c s t) : Lived workers t := by
  have ⟨crew, worker, nobody, before, whose, finish⟩ := lived
  cases tick with
  | walked walker | cut walker _ | passed walker _ _ | discovered walker _ _ | abandoned walker _
  | sent walker _ _ =>
    refine ⟨crew, worker, nobody, before, whose, .inl ⟨nofun, ?_⟩⟩
    simpa [walker] using finish
  | @hired i result shared task hire =>
    refine lived.goes task rfl rfl (kept.unfinished task rfl) rfl (by simp [Call.worker?]) ?_
    rintro past (rfl : past = [])
    cases result with
    | ok w => exact ⟨[], rfl⟩
    | error e => exact ⟨e, rfl⟩
  | took task _ | left task _ _ | dropped task _ | cleared task _ | reported task =>
    refine lived.goes task rfl rfl (kept.unfinished task rfl) (List.append_nil _).symm (by simp) ?_
    rintro past ⟨attempts, rfl⟩
    exact ⟨attempts, List.append_nil _⟩
  | @processed i w f a task attempt =>
    refine lived.goes task rfl rfl (kept.unfinished task rfl) rfl (by simp [Call.worker?]) ?_
    rintro past ⟨attempts, rfl⟩
    exact ⟨attempts ++ [(f, a.result)], by simp [processes]⟩
  | @closed i w result shared task close =>
    refine lived.goes task rfl rfl (kept.unfinished task rfl) rfl (by simp [Call.worker?]) ?_
    rintro past ⟨attempts, rfl⟩
    exact ⟨attempts, result, rfl⟩
  | @finished result shared ended gone finishes =>
    have others (i : Nat) : ([.finish result] : List (Call ε)).filter (·.worker? == some i) = [] := rfl
    have all : s.calls = before := by simpa [ended] using finish
    refine ⟨crew, fun i p task => ?_, fun i outside => ?_, before, whose, .inr ⟨rfl, result, by rw [all]⟩⟩
    · simpa [Moment.callsOf, others] using worker i p task
    · simpa [Moment.callsOf, others] using nobody i outside

theorem lived_reached {c : Crew ω σ ε} {root : Path} {workers : Nat} {visits : List Visit}
    {stopping : Bool} {shared : σ} {s : Moment ω σ ε}
    (reached : Reached c (outset root workers visits stopping shared) s) : Lived (max 1 workers) s := by
  refine (reached_induction (P := fun s => Kept s ∧ Lived (max 1 workers) s) ⟨kept_outset, ?_⟩ ?_ ?_
    reached).2
  · refine ⟨by simp [outset, State.moment, start], fun i p task => ?_, fun _ _ => rfl, [],
      List.forall_mem_nil _, .inl ⟨unfinished_outset, rfl⟩⟩
    rw [tasks_outset p (List.mem_of_getElem? task)]
    rfl
  · exact fun s t before tick => ⟨kept_tick before.1 tick, lived_tick before.1 before.2 tick⟩
  · exact fun s before => ⟨before.1.stop, before.2.crew, before.2.worker, before.2.nobody, before.2.finish⟩

section

variable {workers : Nat} {s : Moment ω σ ε}

theorem Lived.whole (lived : Lived workers s) (kept : Kept s) (ended : s.walker = .finished) {i : Nat}
    (inside : i < workers) :
    (∃ e, s.callsOf i = [.hire i (.error e)]) ∨
      ∃ attempts r, s.callsOf i = .hire i (.ok ()) :: processes i attempts ++ [.close i r] := by
  obtain ⟨p, task⟩ : ∃ p, s.tasks[i]? = some p := ⟨_, List.getElem?_eq_getElem (lived.crew ▸ inside)⟩
  have gone := kept.finished ended p (List.mem_of_getElem? task)
  have past := lived.worker i p task
  cases p with
  | absent => exact .inl past
  | closed => exact .inr past
  | _ => cases gone

theorem mem_callsOf {k : Call ε} {i : Nat} : k ∈ s.callsOf i ↔ k ∈ s.calls ∧ k.worker? = some i := by
  simp [Moment.callsOf]

theorem Lived.inside (lived : Lived workers s) {k : Call ε} {i : Nat} (own : k ∈ s.callsOf i) :
    i < workers := by
  refine Nat.lt_of_not_le fun outside => ?_
  rw [lived.nobody i outside] at own
  cases own

theorem Lived.hired_iff (lived : Lived workers s) (kept : Kept s) (ended : s.walker = .finished) :
    (∃ i, .hire i (.ok ()) ∈ s.calls) ↔ ¬∀ p ∈ s.tasks, p = .absent := by
  constructor
  · rintro ⟨i, hire⟩ absent
    have own : Call.hire i (.ok ()) ∈ s.callsOf i := mem_callsOf.mpr ⟨hire, rfl⟩
    obtain ⟨p, task⟩ : ∃ p, s.tasks[i]? = some p :=
      ⟨_, List.getElem?_eq_getElem (lived.crew ▸ lived.inside own)⟩
    have past := lived.worker i p task
    rw [absent p (List.mem_of_getElem? task)] at past
    obtain ⟨e, calls⟩ := past
    simp [calls] at own
  · intro present
    obtain ⟨p, member, here⟩ : ∃ p ∈ s.tasks, p ≠ .absent := by simpa using present
    obtain ⟨i, task⟩ := List.getElem?_of_mem member
    have gone := kept.finished ended p member
    have past := lived.worker i p task
    cases p with
    | absent => exact absurd rfl here
    | closed =>
      obtain ⟨attempts, r, calls⟩ := past
      have own : Call.hire i (.ok ()) ∈ s.callsOf i := by simp [calls]
      exact ⟨i, (mem_callsOf.mp own).1⟩
    | _ => cases gone

theorem Lived.hired_of_post (lived : Lived workers s) (kept : Kept s) (ended : s.walker = .finished)
    {p : Post ω} (member : p ∈ s.outward.posts) (present : p ≠ .absent) :
    ∃ i, .hire i (.ok ()) ∈ s.calls := by
  refine (lived.hired_iff kept ended).mpr fun absent => present ?_
  obtain ⟨task, there, rfl⟩ := List.mem_map.mp member
  rw [absent task there]
  rfl

theorem result_of_attempt {k : Call ε} {r : (Path × UInt64) × Except ε Unit} (attempt : k.attempt? = some r) :
    k.result = r.2 := by
  cases k <;> cases attempt
  rfl

theorem Told.failed_iff {c : Crew ω σ ε} {root : Path} {reported : List ((Path × UInt64) × Except ε Unit)}
    (told : Told c root workers s reported) (kept : Kept s) (ended : s.walker = .finished) :
    s.fault.isSome = true ↔ ∃ k ∈ s.calls, k.result.isOk = false := by
  rw [told.fault]
  constructor
  · rintro (⟨r, member, bad⟩ | ⟨k, member, _, bad⟩)
    · rw [(told.complete kept ended).mem_iff] at member
      obtain ⟨k, called, attempt⟩ := List.mem_filterMap.mp member
      exact ⟨k, called, result_of_attempt attempt ▸ bad⟩
    · exact ⟨k, member, bad⟩
  · rintro ⟨k, member, bad⟩
    cases attempt : k.attempt? with
    | none => exact .inr ⟨k, member, attempt, bad⟩
    | some r =>
      refine .inl ⟨r, (told.complete kept ended).mem_iff.mpr ?_, result_of_attempt attempt ▸ bad⟩
      exact List.mem_filterMap.mpr ⟨k, member, attempt⟩

end

/-- Whoever was hired is closed once, after the last file, and the crew is finished once, after everyone;
whatever fails, an error is returned for it, and no file is kept from being tried. From any moment on
the crew comes to such an end. -/
theorem ends_in_order {c : Crew ω σ ε} {root : Path} {workers : Nat} {visits : List Visit}
    {stopping : Bool} {shared : σ} {s : Moment ω σ ε}
    (reached : Reached c (outset root workers visits stopping shared) s) :
    (s.walker ≠ .finished → ∃ t, Tick c s t) ∧ (∀ t, Tick c s t → t.toDo < s.toDo) ∧
    (s.walker = .finished →
      (∀ i < max 1 workers, (∃ e, s.callsOf i = [.hire i (.error e)]) ∨
        ∃ attempts r, s.callsOf i = .hire i (.ok ()) :: processes i attempts ++ [.close i r]) ∧
      (∃ before r, s.calls = before ++ [.finish r] ∧ ∀ k ∈ before, ∃ i < max 1 workers, k ∈ s.callsOf i) ∧
      ((∃ e, s.outward.result = .error e) ↔ ∃ k ∈ s.calls, k.result.isOk = false) ∧
      (s.stopping = false → (∃ i, .hire i (.ok ()) ∈ s.calls) →
        s.handed.Perm (visits.filterMap c.wanted?))) := by
  have kept := kept_reached reached
  have lived := lived_reached reached
  obtain ⟨found, lost, cut, custody⟩ := custody_reached reached
  obtain ⟨reported, told⟩ := told_reached reached
  refine ⟨exists_tick, fun t => tick_toDo, fun ended => ⟨?_, ?_, ?_, ?_⟩⟩
  · exact fun i inside => lived.whole kept ended inside
  · obtain ⟨before, whose, ⟨busy, _⟩ | ⟨_, r, calls⟩⟩ := lived.finish
    · exact absurd ended busy
    · refine ⟨before, r, calls, fun k member => ?_⟩
      obtain ⟨i, worker⟩ := Option.isSome_iff_exists.mp (whose k member)
      have own : k ∈ s.callsOf i := mem_callsOf.mpr ⟨calls ▸ List.mem_append_left _ member, worker⟩
      exact ⟨i, lived.inside own, own⟩
  · rw [result_error_iff]
    exact told.failed_iff kept ended
  · intro going hired
    exact (custody.complete kept ended (kept.calm going) ((lived.hired_iff kept ended).mp hired)).1

def frail : Crew Unit Nat String where
  accepts _ := true
  hire i n := (if i = 0 then .error "hire" else .ok (), n)
  process p _ w n := ⟨if p.below = ["b"] then .error "process" else .ok (), w, n + 1, [], false⟩
  close _ n := (.error "close", n)
  finish n := (.ok (), n)
  chain e := [e]

def frailVisits : List Visit := [.directory ⟨"t", []⟩, .file ⟨"t", ["a"]⟩ 3, .file ⟨"t", ["b"]⟩ 5]

theorem ends_in_order_frail :
    ∃ s, Reached frail (outset (.ofString "t") 2 frailVisits false 0) s ∧ s.walker = .finished ∧
      (∃ i attempts r, s.callsOf i = .hire i (.ok ()) :: processes i attempts ++ [.close i r]) ∧
      s.handed.Perm [(⟨"t", ["a"]⟩, 3), (⟨"t", ["b"]⟩, 5)] ∧ ∃ k ∈ s.calls, k.result.isOk = false := by
  obtain ⟨s, reached, ended, outward⟩ := reached_of_work frail (.ofString "t") 2 frailVisits false 0
  obtain ⟨_, _, order⟩ := ends_in_order reached
  obtain ⟨lives, _, failed, handed⟩ := order ended
  have lived := lived_reached reached
  have going : s.stopping = false := congrArg State.stopping outward
  have fault : s.outward.result = .error "hire" := congrArg State.result outward
  have posts : s.outward.posts = [.absent, .closed] := congrArg State.posts outward
  obtain ⟨i, hire⟩ := lived.hired_of_post (kept_reached reached) ended (p := .closed) (by simp [posts]) nofun
  have own : .hire i (.ok ()) ∈ s.callsOf i := mem_callsOf.mpr ⟨hire, rfl⟩
  refine ⟨s, reached, ended, ⟨i, ?_⟩, handed going ⟨i, hire⟩, failed.mp ⟨_, fault⟩⟩
  rcases lives i (lived.inside own) with ⟨e, calls⟩ | life
  · simp [calls] at own
  · exact life

end RomLedger.Crew
