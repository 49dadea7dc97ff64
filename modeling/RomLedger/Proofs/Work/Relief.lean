import RomLedger.Proofs.Work.Refresh

/-!
What becomes of the writes of one worker, from when it is hired to when it is closed. Whatever its files turn
out to be, and whatever others write to the index between two of its calls: the size of its batch is that of
what is pending, a file is read only while that is below the limit, and what was flushed with what is pending
is what its successful calls added, in order.
-/
namespace RomLedger

theorem Write.total_append (a b : List Nat) : Write.total (a ++ b) = Write.total a + Write.total b :=
  List.sum_append

theorem Write.size_pos (w : Write) : 0 < w.size := by
  cases w <;> simp only [Write.size, Write.romSize] <;> omega

namespace Batch

def Weighed (b : Batch) : Prop := b.size = Write.total (b.pending.map Write.size)

theorem weighed_empty : empty.Weighed := rfl

theorem Weighed.add {b : Batch} (weighed : b.Weighed) (w : Write) : (b.add w).Weighed := by
  unfold Weighed at weighed ⊢
  simp only [Batch.add, List.map_append, Write.total_append, weighed]
  rfl

theorem Weighed.size_eq_zero_iff {b : Batch} (weighed : b.Weighed) : b.size = 0 ↔ b.pending = [] := by
  rw [weighed]
  cases b.pending with
  | nil => exact iff_of_true rfl rfl
  | cons w rest =>
    refine iff_of_false (fun weightless => ?_) (List.cons_ne_nil w rest)
    have := w.size_pos
    have : w.size + Write.total (rest.map Write.size) = 0 := weightless
    omega

end Batch

namespace Refresh

/-- A file for a worker: what reading it comes to, and the index as the worker finds it by then. -/
structure Errand where
  path : Path
  parse : Path → Except Source.Refusal (Catalog × Bytes)
  index : Index

def Errand.attempt (e : Errand) (limit : Nat) (w : Worker) : Attempt Worker Index Fault :=
  process e.parse limit e.path w e.index

def flushed? (w : Worker) (a : Attempt Worker Index Fault) : Option (List Write) :=
  if a.events = [] then none else some w.batch.pending

def Errand.added? (e : Errand) (a : Attempt Worker Index Fault) : Option Write :=
  match a.result with
  | .ok () => writeOf? e.parse (e.path, 0)
  | .error _ => none

def serve (limit : Nat) (w : Worker) (es : List Errand) : Worker :=
  es.foldl (fun w e => (e.attempt limit w).worker) w

def flushes (limit : Nat) (w : Worker) : List Errand → List (List Write)
  | [] => []
  | e :: es => (flushed? w (e.attempt limit w)).toList ++ flushes limit (e.attempt limit w).worker es

def additions (limit : Nat) (w : Worker) : List Errand → List Write
  | [] => []
  | e :: es => (e.added? (e.attempt limit w)).toList ++ additions limit (e.attempt limit w).worker es

inductive Relieved (limit : Nat) (w : Worker) (i : Index) : Worker → Index → List Event → Prop
  | roomy (below : w.batch.size < limit) : Relieved limit w i w i []
  | flushed {j : Index} (full : limit ≤ w.batch.size) (applied : Batch.applyAll i w.batch.pending = .ok j) :
      Relieved limit w i ⟨w.index, .empty⟩ j [.flushed w.index w.batch.size]

theorem relieved_of_relieve {limit : Nat} {w v : Worker} {i j : Index} {events : List Event}
    (relieved : relieve limit w i = .ok (v, j, events)) : Relieved limit w i v j events := by
  unfold relieve at relieved
  by_cases full : limit ≤ w.batch.size
  · rw [if_pos full, Batch.flush] at relieved
    cases applied : Batch.applyAll i w.batch.pending with
    | ok k =>
      rw [applied] at relieved
      cases relieved
      exact .flushed full applied
    | error f =>
      rw [applied] at relieved
      cases relieved
  · rw [if_neg full] at relieved
    cases relieved
    exact .roomy (Nat.lt_of_not_le full)

/-- What a file makes of the worker that reads it. -/
inductive Read (e : Errand) (v : Worker) : Except Fault Unit → Worker → Prop
  | refused {r : Source.Refusal} (unread : e.parse e.path = .error r) : Read e v (.error (.source r)) v
  | added {c : Catalog} {digest : Bytes} (parsed : e.parse e.path = .ok (c, digest)) :
      Read e v (.ok ()) ⟨v.index, v.batch.addCatalog c digest⟩

inductive Called (limit : Nat) (w : Worker) (e : Errand) : Attempt Worker Index Fault → Prop
  | stuck {f : Index.SizeFault} (full : limit ≤ w.batch.size)
      (refused : relieve limit w e.index = .error f) :
      Called limit w e ⟨.error (.flush f), w, e.index, [], false⟩
  | read {v after : Worker} {j : Index} {events : List Event} {result : Except Fault Unit}
      (relieve : relieve limit w e.index = .ok (v, j, events)) (read : Read e v result after) :
      Called limit w e ⟨result, after, j, events, false⟩

theorem called (limit : Nat) (w : Worker) (e : Errand) : Called limit w e (e.attempt limit w) := by
  unfold Errand.attempt process
  cases relieved : relieve limit w e.index with
  | error f =>
    refine .stuck (Decidable.byContradiction fun roomy => ?_) relieved
    rw [relieve, if_neg roomy] at relieved
    cases relieved
  | ok found =>
    obtain ⟨v, j, events⟩ := found
    cases parsed : e.parse e.path with
    | error r => exact .read relieved (.refused parsed)
    | ok parts => exact .read relieved (.added parsed)

theorem Relieved.weighed {limit : Nat} {w v : Worker} {i j : Index} {events : List Event}
    (relieved : Relieved limit w i v j events) (weighed : w.batch.Weighed) : v.batch.Weighed := by
  cases relieved with
  | roomy below => exact weighed
  | flushed full applied => exact Batch.weighed_empty

theorem Relieved.below {limit : Nat} {w v : Worker} {i j : Index} {events : List Event}
    (relieved : Relieved limit w i v j events) (limited : 0 < limit) : v.batch.size < limit := by
  cases relieved with
  | roomy below => exact below
  | flushed full applied => exact limited

theorem Called.weighed {limit : Nat} {w : Worker} {e : Errand} {a : Attempt Worker Index Fault}
    (called : Called limit w e a) (weighed : w.batch.Weighed) : a.worker.batch.Weighed := by
  cases called with
  | stuck full refused => exact weighed
  | read relieve read =>
    have rest := (relieved_of_relieve relieve).weighed weighed
    cases read with
    | refused unread => exact rest
    | added parsed => exact rest.add _

/-- What a call flushes, reads and leaves. -/
structure Sound (limit : Nat) (w : Worker) (e : Errand) (a : Attempt Worker Index Fault) : Prop where
  flushed : ∀ ws, flushed? w a = some ws → ws = w.batch.pending ∧ Batch.applyAll e.index ws = .ok a.shared ∧
    a.events = [.flushed w.index (Write.total (ws.map Write.size))] ∧ limit ≤ Write.total (ws.map Write.size)
  unflushed : flushed? w a = none → a.events = [] ∧ a.shared = e.index
  stuck : ∀ f, a.result = .error (.flush f) →
    Batch.applyAll e.index w.batch.pending = .error f ∧ a.worker = w ∧ a.shared = e.index ∧ a.events = [] ∧
      ∀ parse, process parse limit e.path w e.index = a
  read : (∀ f, a.result ≠ .error (.flush f)) → ∃ v, relieve limit w e.index = .ok (v, a.shared, a.events) ∧
    v.batch.Weighed ∧ (0 < limit → v.batch.size < limit) ∧ Read e v a.result a.worker

theorem Called.sound {limit : Nat} {w : Worker} {e : Errand} {a : Attempt Worker Index Fault}
    (called : Called limit w e a) (weighed : w.batch.Weighed) : Sound limit w e a := by
  cases called with
  | @stuck f full refused =>
    refine ⟨nofun, fun _ => ⟨rfl, rfl⟩, fun g same => ?_, fun other => absurd rfl (other f)⟩
    cases same
    exact ⟨relieve_error refused, rfl, rfl, rfl, fun parse => by rw [process, refused]⟩
  | @read v after j events result relieve read =>
    have relieved := relieved_of_relieve relieve
    refine ⟨?_, ?_, ?_, fun _ => ⟨v, relieve, relieved.weighed weighed, relieved.below, read⟩⟩
    · cases relieved with
      | roomy below => exact nofun
      | flushed full applied =>
        rintro ws ⟨⟩
        rw [weighed] at full
        exact ⟨rfl, applied, by rw [weighed], full⟩
    · cases relieved with
      | roomy below => exact fun _ => ⟨rfl, rfl⟩
      | flushed full applied => exact nofun
    · rintro f same
      cases read <;> cases same

theorem Relieved.pending {limit : Nat} {w v : Worker} {i j : Index} {a : Attempt Worker Index Fault}
    (relieved : Relieved limit w i v j a.events) :
    (flushed? w a).toList.flatten ++ v.batch.pending = w.batch.pending := by
  obtain ⟨result, after, shared, events, stops⟩ := a
  cases relieved with
  | roomy below => rfl
  | flushed full applied => simp [flushed?, Batch.empty]

theorem Read.pending {e : Errand} {v : Worker} {a : Attempt Worker Index Fault}
    (read : Read e v a.result a.worker) :
    a.worker.batch.pending = v.batch.pending ++ (e.added? a).toList := by
  obtain ⟨result, after, shared, events, stops⟩ := a
  cases read with
  | refused unread => exact (List.append_nil _).symm
  | added parsed =>
    rw [Errand.added?, writeOf?_eq_some_iff.mpr ⟨_, _, parsed, rfl⟩]
    rfl

theorem Called.balanced {limit : Nat} {w : Worker} {e : Errand} {a : Attempt Worker Index Fault}
    (called : Called limit w e a) :
    (flushed? w a).toList.flatten ++ a.worker.batch.pending = w.batch.pending ++ (e.added? a).toList := by
  cases called with
  | stuck full refused => exact (List.append_nil _).symm
  | @read v after j events result relieve read =>
    have flushed := (relieved_of_relieve relieve).pending (a := ⟨result, after, j, events, false⟩)
    have added := read.pending (a := ⟨result, after, j, events, false⟩)
    rw [added, ← List.append_assoc, flushed]

theorem weighed_serve (limit : Nat) {w : Worker} (weighed : w.batch.Weighed) (es : List Errand) :
    (serve limit w es).batch.Weighed := by
  induction es generalizing w with
  | nil => exact weighed
  | cons e es ih => exact ih ((called limit w e).weighed weighed)

theorem balanced_serve (limit : Nat) (w : Worker) (es : List Errand) :
    (flushes limit w es).flatten ++ (serve limit w es).batch.pending = w.batch.pending ++ additions limit w es := by
  induction es generalizing w with
  | nil => exact (List.append_nil _).symm
  | cons e es ih =>
    -- what the first call leaves pending is what the others begin with
    have rest := ih (e.attempt limit w).worker
    have first := (called limit w e).balanced
    rw [flushes, List.flatten_append, List.append_assoc, additions, ← List.append_assoc w.batch.pending, ← first,
      List.append_assoc, ← rest]
    rfl

/-- What a worker has in its batch and what it has flushed, after any calls since it was hired: the size of the batch
is that of what is pending, and what was flushed with what is pending is what was added, in order. The next call is
sound, and closing either flushes the rest or changes nothing. -/
theorem conserved_of_serve {limit number : Nat} {es : List Errand} {w : Worker}
    (served : serve limit ⟨number, .empty⟩ es = w) :
    w.batch.size = Write.total (w.batch.pending.map Write.size) ∧
    (w.batch.size = 0 ↔ w.batch.pending = []) ∧
    (∀ e, Sound limit w e (e.attempt limit w)) ∧
    (flushes limit ⟨number, .empty⟩ es).flatten ++ w.batch.pending = additions limit ⟨number, .empty⟩ es ∧
    (∀ i j, close w i = (.ok (), j) → w.batch.flush i = .ok (j, .empty) ∧
      Batch.applyAll i w.batch.pending = .ok j ∧
      (flushes limit ⟨number, .empty⟩ es ++ [w.batch.pending]).flatten = additions limit ⟨number, .empty⟩ es) ∧
    (∀ i j e, close w i = (.error e, j) → j = i ∧ ∃ f, e = .close f ∧ w.batch.flush i = .error f) := by
  subst served
  have weighed := weighed_serve limit (w := ⟨number, .empty⟩) Batch.weighed_empty es
  have balance := balanced_serve limit ⟨number, .empty⟩ es
  generalize serve limit ⟨number, .empty⟩ es = w at weighed balance
  refine ⟨weighed, weighed.size_eq_zero_iff, fun e => (called limit w e).sound weighed, balance,
    fun i j closed => ?_, fun i j e closed => ?_⟩
  · have applied := close_ok closed
    refine ⟨by rw [Batch.flush, applied], applied, ?_⟩
    rw [List.flatten_append, List.flatten_singleton]
    exact balance
  · obtain ⟨rfl, f, failed⟩ := close_error closed
    have refused : w.batch.flush j = .error f := by rw [Batch.flush, failed]
    rw [close, refused] at closed
    cases closed
    exact ⟨rfl, f, rfl, refused⟩

def errandOf (found : Except Disk.Fault (Catalog × Bytes)) : Errand :=
  ⟨.ofString "f", fun p => found.mapError fun f => ⟨p, 0, .disk f⟩, .empty⟩

def fewErrands : List Errand :=
  [errandOf (.ok (.blank, [1])), errandOf (.ok (.blank, [2])), errandOf (.error .missing), errandOf (.ok (.blank, [3]))]

def vastErrand : Errand :=
  errandOf (.ok (⟨"", "", [⟨"", "", [], [], [⟨"", 9223372036854775808, none, none, none⟩], []⟩], []⟩, [4]))

theorem conserved_of_few :
    serve 100 ⟨0, .empty⟩ fewErrands = ⟨0, ⟨[.catalog .blank [3]], 65⟩⟩ ∧
    flushes 100 ⟨0, .empty⟩ fewErrands = [[.catalog .blank [1], .catalog .blank [2]]] ∧
    (∃ j, close (serve 100 ⟨0, .empty⟩ fewErrands) .empty = (.ok (), j) ∧
      [.catalog .blank [1], .catalog .blank [2], .catalog .blank [3]] = additions 100 ⟨0, .empty⟩ fewErrands) ∧
    ((errandOf (.ok (.blank, [5]))).attempt 100 (serve 100 ⟨0, .empty⟩ [vastErrand])).worker =
      serve 100 ⟨0, .empty⟩ [vastErrand] := by
  have flushed : flushes 100 ⟨0, .empty⟩ fewErrands = [[.catalog .blank [1], .catalog .blank [2]]] := by decide
  have served : serve 100 ⟨0, .empty⟩ fewErrands = ⟨0, ⟨[.catalog .blank [3]], 65⟩⟩ := by decide
  obtain ⟨-, -, -, -, closes, -⟩ := conserved_of_serve served
  obtain ⟨-, -, sound, -⟩ := conserved_of_serve (rfl : serve 100 ⟨0, .empty⟩ [vastErrand] = _)
  refine ⟨served, flushed, ?_, ?_⟩
  · obtain ⟨j, applied⟩ : ∃ j, Batch.applyAll .empty [.catalog .blank [3]] = .ok j := ⟨_, rfl⟩
    have closed : close ⟨0, ⟨[.catalog .blank [3]], 65⟩⟩ .empty = (.ok (), j) := by
      rw [close, Batch.flush, applied]
    have all := (closes _ _ closed).2.2
    rw [flushed] at all
    exact ⟨j, served ▸ closed, all⟩
  · exact ((sound _).stuck ⟨9223372036854775808⟩ rfl).2.1

end Refresh
end RomLedger
