import RomLedger.Feed

/- A reader, seen as the bytes that are still to come and what is behind them, the end or a failure. -/
namespace RomLedger

section

variable {α : Type} {p : α → Bool} {front back : List α}

theorem head_dropWhile (p : α → Bool) (xs : List α) : ∀ x ∈ (xs.dropWhile p).head?, p x = false := by
  intro x first
  have stops := List.head?_dropWhile_not p xs
  rwa [Option.mem_def.mp first] at stops

theorem dropWhile_of_head (stops : ∀ x ∈ back.head?, p x = false) : back.dropWhile p = back := by
  cases back with
  | nil => rfl
  | cons x back => exact List.dropWhile_cons_of_neg (Bool.eq_false_iff.mp (stops x rfl))

theorem dropWhile_front (all : ∀ x ∈ front, p x = true) (stops : ∀ x ∈ back.head?, p x = false) :
    (front ++ back).dropWhile p = back := by
  rw [List.dropWhile_append_of_pos all, dropWhile_of_head stops]

theorem takeWhile_front (all : ∀ x ∈ front, p x = true) (stops : ∀ x ∈ back.head?, p x = false) :
    (front ++ back).takeWhile p = front := by
  have whole := List.takeWhile_append_dropWhile (p := p) (l := front ++ back)
  rw [dropWhile_front all stops] at whole
  exact List.append_cancel_right whole

end

namespace Reader

/-- Whether the feed of the reader fails once it has nothing left. -/
def failing (r : Reader) : Bool := r.meter.feed.failing

def Calm (r : Reader) : Prop := r.meter.feed.failing = false

variable {r : Reader}

theorem peek_nil (view : r.view = []) :
    ∃ r', r.peek = (if r.failing then .failed else .ended, r') ∧ r'.failing = r.failing ∧ r'.view = [] := by
  obtain ⟨buffer, ⟨feed, line, hasher⟩⟩ := r
  obtain ⟨none, used⟩ := List.append_eq_nil_iff.mp view
  change buffer = [] at none
  change feed.rest = [] at used
  subst none
  cases fails : feed.failing with
  | true =>
    refine ⟨⟨[], feed, line, hasher⟩, ?_, rfl, used⟩
    simp [peek, fill, Meter.read, Feed.read, failing, used, fails]
  | false =>
    refine ⟨⟨[], feed, line + Bytes.newlines [], hasher.update []⟩, ?_, rfl, used⟩
    simp [peek, fill, Meter.read, Feed.read, failing, used, fails]

theorem peek_cons {b : UInt8} {rest : Bytes} (view : r.view = b :: rest) :
    ∃ r', r.peek = (.byte b, r') ∧ r'.failing = r.failing ∧ r'.view = b :: rest ∧ r'.skip.view = rest := by
  obtain ⟨buffer, ⟨feed, line, hasher⟩⟩ := r
  cases buffer with
  | cons c more =>
    obtain ⟨rfl, rfl⟩ := List.cons.inj view
    exact ⟨_, rfl, rfl, rfl, rfl⟩
  | nil =>
    have coming : feed.rest = b :: rest := view
    -- a read that finds something takes at least one byte
    obtain ⟨k, count⟩ : ∃ k, min capacity (max 1 (feed.portion feed.calls)) = k + 1 :=
      Nat.exists_eq_succ_of_ne_zero (by simp only [capacity]; omega)
    have read : feed.read capacity =
        (some (b :: rest.take k), { feed with rest := rest.drop k, calls := feed.calls + 1 }) := by
      simp [Feed.read, coming, count]
    have filled : fill ⟨[], feed, line, hasher⟩ = (some (b :: rest.take k), ⟨b :: rest.take k,
        { feed with rest := rest.drop k, calls := feed.calls + 1 }, line + Bytes.newlines (b :: rest.take k),
        hasher.update (b :: rest.take k)⟩) := by
      simp only [fill, Meter.read, read]
    have seen : peek ⟨[], feed, line, hasher⟩ = (.byte b, ⟨b :: rest.take k,
        { feed with rest := rest.drop k, calls := feed.calls + 1 }, line + Bytes.newlines (b :: rest.take k),
        hasher.update (b :: rest.take k)⟩) := by
      simp only [peek, filled]
    have front : rest.take k ++ rest.drop k = rest := List.take_append_drop k rest
    exact ⟨_, seen, rfl, congrArg (b :: ·) front, front⟩

theorem peek_of_nil (calm : r.Calm) (view : r.view = []) :
    ∃ r', r.peek = (.ended, r') ∧ r'.Calm ∧ r'.view = [] := by
  obtain ⟨r', seen, same, left⟩ := peek_nil view
  have sound : r.failing = false := calm
  rw [sound] at seen same
  exact ⟨r', seen, same, left⟩

theorem peek_of_cons {b : UInt8} {rest : Bytes} (calm : r.Calm) (view : r.view = b :: rest) :
    ∃ r', r.peek = (.byte b, r') ∧ r'.Calm ∧ r'.view = b :: rest ∧ r'.skip.view = rest := by
  obtain ⟨r', seen, same, left⟩ := peek_cons view
  exact ⟨r', seen, same.trans calm, left⟩

/-- What an automaton makes of a list of bytes; `rest` are those that it leaves. -/
structure Walk (σ : Type) where
  taken : Bytes
  stop : Stop
  state : σ
  rest : Bytes

def walk {σ : Type} (step : σ → UInt8 → Step σ) (s : σ) : Bytes → Walk σ
  | [] => ⟨[], .ended, s, []⟩
  | b :: rest =>
    match step s b with
    | .go s' =>
      let w := walk step s' rest
      { w with taken := b :: w.taken }
    | .last s' => ⟨[b], .last, s', rest⟩
    | .leave => ⟨[], .left, s, b :: rest⟩

section

variable {σ : Type} {step : σ → UInt8 → Step σ} {s : σ}

theorem walk_parts (step : σ → UInt8 → Step σ) (s : σ) (b : Bytes) :
    (walk step s b).taken ++ (walk step s b).rest = b := by
  induction b generalizing s with
  | nil => rfl
  | cons c rest ih =>
    rw [walk]
    cases step s c with
    | go s' => exact congrArg (c :: ·) (ih s')
    | last s' => rfl
    | leave => rfl

theorem walk_ne_failed (step : σ → UInt8 → Step σ) (s : σ) (b : Bytes) : (walk step s b).stop ≠ .failed := by
  induction b generalizing s with
  | nil => exact Stop.noConfusion
  | cons c rest ih =>
    rw [walk]
    cases step s c with
    | go s' => exact ih s'
    | last s' => exact Stop.noConfusion
    | leave => exact Stop.noConfusion

theorem rest_of_ended {b : Bytes} (ended : (walk step s b).stop = .ended) : (walk step s b).rest = [] := by
  induction b generalizing s with
  | nil => rfl
  | cons c rest ih =>
    rw [walk] at ended ⊢
    cases next : step s c with
    | go s' =>
      rw [next] at ended
      exact ih ended
    | last s' =>
      rw [next] at ended
      cases ended
    | leave =>
      rw [next] at ended
      cases ended

theorem taken_of_last {b : Bytes} (last : (walk step s b).stop = .last) : (walk step s b).taken ≠ [] := by
  cases b with
  | nil => cases last
  | cons c rest =>
    rw [walk] at last ⊢
    cases next : step s c with
    | go s' => exact List.cons_ne_nil _ _
    | last s' => exact List.cons_ne_nil _ _
    | leave =>
      rw [next] at last
      cases last

theorem walk_elsewhere {front back left : Bytes} (rest : (walk step s (front ++ back)).rest = left ++ back)
    (ends : left ≠ [] ∨ (walk step s (front ++ back)).stop = .last) (tail : Bytes) :
    walk step s (front ++ tail) = { walk step s (front ++ back) with rest := left ++ tail } := by
  induction front generalizing s with
  | nil =>
    have parts := congrArg List.length (walk_parts step s back)
    rw [List.nil_append] at rest ends
    rw [rest, List.length_append, List.length_append] at parts
    have none_taken : (walk step s back).taken = [] := List.eq_nil_of_length_eq_zero (by omega)
    have none_left : left = [] := List.eq_nil_of_length_eq_zero (by omega)
    exact absurd none_taken (taken_of_last (ends.resolve_left fun some_left => some_left none_left))
  | cons b more ih =>
    simp only [List.cons_append, walk] at rest ends ⊢
    cases next : step s b with
    | go s' =>
      simp only [next] at rest ends ⊢
      rw [ih rest ends]
    | last s' =>
      simp only [next] at rest ⊢
      rw [List.append_cancel_right rest]
    | leave =>
      simp only [next] at rest ⊢
      rw [← List.cons_append] at rest
      rw [← List.append_cancel_right rest]
      rfl

end

def Stop.over (failing : Bool) : Stop → Stop
  | .ended => if failing then .failed else .ended
  | s => s

/-- A run that follows a walk up to where the bytes end, `before` being what was taken before. -/
structure Run.Follows {σ : Type} (run : Run σ) (failing : Bool) (before : Bytes) (w : Walk σ) : Prop where
  taken : run.taken = before ++ w.taken
  stop : run.stop = w.stop.over failing
  state : run.state = w.state
  view : run.reader.view = w.rest
  same : run.reader.failing = failing

theorem runFrom_follows {σ : Type} (step : σ → UInt8 → Step σ) (before : Bytes) (s : σ) (r : Reader) :
    (runFrom step before s r).Follows r.failing before.reverse (walk step s r.view) := by
  generalize coming : r.view = bytes
  induction bytes generalizing before s r with
  | nil =>
    obtain ⟨r', seen, same, view'⟩ := peek_nil coming
    rw [runFrom]
    split
    · rename_i other
      rw [seen] at other
      cases fails : r.failing <;> rw [fails] at other <;> cases other
    · rename_i ended
      rw [seen] at ended
      cases fails : r.failing <;> rw [fails] at ended same <;> cases ended
      exact ⟨(List.append_nil _).symm, rfl, rfl, view', same⟩
    · rename_i failed
      rw [seen] at failed
      cases fails : r.failing <;> rw [fails] at failed same <;> cases failed
      exact ⟨(List.append_nil _).symm, rfl, rfl, view', same⟩
  | cons b rest ih =>
    obtain ⟨r', seen, same, view', later⟩ := peek_cons coming
    rw [runFrom]
    split
    · rename_i found
      cases seen.symm.trans found
      rw [walk]
      cases step s b with
      | go s' =>
        obtain ⟨taken, stop, state, view, same'⟩ := ih (b :: before) s' r'.skip later
        have skipped : r'.skip.failing = r.failing := same
        rw [skipped] at stop same'
        refine ⟨?_, stop, state, view, same'⟩
        rw [taken, List.reverse_cons, List.append_assoc, List.singleton_append]
      | last s' => exact ⟨List.reverse_cons, rfl, rfl, later, same⟩
      | leave => exact ⟨(List.append_nil _).symm, rfl, rfl, view', same⟩
    · rename_i other
      rw [seen] at other
      cases other
    · rename_i other
      rw [seen] at other
      cases other

theorem run_follows {σ : Type} (step : σ → UInt8 → Step σ) (s : σ) (r : Reader) :
    (r.run step s).Follows r.failing [] (walk step s r.view) := runFrom_follows step [] s r

theorem Run.Follows.cases_stop {σ : Type} {step : σ → UInt8 → Step σ} {s : σ} {run : Run σ} {failing : Bool}
    {before b : Bytes} (follows : run.Follows failing before (walk step s b)) :
    run.stop = .failed ∧ failing = true ∧ (walk step s b).rest = [] ∨ run.stop = (walk step s b).stop := by
  have stop := follows.stop
  cases ends : (walk step s b).stop with
  | ended =>
    rw [ends] at stop
    cases failing with
    | true => exact .inl ⟨stop, rfl, rest_of_ended ends⟩
    | false => exact .inr stop
  | last | left | failed =>
    rw [ends] at stop
    exact .inr stop

theorem walk_all (b : Bytes) : walk (fun _ _ => .go ()) () b = ⟨b, .ended, (), []⟩ := by
  induction b with
  | nil => rfl
  | cons c rest ih => simp only [walk, ih]

theorem drain_follows (r : Reader) : r.drain.Follows r.failing [] ⟨r.view, .ended, (), []⟩ := by
  rw [← walk_all]
  exact run_follows _ () r

structure Run.Goes {σ : Type} (run : Run σ) (before : Bytes) (w : Walk σ) : Prop where
  taken : run.taken = before ++ w.taken
  stop : run.stop = w.stop
  state : run.state = w.state
  view : run.reader.view = w.rest
  calm : run.reader.Calm

theorem runFrom_goes {σ : Type} (step : σ → UInt8 → Step σ) (before : Bytes) (s : σ) (calm : r.Calm) :
    (runFrom step before s r).Goes before.reverse (walk step s r.view) := by
  have sound : r.failing = false := calm
  obtain ⟨taken, stop, state, view, same⟩ := runFrom_follows step before s r
  rw [sound] at stop same
  refine ⟨taken, stop.trans ?_, state, view, same⟩
  cases (walk step s r.view).stop <;> rfl

theorem run_goes {σ : Type} (step : σ → UInt8 → Step σ) (s : σ) (calm : r.Calm) :
    (r.run step s).Goes [] (walk step s r.view) := runFrom_goes step [] s calm

def Through {σ : Type} (step : σ → UInt8 → Step σ) (s : σ) (b : Bytes) (t : σ) : Prop :=
  ∀ back, walk step s (b ++ back) = { walk step t back with taken := b ++ (walk step t back).taken }

section

variable {σ : Type} {step : σ → UInt8 → Step σ} {s t u : σ} {c : UInt8} {b b' rest : Bytes}

theorem Through.append (first : Through step s b t) (second : Through step t b' u) :
    Through step s (b ++ b') u := by
  intro back
  rw [List.append_assoc, first, second]
  simp

theorem through_one (goes : step s c = .go t) : Through step s [c] t := by
  intro back
  simp [walk, goes]

theorem through_all (goes : ∀ c ∈ b, step s c = .go s) : Through step s b s := by
  induction b with
  | nil => exact fun back => rfl
  | cons c b ih =>
    obtain ⟨front, later⟩ := List.forall_mem_cons.mp goes
    exact (through_one front).append (ih later)

theorem Through.last (through : Through step s b t) (last : step t c = .last u) :
    walk step s (b ++ c :: rest) = ⟨b ++ [c], .last, u, rest⟩ := by
  rw [through, walk, last]

theorem run_last (calm : r.Calm) (view : r.view = b ++ c :: rest) (through : Through step s b t)
    (last : step t c = .last u) :
    (r.run step s).taken = b ++ [c] ∧ (r.run step s).stop = .last ∧ (r.run step s).reader.view = rest ∧
      (r.run step s).reader.Calm := by
  have goes := run_goes step s calm
  rw [view, through.last last] at goes
  exact ⟨goes.taken, goes.stop, goes.view, goes.calm⟩

theorem run_ended (calm : r.Calm) (view : r.view = b) (through : Through step s b t) :
    (r.run step s).taken = b ∧ (r.run step s).stop = .ended ∧ (r.run step s).reader.Calm := by
  have goes := run_goes step s calm
  have whole := through []
  rw [List.append_nil] at whole
  rw [view, whole] at goes
  exact ⟨goes.taken.trans (List.append_nil b), goes.stop, goes.calm⟩

end

theorem walk_span (p : UInt8 → Bool) {front rest : Bytes} (all : ∀ b ∈ front, p b = true)
    (ends : ∀ b ∈ rest.head?, p b = false) :
    (walk (fun _ b => if p b then .go () else .leave) () (front ++ rest)).taken = front ∧
      (walk (fun _ b => if p b then .go () else .leave) () (front ++ rest)).stop ≠ .failed ∧
      (walk (fun _ b => if p b then .go () else .leave) () (front ++ rest)).rest = rest := by
  induction front with
  | nil =>
    cases rest with
    | nil => exact ⟨rfl, Stop.noConfusion, rfl⟩
    | cons b rest =>
      have stops := ends b rfl
      simp [walk, stops]
  | cons b front ih =>
    obtain ⟨taken, stop, rest⟩ := ih fun c member => all c (List.mem_cons_of_mem b member)
    have goes := all b List.mem_cons_self
    simp only [List.cons_append, walk, goes, ↓reduceIte]
    exact ⟨congrArg (b :: ·) taken, stop, rest⟩

theorem span_goes (p : UInt8 → Bool) {front rest : Bytes} (calm : r.Calm) (view : r.view = front ++ rest)
    (all : ∀ b ∈ front, p b = true) (ends : ∀ b ∈ rest.head?, p b = false) :
    (r.span p).taken = front ∧ (r.span p).stop ≠ .failed ∧ (r.span p).reader.view = rest ∧
      (r.span p).reader.Calm := by
  have goes := run_goes (fun _ b => if p b then .go () else .leave) () calm
  obtain ⟨taken, stop, left⟩ := walk_span p all ends
  rw [view] at goes
  exact ⟨goes.taken.trans taken, fun failed => stop (goes.stop.symm.trans failed), goes.view.trans left,
    goes.calm⟩

/-- Two readers with the same bytes to come, over feeds that do not fail. -/
structure Alike (r r' : Reader) : Prop where
  calm : r.Calm
  calm' : r'.Calm
  view : r.view = r'.view

/-- A reader over bytes that all lie in its buffer. -/
def inMemory (b : Bytes) : Reader := ⟨b, .ofFeed (.whole [])⟩

theorem alike_inMemory {f : Feed} (calm : f.failing = false) : Alike (.ofFeed f) (.inMemory f.rest) where
  calm := calm
  calm' := rfl
  view := (List.append_nil f.rest).symm

theorem Alike.run {σ : Type} {r r' : Reader} (alike : r.Alike r') (step : σ → UInt8 → Step σ) (s : σ) :
    (r.run step s).taken = (r'.run step s).taken ∧ (r.run step s).stop = (r'.run step s).stop ∧
      (r.run step s).reader.Alike (r'.run step s).reader := by
  have goes := run_goes step s alike.calm
  have goes' := run_goes step s alike.calm'
  rw [← alike.view] at goes'
  refine ⟨?_, ?_, goes.calm, goes'.calm, ?_⟩
  · rw [goes.taken, goes'.taken]
  · rw [goes.stop, goes'.stop]
  · rw [goes.view, goes'.view]

theorem Alike.peek {r r' : Reader} (alike : r.Alike r') :
    (∃ s s', r.peek = (.ended, s) ∧ r'.peek = (.ended, s') ∧ s.Alike s') ∨
      ∃ b s s', r.peek = (.byte b, s) ∧ r'.peek = (.byte b, s') ∧ s.skip.Alike s'.skip := by
  have same := alike.view
  cases view : r.view with
  | nil =>
    obtain ⟨s, seen, calm, rest⟩ := peek_of_nil alike.calm view
    obtain ⟨s', seen', calm', rest'⟩ := peek_of_nil alike.calm' (same.symm.trans view)
    exact .inl ⟨s, s', seen, seen', calm, calm', rest.trans rest'.symm⟩
  | cons b more =>
    obtain ⟨s, seen, calm, -, rest⟩ := peek_of_cons alike.calm view
    obtain ⟨s', seen', calm', -, rest'⟩ := peek_of_cons alike.calm' (same.symm.trans view)
    exact .inr ⟨b, s, s', seen, seen', calm, calm', rest.trans rest'.symm⟩

end Reader
end RomLedger
