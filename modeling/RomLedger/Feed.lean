import RomLedger.Bytes.Sha1

/- Where bytes come from. A feed hands out its bytes in portions that it chooses itself, and may fail for good
   once they are used up. -/
namespace RomLedger

/-- Bytes still to be handed out. Read number `k` gets at most `portion k` of them, and at least
one; when none is left, a failing feed reports a fault and any other the end. -/
structure Feed where
  rest : Bytes
  failing : Bool
  portion : Nat → Nat
  calls : Nat

namespace Feed

def whole (b : Bytes) : Feed := ⟨b, false, fun _ => b.length, 0⟩

def steady (b : Bytes) (chunk : Option Nat) (failAt : Option Nat) : Feed :=
  ⟨match failAt with | some n => b.take n | none => b, failAt.isSome,
    fun _ => chunk.getD b.length, 0⟩

def read (want : Nat) (f : Feed) : Option Bytes × Feed :=
  if f.rest.isEmpty then (if f.failing then none else some [], f)
  else
    let n := min want (max 1 (f.portion f.calls))
    (some (f.rest.take n), { f with rest := f.rest.drop n, calls := f.calls + 1 })

end Feed

structure Meter where
  feed : Feed
  line : Nat
  hasher : Sha1.Hasher

namespace Meter

def ofFeed (f : Feed) : Meter := ⟨f, 1, .fresh⟩

def read (want : Nat) (m : Meter) : Option Bytes × Meter :=
  match m.feed.read want with
  | (some b, f) => (some b, ⟨f, m.line + Bytes.newlines b, m.hasher.update b⟩)
  | (none, f) => (none, { m with feed := f })

def digest (m : Meter) : Bytes := m.hasher.finish

end Meter

structure Reader where
  buffer : Bytes
  meter : Meter

inductive Peek where
  | byte (b : UInt8)
  | ended
  | failed
  deriving DecidableEq, Repr

namespace Reader

def ofFeed (f : Feed) : Reader := ⟨[], .ofFeed f⟩

def capacity : Nat := 8192

def view (r : Reader) : Bytes := r.buffer ++ r.meter.feed.rest

def left (r : Reader) : Nat := r.buffer.length + r.meter.feed.rest.length

def fill (r : Reader) : Option Bytes × Reader :=
  match r.buffer with
  | [] =>
    match r.meter.read capacity with
    | (some b, m) => (some b, ⟨b, m⟩)
    | (none, m) => (none, ⟨[], m⟩)
  | b => (some b, r)

def peek (r : Reader) : Peek × Reader :=
  match r.fill with
  | (some (b :: _), r) => (.byte b, r)
  | (some [], r) => (.ended, r)
  | (none, r) => (.failed, r)

def skip (r : Reader) : Reader := { r with buffer := r.buffer.tail }

theorem fill_left (r : Reader) : r.fill.2.left = r.left := by
  obtain ⟨buffer, feed, line, passed⟩ := r
  cases buffer with
  | cons b rest => rfl
  | nil =>
    simp only [fill, Meter.read, Feed.read]
    by_cases empty : feed.rest.isEmpty
    · by_cases bad : feed.failing <;> simp_all [left]
    · simp only [empty, Bool.false_eq_true, ↓reduceIte, left, List.length_take, List.length_drop,
        List.length_nil]
      omega

theorem buffer_of_fill {r : Reader} {b : Bytes} (h : r.fill.1 = some b) : r.fill.2.buffer = b := by
  obtain ⟨buffer, m⟩ := r
  cases buffer with
  | cons c rest => simpa [fill] using h
  | nil =>
    simp only [fill] at h ⊢
    split at h <;> simp_all

theorem peek_left (r : Reader) : r.peek.2.left = r.left := by
  rw [← fill_left r]
  unfold peek
  split <;> simp_all

theorem left_of_peek {r r' : Reader} {p : Peek} (h : r.peek = (p, r')) : r'.left = r.left := by
  have := peek_left r
  rwa [h] at this

theorem left_skip {r r' : Reader} {b : UInt8} (h : r.peek = (.byte b, r')) :
    r'.skip.left < r.left := by
  have same := fill_left r
  unfold peek at h
  split at h
  · rename_i c rest s hs
    have buffer := buffer_of_fill (r := r) (b := c :: rest) (by rw [hs])
    rw [hs] at same buffer
    change s.left = r.left at same
    change s.buffer = c :: rest at buffer
    simp only [Prod.mk.injEq, Peek.byte.injEq] at h
    obtain ⟨rfl, rfl⟩ := h
    simp only [left, skip, buffer, List.length_cons, List.tail_cons] at same ⊢
    omega
  · simp at h
  · simp at h

/-- What an automaton does with the byte it is shown: take it and go on, take it as the last one, or
leave it. -/
inductive Step (σ : Type) where
  | go (s : σ)
  | last (s : σ)
  | leave

inductive Stop where
  | last
  | left
  | ended
  | failed
  deriving DecidableEq, Repr

/-- An automaton's run: the bytes it took, why it stopped, its last state and the reader after it. -/
structure Run (σ : Type) where
  taken : Bytes
  stop : Stop
  state : σ
  reader : Reader

def runFrom {σ : Type} (step : σ → UInt8 → Step σ) (taken : Bytes) (s : σ) (r : Reader) : Run σ :=
  match _seen : r.peek with
  | (.byte b, r') =>
    match step s b with
    | .go s' => runFrom step (b :: taken) s' r'.skip
    | .last s' => ⟨(b :: taken).reverse, .last, s', r'.skip⟩
    | .leave => ⟨taken.reverse, .left, s, r'⟩
  | (.ended, r') => ⟨taken.reverse, .ended, s, r'⟩
  | (.failed, r') => ⟨taken.reverse, .failed, s, r'⟩
termination_by r.left
decreasing_by exact left_skip _seen

def run {σ : Type} (step : σ → UInt8 → Step σ) (s : σ) (r : Reader) : Run σ := runFrom step [] s r

theorem left_runFrom {σ : Type} (step : σ → UInt8 → Step σ) (taken : Bytes) (s : σ) (r : Reader) :
    (runFrom step taken s r).reader.left ≤ r.left := by
  fun_induction runFrom step taken s r with
  | case1 taken s r b r' seen s' _ ih => exact Nat.le_trans ih (Nat.le_of_lt (left_skip seen))
  | case2 taken s r b r' seen s' _ => exact Nat.le_of_lt (left_skip seen)
  | case3 taken s r b r' seen _ => exact Nat.le_of_eq (left_of_peek seen)
  | case4 taken s r r' seen => exact Nat.le_of_eq (left_of_peek seen)
  | case5 taken s r r' seen => exact Nat.le_of_eq (left_of_peek seen)

theorem left_run {σ : Type} (step : σ → UInt8 → Step σ) (s : σ) (r : Reader) :
    (r.run step s).reader.left ≤ r.left := left_runFrom step [] s r

def span (p : UInt8 → Bool) (r : Reader) : Run Unit :=
  r.run (fun _ b => if p b then .go () else .leave) ()

def drain (r : Reader) : Run Unit := r.run (fun _ _ => .go ()) ()

end Reader
end RomLedger
