import Mathlib
import RomLedger.Proofs.Clr.Mark

/-!
Where the bytes of a text go. Each call of a lexer takes what is in front of the next token and the token
itself, and all that was taken, with what is still to come, is the text: so the lexer is at the line that the
line ends behind it come to, and a token at that of its first byte. A token other than the last one has a
byte, and a last one leaves nothing; from then on each call gives a token of the same kind.
-/
namespace RomLedger

namespace Reader

variable {σ : Type} {step : σ → UInt8 → Step σ} {s : σ}

theorem length_view (r : Reader) : r.view.length = r.left := List.length_append

theorem walk_ne_left (takes : ∀ s b, step s b ≠ .leave) (b : Bytes) : (walk step s b).stop ≠ .left := by
  induction b generalizing s with
  | nil => exact Stop.noConfusion
  | cons c rest ih =>
    rw [walk]
    cases next : step s c with
    | go s' => exact ih
    | last s' => exact Stop.noConfusion
    | leave => exact absurd next (takes s c)

end Reader

namespace Clr

namespace Lexer

variable {l : Lexer} {failing : Bool} {text rest here : Bytes}

structure Spends (failing : Bool) (line : Nat) (here : Bytes) (read : Token × Lexer) : Prop where
  view : read.2.reader.view = []
  line : read.2.line = line + Bytes.newlines here
  same : read.2.reader.failing = failing
  started : read.2.started = true
  calm : read.1.kind = .ended → failing = false

theorem quoteStep_ne_leave (d : UInt8) (escaping : Bool) (b : UInt8) : quoteStep d escaping b ≠ .leave := by
  unfold quoteStep
  split
  · simp
  · split <;> simp

theorem whole_of_unclosed {d : UInt8} (unclosed : (Reader.walk (quoteStep d) false text).stop ≠ .last) :
    (Reader.walk (quoteStep d) false text).taken = text ∧ (Reader.walk (quoteStep d) false text).rest = [] := by
  have parts := Reader.walk_parts (quoteStep d) false text
  have none_left : (Reader.walk (quoteStep d) false text).rest = [] := by
    cases stop : (Reader.walk (quoteStep d) false text).stop with
    | last => exact absurd stop unclosed
    | left => exact absurd stop (Reader.walk_ne_left (quoteStep_ne_leave d) text)
    | ended => exact Reader.rest_of_ended stop
    | failed => exact absurd stop (Reader.walk_ne_failed _ _ _)
  rw [none_left, List.append_nil] at parts
  exact ⟨parts, none_left⟩

theorem quoted_spends (ahead : l.Ahead failing rest) (d : UInt8) (last : (l.quoted d).1.kind.isLast = true) :
    Spends failing l.line rest (l.quoted d) := by
  have follows := Reader.run_follows (quoteStep d) false l.reader
  rw [ahead.same, ahead.view] at follows
  obtain ⟨taken, stop, -, view, same⟩ := follows
  have unclosed : (Reader.walk (quoteStep d) false rest).stop ≠ .last := by
    intro closes
    rw [closes] at stop
    simp [quoted, stop, Reader.Stop.over, Kind.isLast] at last
  obtain ⟨all, none_left⟩ := whole_of_unclosed unclosed
  rw [List.nil_append, all] at taken
  rw [none_left] at view
  unfold quoted
  dsimp only
  split
  all_goals exact ⟨view, by rw [taken], same, ahead.started, by simp⟩

theorem bare_spends (ahead : l.Ahead failing rest) (b : UInt8) (last : (l.bare b).1.kind.isLast = true) :
    Spends failing l.line rest (l.bare b) := by
  have follows := Reader.run_follows (fun _ b => if isBare b then .go () else .leave) () l.reader
  rw [ahead.same, ahead.view] at follows
  have stops := follows.cases_stop
  obtain ⟨-, -, -, view, same⟩ := follows
  have all : ∀ c ∈ rest.takeWhile isBare, isBare c = true := fun c member => List.mem_takeWhile_imp member
  obtain ⟨-, never, back⟩ := Reader.walk_span isBare all (head_dropWhile isBare rest)
  rw [List.takeWhile_append_dropWhile] at never back
  unfold bare Reader.span at last ⊢
  dsimp only at last ⊢
  rcases stops with ⟨stop, fails, whole⟩ | stop
  · have none_line : Bytes.newlines rest = 0 := by
      rw [whole] at back
      rw [← List.takeWhile_append_dropWhile (p := isBare) (l := rest), ← back, List.append_nil]
      exact Bytes.newlines_of_all all rfl
    simp only [stop]
    exact ⟨view.trans whole, by rw [none_line]; rfl, same, ahead.started, by simp⟩
  · split at last
    · rename_i failed
      exact absurd (stop.symm.trans failed) never
    · rw [classify_isLast] at last
      cases last

theorem atToken_spends (ahead : l.Ahead failing here) (solid : ∀ b ∈ here.head?, isSeparator b = false)
    (last : l.atToken.1.kind.isLast = true) : Spends failing l.line here l.atToken := by
  cases here with
  | nil =>
    obtain ⟨r', seen, same, view⟩ := Reader.peek_nil ahead.view
    rw [ahead.same] at seen same
    unfold atToken
    rw [seen]
    cases failing with
    | true => exact ⟨view, rfl, same, ahead.started, by simp⟩
    | false => exact ⟨view, rfl, same, ahead.started, fun _ => rfl⟩
  | cons b rest =>
    obtain ⟨r', seen, same, -, more⟩ := Reader.peek_cons ahead.view
    have lines : Bytes.newlines (b :: rest) = Bytes.newlines rest := by
      refine List.count_cons_of_ne ?_
      rintro rfl
      cases solid Bytes.newline rfl
    have past : Ahead { l with reader := r'.skip } failing rest :=
      ⟨same.trans ahead.same, more, ahead.sound, ahead.started⟩
    have spends {read : Token × Lexer} (spends : Spends failing l.line rest read) :
        Spends failing l.line (b :: rest) read :=
      { spends with line := by rw [spends.line, lines] }
    unfold atToken at last ⊢
    rw [seen] at last ⊢
    dsimp only at last ⊢
    split at last
    · cases last
    · rename_i unopened
      rw [if_neg unopened]
      split at last
      · cases last
      · rename_i unclosed
        rw [if_neg unclosed]
        split at last
        · rename_i delimits
          rw [if_pos delimits]
          exact spends (quoted_spends past b last)
        · rename_i undelimited
          rw [if_neg undelimited]
          exact spends (bare_spends past b last)

theorem afterMark_spends (ahead : l.Ahead failing text) (last : l.afterMark.1.kind.isLast = true) :
    Spends failing (l.line + Bytes.newlines (text.takeWhile isSeparator)) (text.dropWhile isSeparator)
      l.afterMark := by
  have follows := Reader.run_follows (fun _ b => if isSeparator b then .go () else .leave) () l.reader
  rw [ahead.same, ahead.view] at follows
  obtain ⟨taken, -, -, view, same⟩ := follows
  have all : ∀ c ∈ text.takeWhile isSeparator, isSeparator c = true := fun c member =>
    List.mem_takeWhile_imp member
  obtain ⟨front, -, back⟩ := Reader.walk_span isSeparator all (head_dropWhile isSeparator text)
  rw [List.takeWhile_append_dropWhile] at front back
  rw [List.nil_append, front] at taken
  rw [back] at view
  rw [← taken]
  exact atToken_spends (l := { l with reader := _, line := _ }) ⟨same, view, ahead.sound, ahead.started⟩
    (head_dropWhile isSeparator text) last

theorem next_spends (ahead : l.Ahead failing text) (last : l.next.1.kind.isLast = true) :
    Spends failing (l.line + Bytes.newlines (text.takeWhile isSeparator)) (text.dropWhile isSeparator) l.next := by
  rw [next, if_neg (Bool.eq_false_iff.mp ahead.sound), scan, if_pos ahead.started] at last ⊢
  obtain ⟨view, line, same, started, calm⟩ := afterMark_spends ahead last
  exact ⟨view, line, same, started, calm⟩

def consumed (text : Bytes) (l : Lexer) : Bytes := text.take (text.length - l.reader.left)

theorem consumed_of_parts {behind : Bytes} (parts : behind ++ l.reader.view = text) : consumed text l = behind := by
  have length := congrArg List.length parts
  rw [List.length_append, Reader.length_view] at length
  rw [consumed, ← length, Nat.add_sub_cancel, ← parts, List.take_left]

structure Stands (f : Feed) (l : Lexer) : Prop where
  parts : consumed f.rest l ++ l.reader.view = f.rest
  line : l.line = 1 + Bytes.newlines (consumed f.rest l)
  same : l.reader.failing = f.failing
  fresh : l.started = true ∨ l = ofReader (.ofFeed f)
  spent : l.failed = true → l.reader.view = []

/-- What a call takes of a text behind the bytes before it: separators, and the bytes that the token is cut from. The
line of the token is that of the first of these, or of the end. -/
structure Takes (f : Feed) (before gap own : Bytes) (read : Token × Lexer) : Prop where
  taken : consumed f.rest read.2 = before ++ (gap ++ own)
  blank : ∀ b ∈ gap, isSeparator b = true
  solid : ∀ b ∈ (own ++ read.2.reader.view).head?, isSeparator b = false
  place : read.1.line = 1 + Bytes.newlines (before ++ gap)
  cut : read.1.kind.isLast = false → cutHere (own ++ read.2.reader.view) = (read.1.placeless, read.2.reader.view)
  some_ : read.1.kind.isLast = false → own ≠ []
  spent : read.1.kind.isLast = true → read.2.reader.view = []
  ended : read.1.kind = .ended → own = [] ∧ f.failing = false
  stands : Stands f read.2
  started : read.2.started = true

variable {f : Feed} {before : Bytes}

theorem stands_first (f : Feed) : Stands f (ofReader (.ofFeed f)) := by
  have none_taken : consumed f.rest (ofReader (.ofFeed f)) = [] := consumed_of_parts rfl
  exact ⟨by rw [none_taken]; rfl, by rw [none_taken]; rfl, rfl, .inr rfl, by simp [ofReader]⟩

theorem some_of_cutHere {own : Bytes} {t : Token} (cut : cutHere (own ++ rest) = (t, rest))
    (proper : t.kind.isLast = false) : own ≠ [] := by
  rintro rfl
  cases rest with
  | nil =>
    obtain ⟨rfl, -⟩ := Prod.mk.inj cut
    cases proper
  | cons b rest =>
    have shorter := (suffix_cutHere b rest).length_le
    rw [List.nil_append] at cut
    rw [cut, List.length_cons] at shorter
    omega

theorem Stands.of_parts {behind : Bytes} (parts : behind ++ l.reader.view = f.rest)
    (line : l.line = 1 + Bytes.newlines behind) (same : l.reader.failing = f.failing) (started : l.started = true)
    (spent : l.failed = true → l.reader.view = []) : Stands f l := by
  have all := consumed_of_parts parts
  exact ⟨by rw [all, parts], by rw [all, line], same, .inl started, spent⟩

theorem Found.place {line : Nat} {c : Token × Bytes} {t : Token} (found : Found failing line c t) :
    t.line = line := by
  cases found with
  | cut token place => exact place
  | failed fails whole => rfl

theorem Found.ended {line : Nat} {c : Token × Bytes} {t : Token} (found : Found failing line c t)
    (ended : t.kind = .ended) : c.1.kind = .ended := by
  cases found with
  | cut token place => exact (congrArg Token.kind token).symm.trans ended
  | failed fails whole => cases ended

theorem takes_of_ahead (ahead : l.Ahead f.failing text) (parts : before ++ text = f.rest)
    (line : l.line = 1 + Bytes.newlines before) : ∃ own, Takes f before (text.takeWhile isSeparator) own l.next := by
  obtain ⟨token, later⟩ := next_reads ahead
  have blank : ∀ b ∈ text.takeWhile isSeparator, isSeparator b = true := fun b member =>
    List.mem_takeWhile_imp member
  have solid := head_dropWhile isSeparator text
  have split := List.takeWhile_append_dropWhile (p := isSeparator) (l := text)
  have place : l.next.1.line = 1 + Bytes.newlines (before ++ text.takeWhile isSeparator) := by
    rw [token.place, line, Bytes.newlines_append, Nat.add_assoc]
  have lines (own : Bytes) : 1 + Bytes.newlines (before ++ (text.takeWhile isSeparator ++ own)) =
      l.line + Bytes.newlines (text.takeWhile isSeparator) + Bytes.newlines own := by
    rw [line, Bytes.newlines_append, Bytes.newlines_append, Nat.add_assoc, Nat.add_assoc]
  cases kind : l.next.1.kind.isLast with
  | false =>
    obtain ⟨own, whole, line', past⟩ := later kind
    rw [whole, ← past.view] at solid split
    have parts' : before ++ (text.takeWhile isSeparator ++ own) ++ l.next.2.reader.view = f.rest := by
      rw [List.append_assoc, List.append_assoc, split, parts]
    have cut : cutHere (own ++ l.next.2.reader.view) = (l.next.1.placeless, l.next.2.reader.view) := by
      rw [past.view, ← whole, token.placeless kind]
      rfl
    have sound : l.next.2.failed = true → l.next.2.reader.view = [] := by
      intro failed
      rw [past.sound] at failed
      cases failed
    have unended : l.next.1.kind ≠ .ended := by
      intro ended
      rw [ended] at kind
      cases kind
    exact ⟨own, consumed_of_parts parts', blank, solid, place, fun _ => cut, fun _ => some_of_cutHere cut kind,
      fun last => absurd last (Bool.eq_false_iff.mp kind), fun ended => absurd ended unended,
      .of_parts parts' (line'.trans (lines own).symm) past.same past.started sound, past.started⟩
  | true =>
    obtain ⟨view, line', same, started, calm⟩ := next_spends ahead kind
    have parts' : before ++ (text.takeWhile isSeparator ++ text.dropWhile isSeparator) ++ l.next.2.reader.view =
        f.rest := by
      rw [view, List.append_nil, split, parts]
    have improper (proper : l.next.1.kind.isLast = false) : False := by
      rw [kind] at proper
      cases proper
    have none_left (ended : l.next.1.kind = .ended) : text.dropWhile isSeparator = [] :=
      List.dropWhile_eq_nil_iff.mpr (blank_of_ended (token.ended ended))
    exact ⟨_, consumed_of_parts parts', blank, by rwa [view, List.append_nil], place,
      fun proper => (improper proper).elim, fun proper => (improper proper).elim, fun _ => view,
      fun ended => ⟨none_left ended, calm ended⟩,
      .of_parts parts' (line'.trans (lines _).symm) same started fun _ => view, started⟩

theorem Takes.of_faulty {read : Token × Lexer} (faulty : read.1.kind = .faulty)
    (taken : consumed f.rest read.2 = before ++ []) (place : read.1.line = 1 + Bytes.newlines (before ++ []))
    (none_left : read.2.reader.view = []) (stands : Stands f read.2) (started : read.2.started = true) :
    Takes f before [] [] read where
  taken := taken
  blank := List.forall_mem_nil _
  solid := by simp [none_left]
  place := place
  cut := by simp [faulty, Kind.isLast]
  some_ := by simp [faulty, Kind.isLast]
  spent _ := none_left
  ended := by simp [faulty]
  stands := stands
  started := started

theorem takes_of_failed (stands : Stands f l) (failed : l.failed = true) :
    Takes f (consumed f.rest l) [] [] l.next := by
  have same : l.next = (⟨.faulty, alreadyFailed, l.line⟩, l) := by rw [next, if_pos failed]
  have none_left := stands.spent failed
  have started : l.started = true := by
    rcases stands.fresh with started | rfl
    · exact started
    · cases failed
  rw [same]
  refine .of_faulty rfl (List.append_nil _).symm ?_ none_left stands started
  rw [List.append_nil]
  exact stands.line

theorem takes_of_mark (stop : ((Reader.ofFeed f).run markStep Bytes.mark).stop = .failed) :
    Takes f (Reader.walk markStep Bytes.mark f.rest).taken [] [] (ofReader (.ofFeed f)).next := by
  have follows := Reader.run_follows markStep Bytes.mark (.ofFeed f)
  have parts := Reader.walk_parts markStep Bytes.mark f.rest
  have none_left : ((Reader.ofFeed f).run markStep Bytes.mark).reader.view = [] := by
    rcases follows.cases_stop with ⟨-, -, whole⟩ | sound
    · exact follows.view.trans whole
    · exact absurd (sound.symm.trans stop) (Reader.walk_ne_failed _ _ _)
  have same : (ofReader (.ofFeed f)).next =
      (⟨.faulty, faultText, 1⟩, ⟨((Reader.ofFeed f).run markStep Bytes.mark).reader, 1, true, true⟩) := by
    simp [next, scan, ofReader, stop]
  have parts' : (Reader.walk markStep Bytes.mark f.rest).taken ++
      ((Reader.ofFeed f).run markStep Bytes.mark).reader.view = f.rest := by
    rw [follows.view]
    exact parts
  have line : 1 = 1 + Bytes.newlines (Reader.walk markStep Bytes.mark f.rest).taken := by
    rw [newlines_of_mark]
  rw [same]
  refine .of_faulty rfl ?_ ?_ none_left (.of_parts parts' line follows.same rfl fun _ => none_left) rfl
  · rw [List.append_nil]
    exact consumed_of_parts parts'
  · rw [List.append_nil]
    exact line

theorem next_takes (stands : Stands f l) :
    ∃ mark gap own, mark <+: Bytes.mark ∧ (l.started = true → mark = []) ∧
      Takes f (consumed f.rest l ++ mark) gap own l.next := by
  by_cases failed : l.failed = true
  · refine ⟨[], [], [], List.nil_prefix, fun _ => rfl, ?_⟩
    rw [List.append_nil]
    exact takes_of_failed stands failed
  by_cases started : l.started = true
  · have ahead : l.Ahead f.failing l.reader.view := ⟨stands.same, rfl, Bool.eq_false_iff.mpr failed, started⟩
    obtain ⟨own, takes⟩ := takes_of_ahead ahead stands.parts stands.line
    refine ⟨[], l.reader.view.takeWhile isSeparator, own, List.nil_prefix, fun _ => rfl, ?_⟩
    rwa [List.append_nil]
  · obtain rfl : l = ofReader (.ofFeed f) := stands.fresh.resolve_left started
    have none_taken : consumed f.rest (ofReader (.ofFeed f)) = [] := consumed_of_parts rfl
    have prefix_ := taken_of_mark Bytes.mark f.rest
    rw [none_taken]
    by_cases stop : ((Reader.ofFeed f).run markStep Bytes.mark).stop = .failed
    · exact ⟨_, [], [], prefix_, fun marked => absurd marked started, takes_of_mark stop⟩
    · have line : (behindMark (.ofFeed f)).line =
          1 + Bytes.newlines (Reader.walk markStep Bytes.mark f.rest).taken := by
        rw [newlines_of_mark]
        rfl
      have parts := Reader.walk_parts markStep Bytes.mark f.rest
      obtain ⟨own, takes⟩ := takes_of_ahead (ahead_behindMark f) parts line
      rw [next_behindMark stop]
      exact ⟨_, _, own, prefix_, fun marked => absurd marked started, takes⟩

theorem after_succ (n : Nat) (l : Lexer) : l.after (n + 1) = (l.after n).next.2 := by
  induction n generalizing l with
  | zero => rfl
  | succ n ih => exact ih l.next.2

theorem stands_after (f : Feed) (n : Nat) : Stands f ((ofReader (.ofFeed f)).after n) := by
  induction n with
  | zero => exact stands_first f
  | succ n ih =>
    obtain ⟨mark, gap, own, -, -, takes⟩ := next_takes ih
    rw [after_succ]
    exact takes.stands

theorem Takes.line {mark gap own : Bytes} {read : Token × Lexer} (stands : Stands f l)
    (takes : Takes f (consumed f.rest l ++ mark) gap own read) :
    l.line ≤ read.1.line ∧ read.1.line ≤ read.2.line := by
  rw [stands.line, takes.place, takes.stands.line, takes.taken]
  simp only [Bytes.newlines_append]
  omega

theorem line_le_line (f : Feed) {m n : Nat} (before : m ≤ n) :
    ((ofReader (.ofFeed f)).after m).next.1.line ≤ ((ofReader (.ofFeed f)).after n).next.1.line := by
  refine monotone_nat_of_le_succ (f := fun n => ((ofReader (.ofFeed f)).after n).next.1.line) (fun n => ?_) before
  obtain ⟨mark, gap, own, -, -, takes⟩ := next_takes (stands_after f n)
  obtain ⟨mark', gap', own', -, -, takes'⟩ := next_takes takes.stands
  have behind := (takes.line (stands_after f n)).2
  have ahead := (takes'.line takes.stands).1
  rw [after_succ]
  exact behind.trans ahead

theorem failed_of_faulty (faulty : l.next.1.kind = .faulty) : l.next.2.failed = true := by
  unfold next at faulty ⊢
  split
  · rename_i failed
    exact failed
  · rename_i sound
    rw [if_neg sound] at faulty
    exact decide_eq_true faulty

theorem sound_of_ended (ended : l.next.1.kind = .ended) : l.next.2.failed = false := by
  unfold next at ended ⊢
  split
  · rename_i failed
    rw [if_pos failed] at ended
    cases ended
  · rename_i sound
    rw [if_neg sound] at ended
    have scanned : l.scan.1.kind = .ended := ended
    simp [scanned]

theorem kind_again (stands : Stands f l) (last : l.next.1.kind.isLast = true) :
    l.next.2.next.1.kind = l.next.1.kind := by
  cases kind : l.next.1.kind with
  | openBrace | closeBrace | keyword | quoted | bare =>
    rw [kind] at last
    cases last
  | faulty => rw [next, if_pos (failed_of_faulty kind)]
  | ended =>
    obtain ⟨mark, gap, own, -, -, takes⟩ := next_takes stands
    have ahead : l.next.2.Ahead false [] :=
      ⟨takes.stands.same.trans (takes.ended kind).2, takes.spent last, sound_of_ended kind, takes.started⟩
    exact congrArg Token.kind (next_reads ahead).token.calm.1

theorem last_forever (f : Feed) {m n : Nat} (later : m ≤ n)
    (last : ((ofReader (.ofFeed f)).after m).next.1.kind.isLast = true) :
    ((ofReader (.ofFeed f)).after n).next.1.kind = ((ofReader (.ofFeed f)).after m).next.1.kind ∧
      consumed f.rest ((ofReader (.ofFeed f)).after (n + 1)) = f.rest := by
  have kind : ((ofReader (.ofFeed f)).after n).next.1.kind = ((ofReader (.ofFeed f)).after m).next.1.kind := by
    induction n, later using Nat.le_induction with
    | base => rfl
    | succ n later ih =>
      rw [after_succ, ← ih]
      exact kind_again (stands_after f n) (by rwa [ih])
  refine ⟨kind, ?_⟩
  obtain ⟨mark, gap, own, -, -, takes⟩ := next_takes (stands_after f n)
  have parts := takes.stands.parts
  rw [takes.spent (by rwa [kind]), List.append_nil] at parts
  rw [after_succ]
  exact parts

end Lexer

structure Consumer (σ ρ : Type) where
  step : σ → Token → σ ⊕ ρ
  finish : σ → Token → ρ

structure Drive (ρ : Type) where
  result : ρ
  calls : Nat
  lexer : Lexer

/-- What comes of going on where another consumer is done, unless that one refuses. -/
def Drive.bind {ε α β : Type} (o : Drive (Except ε α)) (later : α → Lexer → Drive (Except ε β)) :
    Drive (Except ε β) :=
  match o.result with
  | .ok a => { later a o.lexer with calls := (later a o.lexer).calls + o.calls }
  | .error e => ⟨.error e, o.calls, o.lexer⟩

namespace Consumer

def drive {σ ρ : Type} (c : Consumer σ ρ) (s : σ) (l : Lexer) : Drive ρ :=
  if _last : l.next.1.kind.isLast then ⟨c.finish s l.next.1, 1, l.next.2⟩
  else
    match c.step s l.next.1 with
    | .inl s' =>
      let later := c.drive s' l.next.2
      { later with calls := later.calls + 1 }
    | .inr r => ⟨r, 1, l.next.2⟩
termination_by l.reader.left
decreasing_by exact Lexer.left_next l (by simpa using _last)

variable {σ ρ : Type} (c : Consumer σ ρ) (s : σ) (l : Lexer)

theorem calls_drive : (c.drive s l).calls ≤ l.reader.left + 1 := by
  fun_induction c.drive s l with
  | case1 s l last => exact Nat.le_add_left 1 _
  | case2 s l more s' goes later ih =>
    have shorter := Lexer.left_next l (Bool.eq_false_iff.mpr more)
    have calls : later.calls ≤ l.next.2.reader.left + 1 := ih
    dsimp only
    omega
  | case3 s l more r done => exact Nat.le_add_left 1 _

theorem lexer_drive : (c.drive s l).lexer = l.after (c.drive s l).calls := by
  fun_induction c.drive s l with
  | case1 s l last => rfl
  | case2 s l more s' goes later ih => exact ih
  | case3 s l more r done => rfl

end Consumer

/-- The statements, which take tokens until one of them is refused. -/
def statements : Consumer State (Except (Nat × Cause) Catalog) where
  step s t :=
    match step s t with
    | .ok s' => .inl s'
    | .error e => .inr (.error (t.line, e))
  finish s t :=
    match finish s t with
    | .ok c => .ok c
    | .error e => .error (t.line, e)

/-- What skips the rest of a block, up to the parenthesis that closes it; the state counts the blocks in it that are
open. -/
def skipping : Consumer Nat (Except (Nat × Cause) Unit) where
  step depth t :=
    match t.kind, depth with
    | .openBrace, d => .inl (d + 1)
    | .closeBrace, 0 => .inr (.ok ())
    | .closeBrace, d + 1 => .inl d
    | _, d => .inl d
  finish _ t := .error (t.line, if t.kind = .faulty then .lexical t else .unexpectedEnd)

def readFrom (s : State) (ts : List Token) (last : Token) : Except (Nat × Cause) Catalog :=
  match run s ts with
  | .error e => .error e
  | .ok s' =>
    match finish s' last with
    | .ok c => .ok c
    | .error e => .error (last.line, e)

theorem drive_statements (s : State) (l : Lexer) :
    (statements.drive s l).result = readFrom s l.tokens.1 l.tokens.2.1 ∧
      ∀ c, (statements.drive s l).result = .ok c → (statements.drive s l).lexer = l.tokens.2.2 := by
  fun_induction statements.drive s l with
  | case1 s l last =>
    rw [Lexer.tokens, dif_pos last]
    exact ⟨rfl, fun c taken => rfl⟩
  | case2 s l more s' goes later ih =>
    obtain ⟨result, lexer⟩ := ih
    rw [Lexer.tokens, dif_neg more]
    have stepped : step s l.next.1 = .ok s' := by
      cases next : step s l.next.1 with
      | ok m => simpa [statements, next] using goes
      | error e => simp [statements, next] at goes
    refine ⟨result.trans ?_, lexer⟩
    simp only [readFrom, run, stepped]
  | case3 s l more r done =>
    rw [Lexer.tokens, dif_neg more]
    cases next : step s l.next.1 with
    | ok m => simp [statements, next] at done
    | error e =>
      obtain rfl : .error (l.next.1.line, e) = r := by simpa [statements, next] using done
      exact ⟨by simp only [readFrom, run, next], by simp⟩

theorem parse_drives (f : Feed) :
    parse f =
      let outcome := statements.drive .start (Lexer.ofReader (.ofFeed f))
      outcome.result.map fun c => (c.normalize, outcome.lexer.reader.meter.digest) := by
  obtain ⟨result, lexer⟩ := drive_statements .start (Lexer.ofReader (.ofFeed f))
  dsimp only
  rw [parse]
  dsimp only
  have same : read (Lexer.ofReader (.ofFeed f)).tokens.1 (Lexer.ofReader (.ofFeed f)).tokens.2.1 =
      (statements.drive .start (Lexer.ofReader (.ofFeed f))).result := result.symm
  rw [same]
  cases taken : (statements.drive .start (Lexer.ofReader (.ofFeed f))).result with
  | ok c => rw [lexer c taken]; rfl
  | error e => rfl

theorem step_skipping (c : Catalog) (d : Nat) (p : Place) (t : Token) :
    (∃ d', skipping.step d t = .inl d' ∧ statements.step ⟨c, .skipping d p⟩ t = .inl ⟨c, .skipping d' p⟩) ∨
      skipping.step d t = .inr (.ok ()) ∧ statements.step ⟨c, .skipping d p⟩ t = .inl ⟨c, .at_ p⟩ := by
  cases kind : t.kind with
  | closeBrace =>
    cases d with
    | zero => exact .inr (by simp [skipping, statements, step, stepSkipping, kind])
    | succ d => exact .inl ⟨d, by simp [skipping, statements, step, stepSkipping, kind]⟩
  | openBrace => exact .inl ⟨d + 1, by simp [skipping, statements, step, stepSkipping, kind]⟩
  | keyword | quoted | bare | ended | faulty =>
    exact .inl ⟨d, by simp [skipping, statements, step, stepSkipping, kind]⟩

theorem drive_skipping (c : Catalog) (d : Nat) (p : Place) (l : Lexer) :
    statements.drive ⟨c, .skipping d p⟩ l =
      (skipping.drive d l).bind fun _ l' => statements.drive ⟨c, .at_ p⟩ l' := by
  fun_induction skipping.drive d l with
  | case1 d l last =>
    rw [Consumer.drive, dif_pos last]
    rfl
  | case2 d l more d' goes later ih =>
    rw [Consumer.drive, dif_neg more]
    rcases step_skipping c d p l.next.1 with ⟨d'', skips, steps⟩ | ⟨ends, -⟩
    · cases goes.symm.trans skips
      rw [steps]
      dsimp only
      rw [ih, Drive.bind, Drive.bind]
      cases later.result <;> rfl
    · cases goes.symm.trans ends
  | case3 d l more r done =>
    rw [Consumer.drive, dif_neg more]
    rcases step_skipping c d p l.next.1 with ⟨d', skips, -⟩ | ⟨ends, steps⟩
    · cases done.symm.trans skips
    · cases done.symm.trans ends
      rw [steps]
      rfl

theorem Lexer.length_stream (l : Lexer) : (stream l).length ≤ l.reader.left + 1 := by
  unfold stream
  fun_induction tokens l with
  | case1 l last => exact Nat.le_add_left 1 _
  | case2 l more ts stop e rest ih =>
    have shorter := left_next l (Bool.eq_false_iff.mpr more)
    rw [rest] at ih
    simp only [List.length_append, List.length_cons, List.length_nil] at ih ⊢
    omega

theorem Lexer.started_after (f : Feed) {n : Nat} (some_ : 0 < n) :
    ((ofReader (.ofFeed f)).after n).started = true := by
  obtain ⟨m, rfl⟩ := Nat.exists_eq_add_one.mpr some_
  obtain ⟨mark, gap, own, -, -, takes⟩ := next_takes (stands_after f m)
  rw [after_succ]
  exact takes.started

/-- At each call, the bytes that were taken and those to come are the text of the feed, and the line is one more than
the line ends among those that were taken. A token's line is one more than the line ends in front of its first byte;
it has a byte if it is not the last, and it is the end only if nothing is to come. From the last token on, every call
gives one of the same kind and takes nothing. So there are at most as many tokens as bytes, and one more; neither the
statements nor what skips a block in them call the lexer more often, and the statements read what the text is read
as. -/
theorem accounts_for_text (f : Feed) :
    let first := Lexer.ofReader (.ofFeed f)
    let behind := fun n => Lexer.consumed f.rest (first.after n)
    (∀ n, behind n ++ (first.after n).reader.view = f.rest ∧
      (first.after n).line = 1 + Bytes.newlines (behind n)) ∧
    (∀ n, ∃ mark gap own, mark <+: Bytes.mark ∧ (0 < n → mark = []) ∧
      Lexer.Takes f (behind n ++ mark) gap own (first.after n).next) ∧
    (∀ m n, m ≤ n → (first.after m).next.1.line ≤ (first.after n).next.1.line) ∧
    (∀ m n, m < n → (first.after m).next.1.kind.isLast = true →
      (first.after n).next.1.kind = (first.after m).next.1.kind ∧ behind (n + 1) = behind n) ∧
    (Lexer.stream first).length ≤ f.rest.length + 1 ∧
    (∀ n depth, (skipping.drive depth (first.after n)).calls ≤ (first.after n).reader.view.length + 1) ∧
    (∀ c depth p l, statements.drive ⟨c, .skipping depth p⟩ l =
      (skipping.drive depth l).bind fun _ l' => statements.drive ⟨c, .at_ p⟩ l') ∧
    let outcome := statements.drive .start first
    outcome.calls ≤ f.rest.length + 1 ∧ outcome.lexer = first.after outcome.calls ∧
      parse f = outcome.result.map fun c => (c.normalize, outcome.lexer.reader.meter.digest) := by
  intro first behind
  have left : first.reader.left = f.rest.length := Nat.zero_add _
  refine ⟨fun n => ?_, fun n => ?_, fun m n before => Lexer.line_le_line f before, fun m n later last => ?_, ?_,
    fun n depth => ?_, drive_skipping, ?_⟩
  · have stands := Lexer.stands_after f n
    exact ⟨stands.parts, stands.line⟩
  · obtain ⟨mark, gap, own, begins, marked, takes⟩ := Lexer.next_takes (Lexer.stands_after f n)
    exact ⟨mark, gap, own, begins, fun some_ => marked (Lexer.started_after f some_), takes⟩
  · obtain ⟨k, rfl⟩ := Nat.exists_eq_add_of_lt later
    obtain ⟨kind, all⟩ := Lexer.last_forever f (Nat.le_of_lt later) last
    obtain ⟨-, before⟩ := Lexer.last_forever f (Nat.le_add_right m k) last
    exact ⟨kind, all.trans before.symm⟩
  · rw [← left]
    exact Lexer.length_stream first
  · rw [Reader.length_view]
    exact skipping.calls_drive depth _
  · refine ⟨?_, statements.lexer_drive _ _, parse_drives f⟩
    rw [← left]
    exact statements.calls_drive _ _

example :
    let first := Lexer.ofReader (.ofFeed (.steady (Bytes.mark ++ Bytes.ofString "(\n'a\n") (some 2) (some 8)))
    (first.after 1).next.1 = ⟨.faulty, Lexer.faultText, 2⟩ ∧
      (first.after 2).next.1 = ⟨.faulty, Lexer.alreadyFailed, 3⟩ := by
  decide +kernel

end Clr
end RomLedger
