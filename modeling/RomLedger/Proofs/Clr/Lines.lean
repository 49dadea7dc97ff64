import RomLedger.Proofs.Clr.Scanning

/-!
The line at which a text is refused. A lexer is at the line that the line ends behind it come to, whatever
they were in: separators, quoted strings or skipped blocks. A token keeps the line of its first byte, and the
line of a refusal is that of the token that the statements do not take, which is the last one if the text ends
too early.
-/
namespace RomLedger.Clr

namespace Lexer

/-- A token of a text: which ones are in front of it, and what it begins with. -/
structure Reached (failing : Bool) (before text : Bytes) (front : List Token) (t : Token) (behind here : Bytes) :
    Prop where
  parts : before ++ text = behind ++ here
  scans : ∃ gap, Scans text (front.map Token.placeless) (gap ++ here) ∧ ∀ b ∈ gap, isSeparator b = true
  solid : ∀ b ∈ here.head?, isSeparator b = false
  found : Found failing (1 + Bytes.newlines behind) (cutHere here) t

variable {l : Lexer} {failing : Bool} {before text : Bytes} {front back : List Token} {t : Token}

theorem reached_next (ahead : l.Ahead failing text) (line : l.line = 1 + Bytes.newlines before) :
    Reached failing before text [] l.next.1 (before ++ text.takeWhile isSeparator) (text.dropWhile isSeparator) where
  parts := by rw [List.append_assoc, List.takeWhile_append_dropWhile]
  scans := ⟨text.takeWhile isSeparator, by rw [List.takeWhile_append_dropWhile]; exact .nil,
    fun b member => List.mem_takeWhile_imp member⟩
  solid := head_dropWhile isSeparator text
  found := by
    rw [Bytes.newlines_append, ← Nat.add_assoc, ← line]
    exact (next_reads ahead).token

theorem parts_of_singleton {u : Token} (split : [u] = front ++ t :: back) :
    front = [] ∧ u = t ∧ back = [] := by
  cases front with
  | nil => simpa using split
  | cons v front => simp at split

theorem reached_tokens (ahead : l.Ahead failing text) (line : l.line = 1 + Bytes.newlines before)
    (split : l.tokens.1 ++ [l.tokens.2.1] = front ++ t :: back) :
    ∃ behind here, Reached failing before text front t behind here := by
  -- what one token takes is behind the lexer for the next one, and in front of the others for the text
  fun_induction tokens l generalizing before text front with
  | case1 l last =>
    obtain ⟨rfl, rfl, rfl⟩ := parts_of_singleton split
    exact ⟨_, _, reached_next ahead line⟩
  | case2 l more ts stop e rest ih =>
    cases front with
    | nil =>
      obtain ⟨rfl, -⟩ := List.cons.inj split
      exact ⟨_, _, reached_next ahead line⟩
    | cons u front =>
      obtain ⟨rfl, tail⟩ := List.cons.inj split
      have proper := Bool.eq_false_iff.mpr more
      obtain ⟨token, later⟩ := next_reads ahead
      obtain ⟨taken, whole, lines, past⟩ := later proper
      have next : l.next.2.line = 1 + Bytes.newlines (before ++ (text.takeWhile isSeparator ++ taken)) := by
        rw [lines, line, Bytes.newlines_append, Bytes.newlines_append, Nat.add_assoc, Nat.add_assoc]
      rw [rest] at ih
      obtain ⟨behind, here, parts, ⟨gap, scans, blank⟩, solid, found⟩ := ih past next tail
      refine ⟨behind, here, ?_, ⟨gap, .cons (Prod.ext (token.placeless proper).symm rfl) proper scans, blank⟩, solid,
        found⟩
      rw [← parts, List.append_assoc, List.append_assoc, ← whole, List.takeWhile_append_dropWhile]

theorem taken_of_mark (mark text : Bytes) : (Reader.walk markStep mark text).taken <+: mark := by
  induction text generalizing mark with
  | nil => exact List.nil_prefix
  | cons b rest ih =>
    rw [Reader.walk]
    cases mark with
    | nil => exact List.nil_prefix
    | cons e es =>
      by_cases same : b = e
      · subst same
        cases es with
        | nil => simp [markStep]
        | cons e' es => simpa [markStep] using ih (e' :: es)
      · cases es <;> simp [markStep, same]

theorem next_of_failed {r : Reader} (failed : (r.run markStep Bytes.mark).stop = .failed) :
    (ofReader r).next.1 = ⟨.faulty, faultText, 1⟩ := by
  simp [next, scan, ofReader, failed]

theorem newlines_of_mark (text : Bytes) : Bytes.newlines (Reader.walk markStep Bytes.mark text).taken = 0 := by
  refine List.count_eq_zero.mpr fun member => ?_
  have marked : Bytes.newline ∈ Bytes.mark := (taken_of_mark Bytes.mark text).subset member
  revert marked
  decide

theorem ahead_behindMark (f : Feed) : (behindMark (.ofFeed f)).Ahead f.failing (unmarked f.rest) := by
  have follows := Reader.run_follows markStep Bytes.mark (.ofFeed f)
  exact ⟨follows.same, follows.view, rfl, rfl⟩

theorem reached_of_feed {f : Feed}
    (split : (ofReader (.ofFeed f)).tokens.1 ++ [(ofReader (.ofFeed f)).tokens.2.1] = front ++ t :: back) :
    ∃ mark behind here, mark ++ unmarked f.rest = f.rest ∧
      Reached f.failing mark (unmarked f.rest) front t behind here := by
  have stops := (Reader.run_follows markStep Bytes.mark (.ofFeed f)).cases_stop
  have parts := Reader.walk_parts markStep Bytes.mark f.rest
  rcases stops with ⟨stop, fails, whole⟩ | stop
  · have first := next_of_failed stop
    rw [tokens, dif_pos (by rw [first]; rfl), first] at split
    obtain ⟨rfl, rfl, rfl⟩ := parts_of_singleton split
    have none_left : unmarked f.rest = [] := whole
    have scans : Scans (unmarked f.rest) [] [] := by
      rw [none_left]
      exact .nil
    have solid : ∀ b ∈ ([] : Bytes).head?, isSeparator b = false := by
      rintro b ⟨⟩
    refine ⟨_, _, [], parts, by rw [none_left], ⟨[], scans, List.forall_mem_nil _⟩, solid, ?_⟩
    rw [newlines_of_mark]
    exact .failed fails rfl
  · have sound : ((Reader.ofFeed f).run markStep Bytes.mark).stop ≠ .failed := by
      rw [stop]
      exact Reader.walk_ne_failed _ _ _
    rw [tokens_behindMark sound] at split
    have line : (behindMark (.ofFeed f)).line =
        1 + Bytes.newlines (Reader.walk markStep Bytes.mark f.rest).taken := by
      rw [newlines_of_mark]
      rfl
    obtain ⟨behind, here, reached⟩ := reached_tokens (ahead_behindMark f) line split
    exact ⟨_, behind, here, parts, reached⟩

end Lexer

theorem run_error {s : State} {ts : List Token} {n : Nat} {e : Cause} (refused : run s ts = .error (n, e)) :
    ∃ front t back m, ts = front ++ t :: back ∧ run s front = .ok m ∧ step m t = .error e ∧ t.line = n := by
  induction ts generalizing s with
  | nil => cases refused
  | cons t ts ih =>
    rw [run] at refused
    cases next : step s t with
    | ok m =>
      rw [next] at refused
      obtain ⟨front, u, back, k, rfl, through, stuck, line⟩ := ih refused
      exact ⟨t :: front, u, back, k, rfl, run_cons.mpr ⟨m, next, through⟩, stuck, line⟩
    | error c =>
      rw [next] at refused
      cases refused
      exact ⟨[], t, ts, s, rfl, rfl, next, rfl⟩

theorem read_error {ts : List Token} {last : Token} {n : Nat} {e : Cause}
    (refused : read ts last = .error (n, e)) :
    ∃ front t back s, ts ++ [last] = front ++ t :: back ∧ run .start front = .ok s ∧ t.line = n ∧
      (step s t = .error e ∨ t = last ∧ finish s t = .error e) := by
  rw [read] at refused
  cases through : run .start ts with
  | error c =>
    rw [through] at refused
    cases refused
    obtain ⟨front, t, back, s, rfl, taken, stuck, line⟩ := run_error through
    exact ⟨front, t, back ++ [last], s, by simp, taken, line, .inl stuck⟩
  | ok s =>
    rw [through] at refused
    dsimp only at refused
    cases ends : finish s last with
    | ok c =>
      rw [ends] at refused
      cases refused
    | error c =>
      rw [ends] at refused
      cases refused
      exact ⟨ts, last, [], s, rfl, through, rfl, .inr ⟨rfl, ends⟩⟩

inductive Blames (t : Token) : Cause → Prop
  | lexical (faulty : t.kind = .faulty) : Blames t (.lexical t)
  | unexpected (w : Wanted) (sound : t.kind ≠ .faulty) : Blames t (.unexpected w t)
  | unexpectedEnd (ended : t.kind = .ended) : Blames t .unexpectedEnd
  | badInteger {b : Coercion.BadInteger} (value : t.kind = .quoted ∨ t.kind = .bare)
      (size : Coercion.size t.text = .error b) : Blames t (.badInteger b)

theorem blames_of_opening {c : Catalog} {p : Place} {t : Token} {e : Cause}
    (refused : stepOpening c p t = .error e) : Blames t e := by
  unfold stepOpening at refused
  split at refused
  · cases refused
  · rename_i faulty
    cases refused
    exact .lexical faulty
  · rename_i sound
    cases refused
    exact .unexpected _ sound

theorem blames_of_size {c : Catalog} {p : Place} {t : Token} {e : Cause}
    (refused : stepValue c .size p t = .error e) (value : t.kind = .quoted ∨ t.kind = .bare) : Blames t e := by
  have read : stepValue c .size p t =
      ((Coercion.size t.text).map fun n => setSize c n p).mapError Cause.badInteger := by
    rcases value with kind | kind <;> simp only [stepValue, kind] <;> cases Coercion.size t.text <;> rfl
  cases size : Coercion.size t.text with
  | ok n =>
    rw [read, size] at refused
    cases refused
  | error b =>
    rw [read, size] at refused
    cases refused
    exact .badInteger value size

theorem blames_of_value {c : Catalog} {f : Field} {p : Place} {t : Token} {e : Cause}
    (refused : stepValue c f p t = .error e) : Blames t e := by
  have other {w : Wanted} (sound : t.kind ≠ .faulty) (same : Cause.unexpected w t = e) : Blames t e :=
    same ▸ .unexpected w sound
  cases kind : t.kind with
  | faulty =>
    have lexical : Cause.lexical t = e := by cases f <;> simpa [stepValue, kind] using refused
    exact lexical ▸ .lexical kind
  | openBrace | closeBrace | ended =>
    have sound : t.kind ≠ .faulty := by simp [kind]
    cases f <;> exact other sound (by simpa [stepValue, kind] using refused)
  | keyword k =>
    have sound : t.kind ≠ .faulty := by simp [kind]
    cases f with
    | name | description => simp [stepValue, kind] at refused
    | size | hash h => exact other sound (by simpa [stepValue, kind] using refused)
  | quoted =>
    cases f with
    | size => exact blames_of_size refused (.inl kind)
    | name | description | hash h => simp [stepValue, kind] at refused
  | bare =>
    cases f with
    | size => exact blames_of_size refused (.inr kind)
    | name | description | hash h => simp [stepValue, kind] at refused

theorem blames_of_step {s : State} {t : Token} {e : Cause} (refused : step s t = .error e) : Blames t e := by
  unfold step at refused
  split at refused
  · cases refused
  · exact blames_of_opening refused
  · exact blames_of_value refused
  · cases refused

theorem error_of_map {ε α β : Type} {g : α → β} {r : Except ε α} {e : ε} (refused : r.map g = .error e) :
    r = .error e := by
  cases r with
  | ok a => cases refused
  | error c => cases refused; rfl

theorem blames_of_finish {s : State} {t : Token} {e : Cause} (last : t.kind.isLast = true)
    (refused : finish s t = .error e) : Blames t e := by
  unfold finish at refused
  split at refused
  · exact blames_of_opening (error_of_map refused)
  · exact blames_of_value (error_of_map refused)
  · split at refused
    · rename_i faulty
      cases refused
      exact .lexical faulty
    · cases refused
  · split at refused
    · rename_i faulty
      cases refused
      exact .lexical faulty
    · rename_i sound
      cases refused
      exact .unexpectedEnd (by cases kind : t.kind <;> simp_all [Kind.isLast])

/-- The bytes that a cause is about: the ones that the refused token begins with, or none at the end. -/
def Cause.PointsAt (failing : Bool) (line : Nat) (here : Bytes) : Cause → Prop
  | .unexpected _ t => t = { (Lexer.cutHere here).1 with line := line }
  | .badInteger b => ((Lexer.cutHere here).1.kind = .quoted ∨ (Lexer.cutHere here).1.kind = .bare) ∧
      Coercion.size (Lexer.cutHere here).1.text = .error b
  | .unexpectedEnd => here = []
  | .lexical t =>
    (t = ⟨.faulty, Lexer.unterminated, line⟩ ∧ ∃ d rest, here = d :: rest ∧ Lexer.isDelimiter d = true ∧
      (Reader.walk (Lexer.quoteStep d) false rest).stop ≠ .last) ∨
    (t = ⟨.faulty, Lexer.faultText, line⟩ ∧ failing = true ∧ (Lexer.cutHere here).2 = [])

theorem token_of_placeless {t u : Token} {line : Nat} (same : t.placeless = u) (place : t.line = line) :
    t = { u with line := line } := by
  subst same place
  rfl

namespace Lexer

theorem unterminated_of_cutQuoted {d : UInt8} {rest : Bytes} (faulty : (cutQuoted d rest).1.kind = .faulty) :
    (cutQuoted d rest).1 = ⟨.faulty, unterminated, 0⟩ ∧
      (Reader.walk (quoteStep d) false rest).stop ≠ .last := by
  unfold cutQuoted at faulty ⊢
  dsimp only at faulty ⊢
  cases ends : (Reader.walk (quoteStep d) false rest).stop with
  | last =>
    simp only [ends] at faulty
    cases faulty
  | left | ended | failed => exact ⟨rfl, Reader.Stop.noConfusion⟩

theorem unterminated_of_cutHere {here : Bytes} (faulty : (cutHere here).1.kind = .faulty) :
    (cutHere here).1 = ⟨.faulty, unterminated, 0⟩ ∧ ∃ d rest, here = d :: rest ∧ isDelimiter d = true ∧
      (Reader.walk (quoteStep d) false rest).stop ≠ .last := by
  cases here with
  | nil => cases faulty
  | cons b rest =>
    rw [cutHere] at faulty ⊢
    by_cases opens : (b == openParen) = true
    · rw [if_pos opens] at faulty
      cases faulty
    rw [if_neg opens] at faulty ⊢
    by_cases closes : (b == closeParen) = true
    · rw [if_pos closes] at faulty
      cases faulty
    rw [if_neg closes] at faulty ⊢
    by_cases delimits : isDelimiter b = true
    · rw [if_pos delimits] at faulty ⊢
      obtain ⟨token, unclosed⟩ := unterminated_of_cutQuoted faulty
      exact ⟨token, b, rest, rfl, delimits, unclosed⟩
    · rw [if_neg delimits] at faulty
      have spelt := isSpelt_classify (Utf8.lossy (b :: rest.takeWhile isBare))
      have word : classify (Utf8.lossy (b :: rest.takeWhile isBare)) = .faulty := faulty
      rw [word] at spelt
      cases spelt

theorem nil_of_cutHere {here : Bytes} (solid : ∀ b ∈ here.head?, isSeparator b = false)
    (ended : (cutHere here).1.kind = .ended) : here = [] := by
  rw [← dropWhile_of_head solid] at ended
  have blank := List.dropWhile_eq_nil_iff.mpr (blank_of_ended ended)
  rwa [dropWhile_of_head solid] at blank

end Lexer

theorem pointsAt_of_blames {failing : Bool} {line : Nat} {here : Bytes} {t : Token} {e : Cause}
    (solid : ∀ b ∈ here.head?, Lexer.isSeparator b = false)
    (found : Lexer.Found failing line (Lexer.cutHere here) t) (blames : Blames t e) :
    e.PointsAt failing line here := by
  cases found with
  | failed fails whole =>
    cases blames with
    | lexical faulty => exact .inr ⟨rfl, fails, whole⟩
    | unexpected w sound => exact absurd rfl sound
    | unexpectedEnd ended => cases ended
    | badInteger value size => exact absurd value (by simp)
  | cut token place =>
    have kind : (Lexer.cutHere here).1.kind = t.kind := (congrArg Token.kind token).symm
    have text : (Lexer.cutHere here).1.text = t.text := (congrArg Token.text token).symm
    have whole := token_of_placeless token place
    cases blames with
    | lexical faulty =>
      obtain ⟨cut, unclosed⟩ := Lexer.unterminated_of_cutHere (kind.trans faulty)
      rw [cut] at whole
      exact .inl ⟨whole, unclosed⟩
    | unexpected w sound => exact whole
    | unexpectedEnd ended => exact Lexer.nil_of_cutHere solid (kind.trans ended)
    | badInteger value size => exact ⟨kind ▸ value, text ▸ size⟩

/-- The line of a refusal is one more than the line ends in front of a byte, or of the end, that is reached behind the
tokens that the statements take; the token that is cut there is the one that they do not take. It is the unexpected
token, the text that is no size, the string that is not closed, or the end. -/
theorem line_of_refusal {f : Feed} {n : Nat} {e : Cause} (refused : parse f = .error (n, e)) :
    ∃ before here gap ts s t, f.rest = before ++ here ∧ n = 1 + Bytes.newlines before ∧
      Lexer.Scans (Lexer.unmarked f.rest) ts (gap ++ here) ∧ (∀ b ∈ gap, Lexer.isSeparator b = true) ∧
      (∀ b ∈ here.head?, Lexer.isSeparator b = false) ∧ run .start ts = .ok s ∧
      Lexer.Found f.failing n (Lexer.cutHere here) t ∧
      (step s t = .error e ∨ t.kind.isLast = true ∧ finish s t = .error e) ∧ e.PointsAt f.failing n here := by
  have stop := Lexer.last_tokens (Lexer.ofReader (.ofFeed f))
  rw [parse_eq] at refused
  obtain ⟨front, t, back, s, split, through, place, stuck⟩ := read_error (error_of_map refused)
  obtain ⟨mark, before, here, whole, parts, ⟨gap, scans, blank⟩, solid, found⟩ := Lexer.reached_of_feed split
  have blames : Blames t e := by
    rcases stuck with stuck | ⟨rfl, stuck⟩
    · exact blames_of_step stuck
    · exact blames_of_finish stop stuck
  have line : 1 + Bytes.newlines before = n := by
    rw [← place]
    cases found with
    | cut token place => exact place.symm
    | failed fails none_left => rfl
  rw [line] at found
  refine ⟨before, here, gap, _, s, t, whole.symm.trans parts, line.symm, scans, blank, solid,
    run_placeless.mpr through, found, ?_, pointsAt_of_blames solid found blames⟩
  rcases stuck with stuck | ⟨rfl, stuck⟩
  · exact .inl stuck
  · exact .inr ⟨stop, stuck⟩

def unsizedText : Bytes := Bytes.ofString "(x\n)game (name \"a\\\nb\"\nrom (size\n\n 'ten\n' )"

def unclosedText : Bytes := Bytes.ofString "game (rom (crc zz\n\"a\nb\" (\n"

theorem line_of_two_refusals :
    parse (.steady unsizedText (some 1) none) = .error (6, .badInteger ⟨"ten\n", .invalidDigit⟩) ∧
      parse (.steady unclosedText (some 1) none) = .error (4, .unexpectedEnd) ∧
      (∃ before here, unsizedText = before ++ here ∧ 6 = 1 + Bytes.newlines before ∧
        Coercion.size (Lexer.cutHere here).1.text = .error ⟨"ten\n", .invalidDigit⟩) ∧
      4 = 1 + Bytes.newlines unclosedText := by
  have unsized : parse (.steady unsizedText (some 1) none) = .error (6, .badInteger ⟨"ten\n", .invalidDigit⟩) := by
    decide +kernel
  have unclosed : parse (.steady unclosedText (some 1) none) = .error (4, .unexpectedEnd) := by decide +kernel
  obtain ⟨before, here, -, -, -, -, parts, line, -, -, -, -, -, -, points⟩ := line_of_refusal unsized
  obtain ⟨whole, rest, -, -, -, -, parts', line', -, -, -, -, -, -, none_left⟩ := line_of_refusal unclosed
  obtain rfl : rest = [] := none_left
  have all : unclosedText = whole := parts'.trans (List.append_nil whole)
  exact ⟨unsized, unclosed, ⟨before, here, parts, line, points.2⟩, all ▸ line'⟩

end RomLedger.Clr
