import Mathlib.Data.List.Basic
import RomLedger.Proofs.Catalog.Digest
import RomLedger.Proofs.Feed.View

/-!
Where a text is cut into portions makes no difference. A lexer over a feed and a lexer over the same bytes in
memory stay in step, call by call: they are at the same line with the same bytes to come, and the next token
of the one is the next token of the other. So a text is read as the same catalog with the same digest, or is
refused for the same cause at the same line.
-/
namespace RomLedger.Clr

namespace Lexer

/-- Two lexers in step: only what their readers have in their buffers may differ. -/
structure Alike (l l' : Lexer) : Prop where
  reader : l.reader.Alike l'.reader
  line : l.line = l'.line
  started : l.started = l'.started
  failed : l.failed = l'.failed

structure Agree (read read' : Token × Lexer) : Prop where
  token : read.1 = read'.1
  lexer : read.2.Alike read'.2

def after : Nat → Lexer → Lexer
  | 0, l => l
  | n + 1, l => after n l.next.2

variable {l l' : Lexer}

theorem quoted_alike (d : UInt8) (alike : l.Alike l') : Agree (l.quoted d) (l'.quoted d) := by
  obtain ⟨taken, stop, reader⟩ := alike.reader.run (quoteStep d) false
  unfold quoted
  simp only [taken, stop, alike.line]
  split
  all_goals exact ⟨rfl, reader, rfl, alike.started, alike.failed⟩

theorem bare_alike (b : UInt8) (alike : l.Alike l') : Agree (l.bare b) (l'.bare b) := by
  obtain ⟨taken, stop, reader⟩ := alike.reader.run (fun _ b => if isBare b then .go () else .leave) ()
  unfold bare Reader.span
  simp only [taken, stop, alike.line]
  split
  all_goals exact ⟨rfl, reader, rfl, alike.started, alike.failed⟩

theorem atToken_alike (alike : l.Alike l') : Agree l.atToken l'.atToken := by
  unfold atToken
  rcases alike.reader.peek with ⟨s, s', seen, seen', reader⟩ | ⟨b, s, s', seen, seen', reader⟩
  · simp only [seen, seen', alike.line]
    exact ⟨rfl, reader, rfl, alike.started, alike.failed⟩
  · have past : Alike { l with reader := s.skip } { l' with reader := s'.skip } :=
      ⟨reader, alike.line, alike.started, alike.failed⟩
    simp only [seen, seen']
    split
    · exact ⟨by rw [alike.line], past⟩
    · split
      · exact ⟨by rw [alike.line], past⟩
      · split
        · exact quoted_alike b past
        · exact bare_alike b past

theorem afterMark_alike (alike : l.Alike l') : Agree l.afterMark l'.afterMark := by
  obtain ⟨taken, -, reader⟩ := alike.reader.run (fun _ b => if isSeparator b then .go () else .leave) ()
  unfold afterMark Reader.span
  apply atToken_alike
  exact ⟨reader, by simp only [taken, alike.line], alike.started, alike.failed⟩

theorem scan_alike (alike : l.Alike l') : Agree l.scan l'.scan := by
  unfold scan
  rw [alike.started]
  split
  · exact afterMark_alike alike
  · obtain ⟨-, stop, reader⟩ := alike.reader.run markStep Bytes.mark
    simp only [stop]
    split
    · exact ⟨by rw [alike.line], reader, alike.line, rfl, alike.failed⟩
    · apply afterMark_alike
      exact ⟨reader, alike.line, rfl, alike.failed⟩

theorem next_alike (alike : l.Alike l') : Agree l.next l'.next := by
  unfold next
  rw [alike.failed]
  split
  · exact ⟨by rw [alike.line], alike⟩
  · obtain ⟨token, later⟩ := scan_alike alike
    exact ⟨token, later.reader, later.line, later.started, by dsimp only; rw [token]⟩

theorem after_alike (n : Nat) (alike : l.Alike l') : (l.after n).Alike (l'.after n) := by
  induction n generalizing l l' with
  | zero => exact alike
  | succ n ih => exact ih (next_alike alike).lexer

theorem tokens_alike (alike : l.Alike l') :
    l.tokens.1 = l'.tokens.1 ∧ l.tokens.2.1 = l'.tokens.2.1 ∧ l.tokens.2.2.Alike l'.tokens.2.2 := by
  fun_induction tokens l generalizing l' with
  | case1 l last =>
    obtain ⟨token, later⟩ := next_alike alike
    rw [token] at last
    rw [tokens, dif_pos last]
    exact ⟨rfl, token, later⟩
  | case2 l more ts stop e rest ih =>
    obtain ⟨token, later⟩ := next_alike alike
    obtain ⟨same, last, ends⟩ := ih later
    rw [token] at more
    rw [rest] at same last ends
    rw [tokens, dif_neg more]
    dsimp only at same ⊢
    exact ⟨by rw [token, same], last, ends⟩

theorem alike_inMemory {f : Feed} (calm : f.failing = false) :
    Alike (.ofReader (.ofFeed f)) (.ofReader (.inMemory f.rest)) :=
  ⟨Reader.alike_inMemory calm, rfl, rfl, rfl⟩

end Lexer

/-- In whatever portions a text comes, every call of the lexer gives the token and leaves the line that it would
with the text in memory, and the text is read as the same catalog or refused for the same cause. -/
theorem same_in_portions {f : Feed} {text : Bytes} (calm : f.failing = false) (bytes : f.rest = text) :
    let there := Lexer.ofReader (.ofFeed f)
    let here := Lexer.ofReader (.inMemory text)
    (∀ n, (there.after n).next.1 = (here.after n).next.1 ∧ (there.after n).line = (here.after n).line) ∧
      there.tokens.1 = here.tokens.1 ∧ there.tokens.2.1 = here.tokens.2.1 ∧
      there.tokens.2.2.line = here.tokens.2.2.line ∧ parse f = parse (.whole text) := by
  intro there here
  subst bytes
  have alike : there.Alike here := Lexer.alike_inMemory calm
  obtain ⟨tokens, last, ends⟩ := Lexer.tokens_alike alike
  refine ⟨?_, tokens, last, ends.line, ?_⟩
  · intro n
    have step := Lexer.after_alike n alike
    exact ⟨(Lexer.next_alike step).token, step.line⟩
  · have whole : (Lexer.ofReader (.ofFeed (.whole f.rest))).Alike here := Lexer.alike_inMemory rfl
    obtain ⟨tokens', last', -⟩ := Lexer.tokens_alike whole
    rw [parse_eq, parse_eq (.whole f.rest), tokens', last', ← tokens, ← last]
    rfl

def brokenText : Bytes := Bytes.mark ++ Bytes.ofString "game\r\n(name \"\\\"\u00e9\n"

theorem same_byte_by_byte :
    (Feed.steady brokenText (some 1) none).failing = false ∧
      parse (.steady brokenText (some 1) none) = parse (.whole brokenText) ∧
      parse (.whole brokenText) = .error (2, .lexical ⟨.faulty, Lexer.unterminated, 2⟩) := by
  have read := same_in_portions (f := .steady brokenText (some 1) none) rfl rfl
  exact ⟨rfl, read.2.2.2.2, by decide +kernel⟩

end RomLedger.Clr
