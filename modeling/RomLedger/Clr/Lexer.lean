import RomLedger.Bytes.Utf8
import RomLedger.Clr.Token
import RomLedger.Feed

/- Tokens read from a reader. -/
namespace RomLedger.Clr

structure Lexer where
  reader : Reader
  line : Nat
  started : Bool
  failed : Bool

namespace Lexer

def ofReader (r : Reader) : Lexer := ⟨r, 1, false, false⟩

def equals : UInt8 := 61
def openParen : UInt8 := 40
def closeParen : UInt8 := 41
def backslash : UInt8 := 92

def isDelimiter (b : UInt8) : Bool := b == 34 || b == 39
def isSeparator (b : UInt8) : Bool := Bytes.isBlank b || b == equals
def isBare (b : UInt8) : Bool := !(isSeparator b || b == openParen || b == closeParen)

def markStep : Bytes → UInt8 → Reader.Step Bytes
  | [], _ => .leave
  | [e], b => if b == e then .last [] else .leave
  | e :: es, b => if b == e then .go es else .leave

/-- Takes everything up to the delimiter; the state says whether a backslash came just before. -/
def quoteStep (delimiter : UInt8) (escaping : Bool) (b : UInt8) : Reader.Step Bool :=
  if escaping && (b == delimiter || Bytes.isBlank b) then .go false
  else if b == delimiter then .last false
  else .go (b == backslash)

def unescape (delimiter : UInt8) : Bytes → Bytes
  | [] => []
  | [b] => [b]
  | b :: c :: rest =>
    if b == backslash && (c == delimiter || Bytes.isBlank c) then c :: unescape delimiter rest
    else b :: unescape delimiter (c :: rest)

def faultText : String := "read failed"
def unterminated : String := "unterminated quoted string"

def quoted (delimiter : UInt8) (l : Lexer) : Token × Lexer :=
  let run := l.reader.run (quoteStep delimiter) false
  let l' := { l with reader := run.reader, line := l.line + Bytes.newlines run.taken }
  match run.stop with
  | .last => (⟨.quoted, Utf8.lossy (unescape delimiter run.taken.dropLast), l.line⟩, l')
  | .failed => (⟨.faulty, faultText, l.line⟩, l')
  | _ => (⟨.faulty, unterminated, l.line⟩, l')

/-- The token that a byte outside parentheses and quotes begins. -/
def bare (b : UInt8) (l : Lexer) : Token × Lexer :=
  let run := l.reader.span isBare
  let l' := { l with reader := run.reader }
  match run.stop with
  | .failed => (⟨.faulty, faultText, l.line⟩, l')
  | _ =>
    let text := Utf8.lossy (b :: run.taken)
    (⟨classify text, text, l.line⟩, l')

def atToken (l : Lexer) : Token × Lexer :=
  match l.reader.peek with
  | (.failed, r) => (⟨.faulty, faultText, l.line⟩, { l with reader := r })
  | (.ended, r) => (⟨.ended, "", l.line⟩, { l with reader := r })
  | (.byte b, r) =>
    let l' := { l with reader := r.skip }
    if b == openParen then (⟨.openBrace, "(", l.line⟩, l')
    else if b == closeParen then (⟨.closeBrace, ")", l.line⟩, l')
    else if isDelimiter b then l'.quoted b
    else l'.bare b

def afterMark (l : Lexer) : Token × Lexer :=
  let run := l.reader.span isSeparator
  let l' := { l with reader := run.reader, line := l.line + Bytes.newlines run.taken }
  l'.atToken

def scan (l : Lexer) : Token × Lexer :=
  if l.started then l.afterMark
  else
    let run := l.reader.run markStep Bytes.mark
    let l' := { l with reader := run.reader, started := true }
    match run.stop with
    | .failed => (⟨.faulty, faultText, l.line⟩, l')
    | _ => l'.afterMark

def alreadyFailed : String := "lexer already failed"

def next (l : Lexer) : Token × Lexer :=
  if l.failed then (⟨.faulty, alreadyFailed, l.line⟩, l)
  else
    let scanned := l.scan
    (scanned.1, { scanned.2 with failed := scanned.1.kind = .faulty })

theorem classify_isLast (s : String) : (classify s).isLast = false := by
  unfold classify
  split <;> rfl

theorem left_quoted (d : UInt8) (l : Lexer) : (l.quoted d).2.reader.left ≤ l.reader.left := by
  have := Reader.left_run (quoteStep d) false l.reader
  unfold quoted
  dsimp only
  split <;> exact this

theorem left_bare (b : UInt8) (l : Lexer) : (l.bare b).2.reader.left ≤ l.reader.left := by
  have := Reader.left_run (fun _ b => if isBare b then .go () else .leave) () l.reader
  unfold bare Reader.span
  dsimp only
  split <;> exact this

theorem left_atToken (l : Lexer) (proper : l.atToken.1.kind.isLast = false) :
    l.atToken.2.reader.left < l.reader.left := by
  unfold atToken at proper ⊢
  split at proper
  · simp [Kind.isLast] at proper
  · simp [Kind.isLast] at proper
  · rename_i b r seen
    have shorter := Reader.left_skip seen
    dsimp only
    split
    · exact shorter
    · split
      · exact shorter
      · split
        · exact Nat.lt_of_le_of_lt (left_quoted _ _) shorter
        · exact Nat.lt_of_le_of_lt (left_bare _ _) shorter

theorem left_afterMark (l : Lexer) (proper : l.afterMark.1.kind.isLast = false) :
    l.afterMark.2.reader.left < l.reader.left := by
  unfold afterMark at proper ⊢
  exact Nat.lt_of_lt_of_le (left_atToken _ proper) (Reader.left_run _ () l.reader)

theorem left_scan (l : Lexer) (proper : l.scan.1.kind.isLast = false) :
    l.scan.2.reader.left < l.reader.left := by
  by_cases h : l.started
  · rw [scan, if_pos h] at proper ⊢
    exact left_afterMark l proper
  · rw [scan, if_neg h] at proper ⊢
    dsimp only at proper ⊢
    split at proper
    · simp [Kind.isLast] at proper
    · exact Nat.lt_of_lt_of_le (left_afterMark _ proper) (Reader.left_run _ _ l.reader)

theorem left_next (l : Lexer) (proper : l.next.1.kind.isLast = false) :
    l.next.2.reader.left < l.reader.left := by
  by_cases h : l.failed
  · simp [next, h, Kind.isLast] at proper
  · rw [next, if_neg h] at proper ⊢
    exact left_scan l proper

/-- All tokens: those before the last one, the last one, and the lexer after it. -/
def tokens (l : Lexer) : List Token × Token × Lexer :=
  if _last : l.next.1.kind.isLast then ([], l.next.1, l.next.2)
  else
    let (ts, stop, e) := l.next.2.tokens
    (l.next.1 :: ts, stop, e)
termination_by l.reader.left
decreasing_by exact left_next l (by simpa using _last)

end Lexer
end RomLedger.Clr
