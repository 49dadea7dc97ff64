import RomLedger.Clr.Lexer
import RomLedger.Proofs.Feed.View
import RomLedger.Proofs.Text.Letters

/- Lexemes laid out in a text are read from it as tokens, one for one. Between them may stand separators, as
   many as one likes; none are needed except behind a word that a quoted string or another word follows. -/
namespace RomLedger.Clr

inductive Lexeme where
  | open_
  | close
  | quoted (s : String)
  | word (s : String)
  deriving DecidableEq, Repr

def special (c : Char) : Bool :=
  c == '"' || c == ' ' || c == '\t' || c == '\n' || c == '\x0c' || c == '\r'

def escaped (s : String) : String :=
  String.ofList (s.toList.flatMap fun c => if special c then ['\\', c] else [c])

/-- Behind such a text the closing quote keeps its meaning. -/
def Quotable (s : String) : Prop := s.toList.getLast? ≠ some '\\'

instance (s : String) : Decidable (Quotable s) := inferInstanceAs (Decidable (_ ≠ _))

namespace Lexeme

inductive Spelt : Lexeme → String → Prop
  | open_ : Spelt .open_ "("
  | close : Spelt .close ")"
  | quoted (s : String) : Spelt (.quoted s) ("\"" ++ escaped s ++ "\"")
  | word {w s : String} (alike : s.toLower = w.toLower) : Spelt (.word w) s

/-- Lexemes that are what they seem. -/
def Proper : Lexeme → Prop
  | .open_ | .close => True
  | .quoted s => Quotable s
  | .word w => w ≠ "" ∧ ∀ c ∈ w.toList, Text.isPlain c = true

def isWord : Lexeme → Bool
  | .word _ => true
  | _ => false

/-- The token has the kind and the text of the lexeme, up to the case of the letters of a word. -/
def Read (t : Token) : Lexeme → Prop
  | .open_ => t.kind = .openBrace
  | .close => t.kind = .closeBrace
  | .quoted s => t.kind = .quoted ∧ t.text = s
  | .word w => t.kind = classify w ∧ t.text.toLower = w.toLower

end Lexeme

/-- A text with the lexemes in it, each behind some separators. -/
inductive Layout : List Lexeme → Bytes → Prop
  | ended {gap : Bytes} (blank : ∀ b ∈ gap, Lexer.isSeparator b = true) : Layout [] gap
  | lexeme {x : Lexeme} {xs : List Lexeme} {gap rest : Bytes} {s : String}
      (blank : ∀ b ∈ gap, Lexer.isSeparator b = true) (spelt : x.Spelt s)
      (apart : x.isWord = true → ∀ b ∈ rest.head?, Lexer.isBare b = false) (later : Layout xs rest) :
      Layout (x :: xs) (gap ++ (Bytes.ofString s ++ rest))

theorem bare_ofNat : ∀ n < 128, Text.isPlain (Char.ofNat n) = true →
    Lexer.isBare (UInt8.ofNat n) = true ∧ Lexer.isDelimiter (UInt8.ofNat n) = false ∧ UInt8.ofNat n ≠ 0xEF := by
  decide

theorem bare_of_plain {c : Char} (plain : Text.isPlain c = true) :
    String.utf8EncodeChar c = [UInt8.ofNat c.toNat] ∧ Lexer.isBare (UInt8.ofNat c.toNat) = true ∧
      Lexer.isDelimiter (UInt8.ofNat c.toNat) = false ∧ UInt8.ofNat c.toNat ≠ 0xEF := by
  have small := Text.toNat_of_isPlain plain
  refine ⟨Utf8.utf8EncodeChar_of_ascii small, bare_ofNat _ small ?_⟩
  rwa [Char.ofNat_toNat]

theorem bytes_of_word {s : String} (plain : ∀ c ∈ s.toList, Text.isPlain c = true) (some_ : s ≠ "") :
    ∃ b more, Bytes.ofString s = b :: more ∧ Lexer.isBare b = true ∧ Lexer.isDelimiter b = false ∧
      b ≠ 0xEF ∧ ∀ c ∈ more, Lexer.isBare c = true := by
  obtain ⟨c, cs, chars⟩ := List.exists_cons_of_ne_nil (mt String.toList_eq_nil_iff.mp some_)
  rw [chars] at plain
  obtain ⟨front, later⟩ := List.forall_mem_cons.mp plain
  obtain ⟨encoded, bare, undelimited, unmarked⟩ := bare_of_plain front
  refine ⟨UInt8.ofNat c.toNat, cs.flatMap String.utf8EncodeChar, ?_, bare, undelimited, unmarked, ?_⟩
  · rw [Bytes.ofString, chars, List.flatMap_cons, encoded, List.singleton_append]
  · intro b member
    obtain ⟨d, among, inside⟩ := List.mem_flatMap.mp member
    obtain ⟨encoded, bare, -⟩ := bare_of_plain (later d among)
    rw [encoded, List.mem_singleton] at inside
    rwa [inside]

theorem toNat_of_special {c : Char} (apart : special c = true) : c.toNat < 128 := by
  simp only [special, Bool.or_eq_true, beq_iff_eq] at apart
  rcases apart with ((((rfl | rfl) | rfl) | rfl) | rfl) | rfl <;> decide

namespace Lexer

def quote : UInt8 := 34

def isSpecial (b : UInt8) : Bool := b == quote || Bytes.isBlank b

def escape (b : Bytes) : Bytes := b.flatMap fun c => if isSpecial c then [backslash, c] else [c]

def isSpecialIn (d b : UInt8) : Bool := b == d || Bytes.isBlank b

def escapeIn (d : UInt8) (b : Bytes) : Bytes :=
  b.flatMap fun c => if isSpecialIn d c then [backslash, c] else [c]

theorem toNat_of_isSpecial {b : UInt8} (apart : isSpecial b = true) : b.toNat < 128 := by
  simp only [isSpecial, quote, Bytes.isBlank, Bool.or_eq_true, beq_iff_eq] at apart
  rcases apart with rfl | ((((rfl | rfl) | rfl) | rfl) | rfl) <;> decide

theorem isSpecial_ofNat : ∀ n < 128, isSpecial (UInt8.ofNat n) = special (Char.ofNat n) := by decide

theorem escape_append (a b : Bytes) : escape (a ++ b) = escape a ++ escape b := List.flatMap_append

theorem escape_of_wide {b : Bytes} (wide : ∀ c ∈ b, 128 ≤ c.toNat) : escape b = b := by
  induction b with
  | nil => rfl
  | cons c rest ih =>
    obtain ⟨front, later⟩ := List.forall_mem_cons.mp wide
    have ordinary : isSpecial c = false :=
      Bool.eq_false_iff.mpr fun apart => absurd (toNat_of_isSpecial apart) (Nat.not_lt.mpr front)
    change (if isSpecial c then [backslash, c] else [c]) ++ escape rest = c :: rest
    rw [ordinary, ih later]
    rfl

theorem ofString_escaped_char (c : Char) :
    (if special c then ['\\', c] else [c]).flatMap String.utf8EncodeChar = escape (String.utf8EncodeChar c) := by
  by_cases ascii : c.toNat < 128
  · have encoded := Utf8.utf8EncodeChar_of_ascii ascii
    have same := isSpecial_ofNat c.toNat ascii
    rw [Char.ofNat_toNat] at same
    have back : String.utf8EncodeChar '\\' = [backslash] := by decide
    rw [encoded, ← same]
    cases apart : isSpecial (UInt8.ofNat c.toNat) <;> simp [escape, encoded, apart, back]
  · have ordinary : special c = false := Bool.eq_false_iff.mpr fun apart => ascii (toNat_of_special apart)
    have wide : ∀ b ∈ String.utf8EncodeChar c, 128 ≤ b.toNat := fun b member =>
      Utf8.utf8EncodeChar_of_wide (Nat.le_of_not_lt ascii) member
    simp [ordinary, escape_of_wide wide]

theorem ofString_escaped (s : String) : Bytes.ofString (escaped s) = escape (Bytes.ofString s) := by
  rw [Bytes.ofString, Bytes.ofString, escaped, String.toList_ofList]
  induction s.toList with
  | nil => rfl
  | cons c rest ih =>
    rw [List.flatMap_cons, List.flatMap_append, ih, ofString_escaped_char, List.flatMap_cons, escape_append]

section

variable {d : UInt8}

theorem escapeIn_cons (d b : UInt8) (rest : Bytes) :
    escapeIn d (b :: rest) =
      if isSpecialIn d b then backslash :: b :: escapeIn d rest else b :: escapeIn d rest := by
  cases apart : isSpecialIn d b <;> simp [escapeIn, apart]

theorem isSpecialIn_backslash (delimits : isDelimiter d = true) : isSpecialIn d backslash = false := by
  simp only [isDelimiter, Bool.or_eq_true, beq_iff_eq] at delimits
  rcases delimits with rfl | rfl <;> decide

theorem walk_escapeIn (delimits : isDelimiter d = true) {escaping : Bool} {b : Bytes} (rest : Bytes)
    (start : b = [] → escaping = false) (sound : b.getLast? ≠ some backslash) :
    Reader.walk (quoteStep d) escaping (escapeIn d b ++ d :: rest) =
      ⟨escapeIn d b ++ [d], .last, false, rest⟩ := by
  induction b generalizing escaping with
  | nil =>
    obtain rfl := start rfl
    simp [escapeIn, Reader.walk, quoteStep]
  | cons c more ih =>
    rw [escapeIn_cons]
    have later : more.getLast? ≠ some backslash := by
      cases more with
      | nil => simp
      | cons d more => rwa [List.getLast?_cons_cons] at sound
    cases apart : isSpecialIn d c with
    | true =>
      have first : quoteStep d escaping backslash = .go true := by
        obtain ⟨other, solid⟩ := Bool.or_eq_false_iff.mp (isSpecialIn_backslash delimits)
        simp [quoteStep, other, solid]
      have second : quoteStep d true c = .go false := by
        rw [isSpecialIn] at apart
        simp [quoteStep, apart]
      simp only [↓reduceIte, List.cons_append, Reader.walk, first, second, ih (fun _ => rfl) later]
    | false =>
      have only : quoteStep d escaping c = .go (c == backslash) := by
        obtain ⟨other, solid⟩ := Bool.or_eq_false_iff.mp apart
        simp [quoteStep, other, solid]
      have start : more = [] → (c == backslash) = false := by
        rintro rfl
        simpa using sound
      simp only [Bool.false_eq_true, ↓reduceIte, List.cons_append, Reader.walk, only, ih start later]

theorem head_escapeIn (delimits : isDelimiter d = true) {b : Bytes} {c : UInt8}
    (front : (escapeIn d b).head? = some c) : isSpecialIn d c = false := by
  cases b with
  | nil => cases front
  | cons e rest =>
    rw [escapeIn_cons] at front
    cases apart : isSpecialIn d e with
    | true =>
      simp only [apart, ↓reduceIte, List.head?_cons, Option.some.injEq] at front
      subst front
      exact isSpecialIn_backslash delimits
    | false =>
      simp only [apart, Bool.false_eq_true, ↓reduceIte, List.head?_cons, Option.some.injEq] at front
      rwa [← front]

theorem unescape_escapeIn (delimits : isDelimiter d = true) (b : Bytes) : unescape d (escapeIn d b) = b := by
  induction b with
  | nil => rfl
  | cons c rest ih =>
    rw [escapeIn_cons]
    cases apart : isSpecialIn d c with
    | true =>
      have meaning : (backslash == backslash && isSpecialIn d c) = true := by simp [apart]
      rw [isSpecialIn] at meaning
      rw [if_pos rfl, unescape, if_pos meaning, ih]
    | false =>
      rw [if_neg Bool.false_ne_true]
      -- what follows in the escaped string is a backslash or an ordinary byte
      cases more : escapeIn d rest with
      | nil =>
        rw [more] at ih
        rw [unescape, ← ih, unescape]
      | cons e more' =>
        have ordinary := head_escapeIn delimits (b := rest) (c := e) (by rw [more, List.head?_cons])
        have plain : ¬(c == backslash && (e == d || Bytes.isBlank e)) = true := by
          rw [isSpecialIn] at ordinary
          simp [ordinary]
        rw [unescape, if_neg plain, ← more, ih]

end

theorem last_ofString {s : String} (sound : Quotable s) :
    (Bytes.ofString s).getLast? ≠ some backslash := by
  rw [Bytes.ofString]
  cases ends : s.toList.getLast? with
  | none =>
    rw [List.getLast?_eq_none_iff.mp ends]
    intro last
    cases last
  | some c =>
    intro last
    obtain ⟨front, chars⟩ := List.getLast?_eq_some_iff.mp ends
    obtain ⟨d, final⟩ := Option.isSome_iff_exists.mp (List.getLast?_isSome.mpr (@String.utf8EncodeChar_ne_nil c))
    rw [chars, List.flatMap_append, List.flatMap_singleton, List.getLast?_append, final, Option.some_or] at last
    obtain rfl := Option.some.inj last
    have same : c = '\\' := Char.toNat_inj.mp (Utf8.toNat_of_mem (by decide) (List.mem_of_getLast? final))
    exact sound (ends.trans (congrArg some same))

/-- A lexer with a text before it; where a mark might stand there is none. -/
structure Ready (l : Lexer) (text : Bytes) : Prop where
  calm : l.reader.Calm
  view : l.reader.view = text
  sound : l.failed = false
  unmarked : l.started = false → text.head? ≠ some 0xEF

/-- A lexer that is past the place of the mark. -/
structure Past (l : Lexer) (text : Bytes) : Prop where
  calm : l.reader.Calm
  view : l.reader.view = text
  sound : l.failed = false
  started : l.started = true

variable {l : Lexer} {text : Bytes}

theorem Past.ready (past : l.Past text) : l.Ready text :=
  ⟨past.calm, past.view, past.sound, fun fresh => absurd (past.started.symm.trans fresh) nofun⟩

theorem walk_mark (unmarked : text.head? ≠ some 0xEF) :
    (Reader.walk markStep Bytes.mark text).stop ≠ .failed ∧
      (Reader.walk markStep Bytes.mark text).rest = text := by
  cases text with
  | nil => exact ⟨Reader.Stop.noConfusion, rfl⟩
  | cons b rest =>
    have other : ¬(b == 0xEF) = true := by simpa using unmarked
    have leaves : markStep Bytes.mark b = .leave := by
      simp only [Bytes.mark, markStep]
      rw [if_neg other]
    rw [Reader.walk, leaves]
    exact ⟨Reader.Stop.noConfusion, rfl⟩

theorem scan_of_ready (ready : l.Ready text) : ∃ l' : Lexer, l'.Past text ∧ l.scan = l'.afterMark := by
  by_cases started : l.started = true
  · exact ⟨l, ⟨ready.calm, ready.view, ready.sound, started⟩, by rw [scan, if_pos started]⟩
  · have goes := Reader.run_goes markStep Bytes.mark ready.calm
    obtain ⟨stop, rest⟩ := walk_mark (ready.unmarked (Bool.eq_false_iff.mpr started))
    rw [ready.view] at goes
    refine ⟨{ l with reader := (l.reader.run markStep Bytes.mark).reader, started := true },
      ⟨goes.calm, goes.view.trans rest, ready.sound, rfl⟩, ?_⟩
    rw [scan, if_neg started]
    dsimp only
    split
    · rename_i failed
      exact absurd (goes.stop.symm.trans failed) stop
    · rfl

theorem afterMark_of_past {gap rest : Bytes} (past : l.Past (gap ++ rest))
    (blank : ∀ b ∈ gap, isSeparator b = true) (ends : ∀ b ∈ rest.head?, isSeparator b = false) :
    ∃ l' : Lexer, l'.Past rest ∧ l.afterMark = l'.atToken := by
  obtain ⟨-, -, view, calm⟩ := Reader.span_goes isSeparator past.calm past.view blank ends
  let run := l.reader.span isSeparator
  exact ⟨{ l with reader := run.reader, line := l.line + Bytes.newlines run.taken },
    ⟨calm, view, past.sound, past.started⟩, rfl⟩

theorem quoted_of_past {d : UInt8} {b rest : Bytes} (delimits : isDelimiter d = true)
    (past : l.Past (escapeIn d b ++ d :: rest)) (sound : b.getLast? ≠ some backslash) :
    (l.quoted d).1.kind = .quoted ∧ (l.quoted d).1.text = Utf8.lossy b ∧ (l.quoted d).2.Past rest := by
  have goes := Reader.run_goes (quoteStep d) false past.calm
  rw [past.view, walk_escapeIn delimits rest (fun _ => rfl) sound] at goes
  have stop : (l.reader.run (quoteStep d) false).stop = .last := goes.stop
  have taken : (l.reader.run (quoteStep d) false).taken = escapeIn d b ++ [d] := goes.taken
  unfold quoted
  dsimp only
  split
  · rw [taken, List.dropLast_concat, unescape_escapeIn delimits]
    exact ⟨rfl, rfl, goes.calm, goes.view, past.sound, past.started⟩
  · rename_i failed
    exact absurd (stop.symm.trans failed) Reader.Stop.noConfusion
  · rename_i other _
    exact absurd stop other

theorem bare_of_past {b : UInt8} {more rest : Bytes} (past : l.Past (more ++ rest))
    (bare : ∀ c ∈ more, isBare c = true) (ends : ∀ c ∈ rest.head?, isBare c = false) :
    (l.bare b).1.kind = classify (Utf8.lossy (b :: more)) ∧ (l.bare b).1.text = Utf8.lossy (b :: more) ∧
      (l.bare b).2.Past rest := by
  obtain ⟨taken, stop, view, calm⟩ := Reader.span_goes isBare past.calm past.view bare ends
  unfold Lexer.bare
  dsimp only
  split
  · rename_i failed
    exact absurd failed stop
  · rw [taken]
    exact ⟨rfl, rfl, calm, view, past.sound, past.started⟩

theorem atToken_of_nil (past : l.Past []) : l.atToken.1.kind = .ended := by
  obtain ⟨r, seen, -, -⟩ := Reader.peek_of_nil past.calm past.view
  rw [atToken, seen]

theorem atToken_of_cons {b : UInt8} {rest : Bytes} (past : l.Past (b :: rest)) :
    ∃ l' : Lexer, l'.Past rest ∧ l.atToken =
      if b == openParen then (⟨.openBrace, "(", l.line⟩, l')
      else if b == closeParen then (⟨.closeBrace, ")", l.line⟩, l')
      else if isDelimiter b then l'.quoted b
      else l'.bare b := by
  obtain ⟨r, seen, calm, -, view⟩ := Reader.peek_of_cons past.calm past.view
  exact ⟨{ l with reader := r.skip }, ⟨calm, view, past.sound, past.started⟩, by rw [atToken, seen]⟩

theorem classify_alike {s w : String} (alike : s.toLower = w.toLower) : classify s = classify w := by
  rw [classify, classify, alike]

theorem atToken_of_quoted {s : String} {rest : Bytes} (quotable : Quotable s)
    (past : l.Past (Bytes.ofString ("\"" ++ escaped s ++ "\"") ++ rest)) :
    (Lexeme.quoted s).Read l.atToken.1 ∧ l.atToken.2.Past rest := by
  have text : Bytes.ofString ("\"" ++ escaped s ++ "\"") ++ rest =
      quote :: (escape (Bytes.ofString s) ++ quote :: rest) := by
    have mark : Bytes.ofString "\"" = [quote] := by decide
    rw [Utf8.ofString_append, Utf8.ofString_append, ofString_escaped, mark]
    simp
  rw [text] at past
  obtain ⟨l', later, read⟩ := atToken_of_cons past
  obtain ⟨kind, content, past'⟩ := quoted_of_past (d := quote) rfl later (last_ofString quotable)
  rw [Utf8.lossy_ofString] at content
  have only : l.atToken = l'.quoted quote := read
  rw [only]
  exact ⟨⟨kind, content⟩, past'⟩

theorem atToken_of_word {w s : String} {rest : Bytes} (proper : (Lexeme.word w).Proper)
    (alike : s.toLower = w.toLower) (past : l.Past (Bytes.ofString s ++ rest))
    (apart : ∀ b ∈ rest.head?, isBare b = false) :
    (Lexeme.word w).Read l.atToken.1 ∧ l.atToken.2.Past rest := by
  obtain ⟨some_, plain⟩ := proper
  obtain ⟨b, more, bytes, bare, undelimited, -, further⟩ := bytes_of_word (Text.plain_of_alike alike plain)
    (Text.ne_of_alike alike some_)
  have back : Utf8.lossy (b :: more) = s := by rw [← bytes, Utf8.lossy_ofString]
  rw [bytes] at past
  obtain ⟨l', later, read⟩ := atToken_of_cons past
  obtain ⟨kind, content, past'⟩ := bare_of_past (b := b) later further apart
  simp only [isBare, Bool.not_eq_true', Bool.or_eq_false_iff] at bare
  obtain ⟨⟨-, unopened⟩, unclosed⟩ := bare
  rw [if_neg (Bool.eq_false_iff.mp unopened), if_neg (Bool.eq_false_iff.mp unclosed),
    if_neg (Bool.eq_false_iff.mp undelimited)] at read
  rw [back] at kind content
  rw [read]
  exact ⟨⟨kind.trans (classify_alike alike), content ▸ alike⟩, past'⟩

theorem atToken_of_spelt {x : Lexeme} {s : String} {rest : Bytes} (proper : x.Proper) (spelt : x.Spelt s)
    (past : l.Past (Bytes.ofString s ++ rest)) (apart : x.isWord = true → ∀ b ∈ rest.head?, isBare b = false) :
    x.Read l.atToken.1 ∧ l.atToken.2.Past rest := by
  cases spelt with
  | open_ =>
    obtain ⟨l', later, read⟩ := atToken_of_cons (b := openParen) past
    rw [read]
    exact ⟨rfl, later⟩
  | close =>
    obtain ⟨l', later, read⟩ := atToken_of_cons (b := closeParen) past
    rw [read]
    exact ⟨rfl, later⟩
  | quoted s => exact atToken_of_quoted proper past
  | word alike => exact atToken_of_word proper alike past (apart rfl)

theorem front_of_spelt {x : Lexeme} {s : String} (proper : x.Proper) (spelt : x.Spelt s) :
    ∃ b more, Bytes.ofString s = b :: more ∧ isSeparator b = false ∧ b ≠ 0xEF := by
  cases spelt with
  | open_ => exact ⟨openParen, [], by decide, by decide, by decide⟩
  | close => exact ⟨closeParen, [], by decide, by decide, by decide⟩
  | quoted s =>
    have mark : Bytes.ofString "\"" = [quote] := by decide
    rw [Utf8.ofString_append, Utf8.ofString_append, mark]
    exact ⟨quote, _, rfl, by decide, by decide⟩
  | word alike =>
    obtain ⟨some_, plain⟩ := proper
    obtain ⟨b, more, bytes, bare, -, unmarked, -⟩ := bytes_of_word (Text.plain_of_alike alike plain)
      (Text.ne_of_alike alike some_)
    simp only [isBare, Bool.not_eq_true', Bool.or_eq_false_iff] at bare
    exact ⟨b, more, bytes, bare.1.1, unmarked⟩

theorem isLast_of_read {x : Lexeme} {t : Token} (read : x.Read t) : t.kind.isLast = false := by
  cases x with
  | open_ => exact congrArg Kind.isLast read
  | close => exact congrArg Kind.isLast read
  | quoted s => exact congrArg Kind.isLast read.1
  | word w => exact (congrArg Kind.isLast read.1).trans (classify_isLast w)

theorem scan_of_lexeme {x : Lexeme} {gap rest : Bytes} {s : String} (proper : x.Proper)
    (ready : l.Ready (gap ++ (Bytes.ofString s ++ rest))) (blank : ∀ b ∈ gap, isSeparator b = true)
    (spelt : x.Spelt s) (apart : x.isWord = true → ∀ b ∈ rest.head?, isBare b = false) :
    x.Read l.scan.1 ∧ l.scan.2.Past rest := by
  obtain ⟨b, more, bytes, ends, -⟩ := front_of_spelt proper spelt
  have front : ∀ c ∈ (Bytes.ofString s ++ rest).head?, isSeparator c = false := by
    rw [bytes]
    rintro c ⟨⟩
    exact ends
  obtain ⟨l', past, first⟩ := scan_of_ready ready
  obtain ⟨l'', past', second⟩ := afterMark_of_past past blank front
  rw [first, second]
  exact atToken_of_spelt proper spelt past' apart

theorem next_of_lexeme {x : Lexeme} {gap rest : Bytes} {s : String} (proper : x.Proper)
    (ready : l.Ready (gap ++ (Bytes.ofString s ++ rest))) (blank : ∀ b ∈ gap, isSeparator b = true)
    (spelt : x.Spelt s) (apart : x.isWord = true → ∀ b ∈ rest.head?, isBare b = false) :
    x.Read l.next.1 ∧ l.next.2.Past rest := by
  obtain ⟨read, past⟩ := scan_of_lexeme proper ready blank spelt apart
  have sound : decide (l.scan.1.kind = .faulty) = false := by
    have last := isLast_of_read read
    rw [decide_eq_false_iff_not]
    intro faulty
    rw [faulty, Kind.isLast] at last
    cases last
  rw [next, if_neg (Bool.eq_false_iff.mp ready.sound)]
  exact ⟨read, past.calm, past.view, sound, past.started⟩

theorem next_of_gap {gap : Bytes} (ready : l.Ready gap) (blank : ∀ b ∈ gap, isSeparator b = true) :
    l.next.1.kind = .ended := by
  obtain ⟨l', past, first⟩ := scan_of_ready ready
  rw [← List.append_nil gap] at past
  obtain ⟨l'', past', second⟩ := afterMark_of_past past blank nofun
  rw [next, if_neg (Bool.eq_false_iff.mp ready.sound), first, second]
  exact atToken_of_nil past'

theorem tokens_of_layout {xs : List Lexeme} (layout : Layout xs text) (proper : ∀ x ∈ xs, x.Proper)
    (ready : l.Ready text) : List.Forall₂ (fun x t => x.Read t) xs l.tokens.1 ∧ l.tokens.2.1.kind = .ended := by
  induction layout generalizing l with
  | ended blank =>
    have ended := next_of_gap ready blank
    have last : l.next.1.kind.isLast = true := by rw [ended, Kind.isLast]
    rw [tokens, dif_pos last]
    exact ⟨.nil, ended⟩
  | lexeme blank spelt apart later ih =>
    obtain ⟨front, others⟩ := List.forall_mem_cons.mp proper
    obtain ⟨read, past⟩ := next_of_lexeme front ready blank spelt apart
    obtain ⟨reads, ended⟩ := ih others past.ready
    rw [tokens, dif_neg (Bool.eq_false_iff.mp (isLast_of_read read))]
    exact ⟨.cons read reads, ended⟩

theorem unmarked_of_layout {xs : List Lexeme} (layout : Layout xs text) (proper : ∀ x ∈ xs, x.Proper) :
    text.head? ≠ some 0xEF := by
  have solid : ∀ gap : Bytes, (∀ b ∈ gap, isSeparator b = true) → gap.head? ≠ some 0xEF := by
    intro gap blank front
    exact absurd (blank 0xEF (List.mem_of_mem_head? front)) (by decide)
  cases layout with
  | ended blank => exact solid _ blank
  | @lexeme x xs gap rest s blank spelt apart later =>
    cases gap with
    | nil =>
      obtain ⟨b, more, bytes, -, unmarked⟩ := front_of_spelt (proper x List.mem_cons_self) spelt
      rw [List.nil_append, bytes]
      exact fun front => unmarked (Option.some.inj front)
    | cons b gap => exact solid (b :: gap) blank

end Lexer

def Lexeme.spelling : Lexeme → String
  | .open_ => "("
  | .close => ")"
  | .quoted s => "\"" ++ escaped s ++ "\""
  | .word w => w

def spaced (xs : List Lexeme) : Bytes := xs.flatMap fun x => Bytes.ofString x.spelling ++ [32]

theorem Lexeme.spelt_spelling (x : Lexeme) : x.Spelt x.spelling := by
  cases x with
  | open_ => exact .open_
  | close => exact .close
  | quoted s => exact .quoted s
  | word w => exact .word rfl

theorem layout_behind {gap : Bytes} (blank : ∀ b ∈ gap, Lexer.isSeparator b = true) (xs : List Lexeme) :
    Layout xs (gap ++ spaced xs) := by
  induction xs generalizing gap with
  | nil => exact .ended (by simpa [spaced] using blank)
  | cons x xs ih =>
    have space : ∀ b ∈ ([32] : Bytes), Lexer.isSeparator b = true := by
      intro b member
      obtain rfl := List.mem_singleton.mp member
      decide
    have apart : x.isWord = true → ∀ b ∈ ([32] ++ spaced xs).head?, Lexer.isBare b = false := by
      rintro - b ⟨⟩
      decide
    have whole : spaced (x :: xs) = Bytes.ofString x.spelling ++ ([32] ++ spaced xs) := by
      rw [spaced, List.flatMap_cons, List.append_assoc, spaced]
    rw [whole]
    exact .lexeme blank x.spelt_spelling apart (ih space)

theorem layout_spaced (xs : List Lexeme) : Layout xs (spaced xs) :=
  @layout_behind [] nofun xs

end RomLedger.Clr
