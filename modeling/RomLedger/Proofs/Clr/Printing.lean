import RomLedger.Proofs.Clr.Scanning

/- Tokens printed in a text are cut from it again, one for one. A quoted string may stand between delimiters
   of either kind; a word may be spelt in any way, and it is a keyword if it is spelt as one. -/
namespace RomLedger.Clr

def Word (s : String) : Prop :=
  ∃ b more, Bytes.ofString s = b :: more ∧ Lexer.isDelimiter b = false ∧ ∀ c ∈ b :: more, Lexer.isBare c = true

inductive Looks : Token → Bytes → Prop
  | openBrace : Looks ⟨.openBrace, "(", 0⟩ [Lexer.openParen]
  | closeBrace : Looks ⟨.closeBrace, ")", 0⟩ [Lexer.closeParen]
  | quoted {d : UInt8} (delimits : Lexer.isDelimiter d = true) (s : String) :
      Looks ⟨.quoted, s, 0⟩ (d :: (Lexer.escapeIn d (Bytes.ofString s) ++ [d]))
  | word {s : String} (word : Word s) : Looks ⟨classify s, s, 0⟩ (Bytes.ofString s)

/-- A text with tokens in it, each behind some separators. -/
inductive Print : List Token → Bytes → Prop
  | ended {gap : Bytes} (blank : ∀ b ∈ gap, Lexer.isSeparator b = true) : Print [] gap
  | token {t : Token} {ts : List Token} {gap b rest : Bytes}
      (blank : ∀ b ∈ gap, Lexer.isSeparator b = true) (looks : Looks t b)
      (apart : t.kind.isSpelt = true → ∀ c ∈ rest.head?, Lexer.isBare c = false) (later : Print ts rest) :
      Print (t :: ts) (gap ++ (b ++ rest))

namespace Lexer

variable {d : UInt8} {s : String} {rest text gap b : Bytes} {t : Token} {ts : List Token}

theorem isSeparator_of_isBare {b : UInt8} (bare : isBare b = true) :
    isSeparator b = false ∧ (b == openParen) = false ∧ (b == closeParen) = false := by
  simpa [isBare, and_assoc] using bare

theorem isSeparator_of_isDelimiter {b : UInt8} (delimits : isDelimiter b = true) :
    isSeparator b = false ∧ (b == openParen) = false ∧ (b == closeParen) = false := by
  simp only [isDelimiter, Bool.or_eq_true, beq_iff_eq] at delimits
  rcases delimits with rfl | rfl <;> decide

theorem cut_of_solid {b : UInt8} (solid : isSeparator b = false) : cut (b :: rest) = cutHere (b :: rest) := by
  rw [cut, List.dropWhile_cons_of_neg (Bool.eq_false_iff.mp solid)]

theorem cut_quoted (delimits : isDelimiter d = true) (quotable : Quotable s) (rest : Bytes) :
    cut (d :: (escapeIn d (Bytes.ofString s) ++ [d]) ++ rest) = (⟨.quoted, s, 0⟩, rest) := by
  obtain ⟨solid, unopened, unclosed⟩ := isSeparator_of_isDelimiter delimits
  have inside := walk_escapeIn delimits rest (b := Bytes.ofString s) (fun _ => rfl) (last_ofString quotable)
  rw [List.cons_append, List.append_assoc, List.singleton_append, cut_of_solid solid, cutHere,
    if_neg (Bool.eq_false_iff.mp unopened), if_neg (Bool.eq_false_iff.mp unclosed), if_pos delimits, cutQuoted,
    inside]
  dsimp only
  rw [List.dropLast_concat, unescape_escapeIn delimits, Utf8.lossy_ofString]

theorem cut_word (word : Word s) (apart : ∀ c ∈ rest.head?, isBare c = false) :
    cut (Bytes.ofString s ++ rest) = (⟨classify s, s, 0⟩, rest) := by
  obtain ⟨b, more, bytes, undelimited, bare⟩ := word
  obtain ⟨front, later⟩ := List.forall_mem_cons.mp bare
  obtain ⟨solid, unopened, unclosed⟩ := isSeparator_of_isBare front
  rw [bytes, List.cons_append, cut_of_solid solid, cutHere, if_neg (Bool.eq_false_iff.mp unopened),
    if_neg (Bool.eq_false_iff.mp unclosed), if_neg (Bool.eq_false_iff.mp undelimited), cutBare,
    takeWhile_front later apart, dropWhile_front later apart, ← bytes, Utf8.lossy_ofString]

theorem cut_looks (looks : Looks t b) (quotable : t.kind = .quoted → Quotable t.text)
    (apart : t.kind.isSpelt = true → ∀ c ∈ rest.head?, isBare c = false) : cut (b ++ rest) = (t, rest) := by
  cases looks with
  | openBrace => rfl
  | closeBrace => rfl
  | quoted delimits s => exact cut_quoted delimits (quotable rfl) rest
  | word word =>
    apply cut_word word
    apply apart
    exact isSpelt_classify _

theorem isLast_of_looks (looks : Looks t b) : t.kind.isLast = false := by
  cases looks with
  | openBrace | closeBrace | quoted => rfl
  | word word => exact classify_isLast _

theorem lexes_of_print (print : Print ts text) (quotable : ∀ t ∈ ts, t.kind = .quoted → Quotable t.text) :
    Lexes text ts := by
  induction print with
  | ended blank => exact ⟨_, .nil, blank⟩
  | token blank looks apart later ih =>
    obtain ⟨front, others⟩ := List.forall_mem_cons.mp quotable
    have first := (cut_gap blank _).trans (cut_looks looks front apart)
    obtain ⟨gap, scans, ends⟩ := ih others
    exact ⟨gap, .cons first (isLast_of_looks looks) scans, ends⟩

theorem unmarked_of_head (unmarked_ : text.head? ≠ some 0xEF) : unmarked text = text :=
  (walk_mark unmarked_).2

end Lexer

section

variable {w : String} {t : Token} {ts : List Token} {xs : List Lexeme}

theorem quotable_of_reads (reads : List.Forall₂ (fun x t => x.Read t) xs ts) (proper : ∀ x ∈ xs, x.Proper) :
    ∀ t ∈ ts, t.kind = .quoted → Quotable t.text := by
  induction reads with
  | nil => nofun
  | @cons x t xs ts front later ih =>
    obtain ⟨first, others⟩ := List.forall_mem_cons.mp proper
    refine List.forall_mem_cons.mpr ⟨?_, ih others⟩
    intro kind
    cases x with
    | open_ => cases front.symm.trans kind
    | close => cases front.symm.trans kind
    | quoted s =>
      obtain ⟨-, rfl⟩ := front
      exact first
    | word w =>
      have spelt := front.1.symm.trans kind
      unfold classify at spelt
      split at spelt <;> cases spelt

theorem head_of_print {text : Bytes} (proper : (Lexeme.word w).Proper)
    (read : (Lexeme.word w).Read t) (print : Print (t :: ts) text) : text.head? ≠ some 0xEF := by
  obtain ⟨some_, plain⟩ := proper
  cases print with
  | @token _ _ gap b rest blank looks apart later =>
    cases gap with
    | cons c gap =>
      have separates := blank c List.mem_cons_self
      intro marked
      rw [List.cons_append, List.head?_cons, Option.some.injEq] at marked
      subst marked
      cases separates
    | nil =>
      cases looks with
      | openBrace | closeBrace => exact nofun
      | quoted delimits s =>
        intro marked
        rw [List.nil_append, List.cons_append, List.head?_cons, Option.some.injEq] at marked
        subst marked
        cases delimits
      | @word s word =>
        obtain ⟨b, more, bytes, -, -, unmarked, -⟩ := bytes_of_word (Text.plain_of_alike read.2 plain)
          (Text.ne_of_alike read.2 some_)
        rw [List.nil_append, bytes]
        exact fun marked => unmarked (Option.some.inj marked)

end

theorem print_spaced {ts : List Token} {bs : List Bytes} (looks : List.Forall₂ Looks ts bs) {gap : Bytes}
    (blank : ∀ b ∈ gap, Lexer.isSeparator b = true) : Print ts (gap ++ bs.flatMap (· ++ [32])) := by
  induction looks generalizing gap with
  | nil => exact .ended (by simpa using blank)
  | @cons t b ts bs front later ih =>
    have space : ∀ c ∈ ([32] : Bytes), Lexer.isSeparator c = true := by
      intro c member
      obtain rfl := List.mem_singleton.mp member
      decide
    have apart : t.kind.isSpelt = true → ∀ c ∈ ([32] ++ bs.flatMap (· ++ [32])).head?, Lexer.isBare c = false := by
      rintro - c ⟨⟩
      decide
    rw [List.flatMap_cons, List.append_assoc]
    exact .token blank front apart (ih space)

namespace Lexeme

def token : Lexeme → Token
  | .open_ => ⟨.openBrace, "(", 0⟩
  | .close => ⟨.closeBrace, ")", 0⟩
  | .quoted s => ⟨.quoted, s, 0⟩
  | .word w => ⟨classify w, w, 0⟩

/-- A lexeme as it is written with delimiters of one kind. -/
def bytes (d : UInt8) : Lexeme → Bytes
  | .open_ => [Lexer.openParen]
  | .close => [Lexer.closeParen]
  | .quoted s => d :: (Lexer.escapeIn d (Bytes.ofString s) ++ [d])
  | .word w => Bytes.ofString w

theorem read_token (x : Lexeme) : x.Read x.token := by
  cases x with
  | open_ | close => rfl
  | quoted s => exact ⟨rfl, rfl⟩
  | word w => exact ⟨rfl, rfl⟩

theorem looks_token {d : UInt8} (delimits : Lexer.isDelimiter d = true) {x : Lexeme} (proper : x.Proper) :
    Looks x.token (x.bytes d) := by
  cases x with
  | open_ => exact .openBrace
  | close => exact .closeBrace
  | quoted s => exact .quoted delimits s
  | word w =>
    obtain ⟨some_, plain⟩ := proper
    obtain ⟨b, more, bytes, bare, undelimited, -, later⟩ := bytes_of_word plain some_
    exact .word ⟨b, more, bytes, undelimited, List.forall_mem_cons.mpr ⟨bare, later⟩⟩

end Lexeme

theorem print_lexemes {d : UInt8} (delimits : Lexer.isDelimiter d = true) {xs : List Lexeme}
    (proper : ∀ x ∈ xs, x.Proper) :
    List.Forall₂ (fun x t => x.Read t) xs (xs.map Lexeme.token) ∧
      Print (xs.map Lexeme.token) ((xs.map (Lexeme.bytes d)).flatMap (· ++ [32])) := by
  constructor
  · rw [List.forall₂_map_right_iff, List.forall₂_same]
    exact fun x _ => x.read_token
  · have looks : List.Forall₂ Looks (xs.map Lexeme.token) (xs.map (Lexeme.bytes d)) := by
      rw [List.forall₂_map_left_iff, List.forall₂_map_right_iff, List.forall₂_same]
      exact fun x member => x.looks_token delimits (proper x member)
    exact @print_spaced _ _ looks [] nofun

end RomLedger.Clr
