import RomLedger.Proofs.Clr.Portions
import RomLedger.Proofs.Clr.Printing
import RomLedger.Proofs.Clr.Rendering

/-!
Printing tokens and reading them again is the identity. Each token stands behind a separator; a quoted string
may have delimiters of either kind, with a backslash before each of them and before each blank. The strings
that cannot be printed so are those that end in a backslash, and no text at all holds such a string: the
backslash would have taken the meaning from the closing delimiter.
-/
namespace RomLedger.Clr

/-- A text with tokens in it, each behind one separator or more. -/
inductive Spaced : List Token → Bytes → Prop
  | ended {gap : Bytes} (blank : ∀ b ∈ gap, Lexer.isSeparator b = true) : Spaced [] gap
  | token {t : Token} {ts : List Token} {gap b rest : Bytes} (spaces : Spaces gap) (looks : Looks t b)
      (later : Spaced ts rest) : Spaced (t :: ts) (gap ++ (b ++ rest))

def Token.Sealed (t : Token) : Prop := t.kind = .quoted → Quotable t.text

instance (t : Token) : Decidable t.Sealed := inferInstanceAs (Decidable (_ → _))

namespace Spaced

variable {ts : List Token} {text : Bytes}

theorem head (spaced : Spaced ts text) : ∀ c ∈ text.head?, Lexer.isSeparator c = true := by
  cases spaced with
  | ended blank => exact fun c front => blank c (List.mem_of_mem_head? front)
  | @token t ts gap b rest spaces looks later =>
    obtain ⟨c, more, rfl⟩ := List.exists_cons_of_ne_nil spaces.some_
    rintro _ ⟨⟩
    exact spaces.blank c List.mem_cons_self

theorem print (spaced : Spaced ts text) : Print ts text := by
  induction spaced with
  | ended blank => exact .ended blank
  | token spaces looks later ih =>
    refine .token spaces.blank looks (fun _ c front => ?_) ih
    have separates := later.head c front
    simp [Lexer.isBare, separates]

theorem unmarked (spaced : Spaced ts text) : text.head? ≠ some 0xEF := by
  intro marked
  have separates := spaced.head 0xEF marked
  cases separates

end Spaced

theorem classify_keyword_iff (s : String) (k : Keyword) :
    classify s = .keyword k ↔ (s.toLower, k) ∈ keywords := by
  unfold classify
  constructor
  · intro keyword
    split at keyword
    · rename_i found
      cases keyword
      obtain ⟨before, behind, whole, -⟩ := List.lookup_eq_some_iff.mp found
      rw [whole]
      exact List.mem_append_right before List.mem_cons_self
    · cases keyword
  · intro member
    have found : keywords.lookup s.toLower = some k := keywords_lookup _ member
    rw [found]

theorem classify_bare_iff (s : String) : classify s = .bare ↔ ∀ k, (s.toLower, k) ∉ keywords := by
  constructor
  · intro bare k member
    have keyword := (classify_keyword_iff s k).mpr member
    rw [bare] at keyword
    cases keyword
  · intro missing
    cases kind : keywords.lookup s.toLower with
    | none => rw [classify, kind]
    | some k =>
      have keyword : classify s = .keyword k := by rw [classify, kind]
      exact absurd ((classify_keyword_iff s k).mp keyword) (missing k)

namespace Lexer

variable {d : UInt8}

theorem ne_backslash_of_special {c : UInt8} (delimits : isDelimiter d = true)
    (apart : (c == d || Bytes.isBlank c) = true) : c ≠ backslash := by
  rintro rfl
  rw [show (backslash == d || Bytes.isBlank backslash) = isSpecialIn d backslash from rfl,
    isSpecialIn_backslash delimits] at apart
  cases apart

theorem closing_of_walk (delimits : isDelimiter d = true) {escaping : Bool} {b : Bytes}
    (last : (Reader.walk (quoteStep d) escaping b).stop = .last) :
    ∃ inner, (Reader.walk (quoteStep d) escaping b).taken = inner ++ [d] ∧
      (inner = [] → escaping = false) ∧ inner.getLast? ≠ some backslash := by
  induction b generalizing escaping with
  | nil => cases last
  | cons c rest ih =>
    rw [Reader.walk] at last ⊢
    unfold quoteStep at last ⊢
    by_cases taken : (escaping && (c == d || Bytes.isBlank c)) = true
    · rw [if_pos taken] at last ⊢
      obtain ⟨-, special⟩ := Bool.and_eq_true_iff.mp taken
      obtain ⟨inner, whole, -, ends⟩ := ih last
      refine ⟨c :: inner, congrArg (c :: ·) whole, (absurd · (List.cons_ne_nil c inner)), fun behind => ?_⟩
      rcases Utf8.getLast?_cons_cases behind with ⟨-, only⟩ | later
      · exact ne_backslash_of_special delimits special only
      · exact ends later
    · rw [if_neg taken] at last ⊢
      by_cases closes : (c == d) = true
      · rw [if_pos closes]
        obtain rfl := beq_iff_eq.mp closes
        refine ⟨[], rfl, fun _ => ?_, (Option.some_ne_none _).symm⟩
        simpa [closes] using taken
      · rw [if_neg closes] at last ⊢
        obtain ⟨inner, whole, start, ends⟩ := ih last
        refine ⟨c :: inner, congrArg (c :: ·) whole, (absurd · (List.cons_ne_nil c inner)), fun behind => ?_⟩
        rcases Utf8.getLast?_cons_cases behind with ⟨none_, only⟩ | later
        · simp [only] at start
          exact start none_
        · exact ends later

theorem getLast?_unescape (d : UInt8) (b : Bytes) : (unescape d b).getLast? = b.getLast? := by
  fun_induction unescape d b with
  | case1 => rfl
  | case2 b => rfl
  | case3 b c rest special ih => rw [List.getLast?_cons, ih, List.getLast?_cons_cons, List.getLast?_cons]
  | case4 b c rest plain ih => rw [List.getLast?_cons, ih, List.getLast?_cons_cons, List.getLast?_cons]; rfl

theorem stop_of_over {failing : Bool} {s : Reader.Stop} (last : s.over failing = .last) : s = .last := by
  cases s with
  | last => rfl
  | left | failed => cases last
  | ended => cases failing <;> cases last

theorem sealed_quoted (delimits : isDelimiter d = true) (l : Lexer) : (l.quoted d).1.Sealed := by
  obtain ⟨taken, stop, -, -, -⟩ := Reader.run_follows (quoteStep d) false l.reader
  have value : UInt8.ofNat '\\'.toNat = backslash := by decide
  unfold Lexer.quoted
  dsimp only
  split
  · rename_i last
    obtain ⟨inner, whole, -, ends⟩ := closing_of_walk delimits (stop_of_over (stop.symm.trans last))
    rw [List.nil_append, whole] at taken
    rw [taken, List.dropLast_concat]
    rintro - behind
    have byte := Utf8.last_of_lossy (by decide) (by decide) behind
    rw [getLast?_unescape, value] at byte
    exact ends byte
  · exact nofun
  · exact nofun

theorem sealed_bare (b : UInt8) (l : Lexer) : (l.bare b).1.Sealed := by
  unfold bare
  dsimp only
  split
  · exact nofun
  · intro quoted
    unfold classify at quoted
    split at quoted <;> cases quoted

theorem sealed_atToken (l : Lexer) : l.atToken.1.Sealed := by
  unfold atToken
  split
  · exact nofun
  · exact nofun
  · dsimp only
    split
    · exact nofun
    · split
      · exact nofun
      · split
        · rename_i delimits
          exact sealed_quoted delimits _
        · exact sealed_bare _ _

theorem sealed_next (l : Lexer) : l.next.1.Sealed := by
  unfold next scan
  split
  · exact nofun
  · dsimp only
    split
    · exact sealed_atToken _
    · split
      · exact nofun
      · exact sealed_atToken _

end Lexer

/-- Tokens that are printed are read again, one for one and up to the end: words as keywords where they are such
in small letters, quoted strings never. And of no text, in whatever portions it comes and whether it comes to its
end or not, any call reads a quoted string that ends in a backslash. -/
theorem reads_printed_tokens :
    (∀ (f : Feed) (ts : List Token), f.failing = false → Spaced ts f.rest → (∀ t ∈ ts, t.Sealed) →
      (Lexer.ofReader (.ofFeed f)).tokens.1.map Token.placeless = ts ∧
        (Lexer.ofReader (.ofFeed f)).tokens.2.1.kind = .ended) ∧
      (∀ s k, classify s = .keyword k ↔ (s.toLower, k) ∈ keywords) ∧
      (∀ s, classify s = .bare ↔ ∀ k, (s.toLower, k) ∉ keywords) ∧
      ∀ (f : Feed) (n : Nat), ((Lexer.ofReader (.ofFeed f)).after n).next.1.Sealed := by
  refine ⟨fun f ts calm spaced sound => ?_, classify_keyword_iff, classify_bare_iff,
    fun f n => Lexer.sealed_next _⟩
  apply Lexer.tokens_of_lexes calm
  rw [Lexer.unmarked_of_head spaced.unmarked]
  exact Lexer.lexes_of_print spaced.print sound

def printedTokens : List Token :=
  [⟨.keyword .rom, "RoM", 0⟩, ⟨.openBrace, "(", 0⟩, ⟨.bare, "it's", 0⟩, ⟨.quoted, "rom \\'s", 0⟩,
    ⟨.closeBrace, ")", 0⟩]

def printedText : Bytes := Bytes.ofString " RoM=(\tit's 'rom\\ \\\\'s' )"

theorem spaced_printed : Spaced printedTokens printedText := by
  have spaces (b : UInt8) (separates : Lexer.isSeparator b = true) : Spaces [b] :=
    ⟨List.cons_ne_nil b [], by simpa using separates⟩
  have rom : Looks ⟨.keyword .rom, "RoM", 0⟩ (Bytes.ofString "RoM") := by
    have kind : classify "RoM" = .keyword .rom := by decide +kernel
    rw [← kind]
    exact .word ⟨82, [111, 77], by decide, by decide, by decide +kernel⟩
  have its : Looks ⟨.bare, "it's", 0⟩ (Bytes.ofString "it's") := by
    have kind : classify "it's" = .bare := by decide +kernel
    rw [← kind]
    exact .word ⟨105, [116, 39, 115], by decide, by decide, by decide +kernel⟩
  have ended : Spaced [] [] := .ended nofun
  have close := Spaced.token (spaces 32 rfl) .closeBrace ended
  have string := Spaced.token (spaces 32 rfl) (.quoted (d := 39) rfl "rom \\'s") close
  have word := Spaced.token (spaces 9 rfl) its string
  have open_ := Spaced.token (spaces 61 rfl) .openBrace word
  have whole := Spaced.token (spaces 32 rfl) rom open_
  exact Eq.subst (motive := Spaced printedTokens) (by decide +kernel) whole

theorem reads_printed_byte_by_byte :
    Spaced printedTokens printedText ∧ (∀ t ∈ printedTokens, t.Sealed) ∧
      (Lexer.ofReader (.ofFeed (.steady printedText (some 1) none))).tokens.1.map Token.placeless = printedTokens ∧
      (Lexer.ofReader (.ofFeed (.steady printedText (some 1) none))).tokens.2.1.kind = .ended := by
  have sound : ∀ t ∈ printedTokens, t.Sealed := by decide
  exact ⟨spaced_printed, sound,
    reads_printed_tokens.1 (.steady printedText (some 1) none) printedTokens rfl spaced_printed sound⟩

end RomLedger.Clr
