import RomLedger.Proofs.Clr.Mark
import RomLedger.Proofs.Clr.Tokens

/- Text between the statements of a catalog. Whatever it is, it is passed over as long as no word of it can be
   the keyword of a block and no quoted string begins in it, and only its parentheses are counted. All that
   has to be known of a word is its last byte: the keywords of blocks end in one of two letters. -/
namespace RomLedger.Clr

def idling (c : Catalog) : Nat → State
  | 0 => ⟨c, .at_ .top⟩
  | d + 1 => ⟨c, .skipping d .top⟩

def depthAfter (d : Nat) (b : UInt8) : Nat :=
  if b == Lexer.openParen then d + 1 else if b == Lexer.closeParen then d - 1 else d

def mayOpen (d : Nat) (last : Option UInt8) : Bool :=
  d == 0 && last.any fun b => b == 101 || b == 69 || b == 111 || b == 79

/-- The depth behind a text that is passed over; `last` is the last byte of the word it goes on with, if it does. -/
def passed : Nat → Option UInt8 → Bytes → Option Nat
  | d, last, [] => if mayOpen d last then none else some d
  | d, last, b :: rest =>
    if Lexer.isBare b then
      if last.isNone && Lexer.isDelimiter b then none else passed d (some b) rest
    else if mayOpen d last then none
    else passed (depthAfter d b) none rest

variable {c : Catalog} {d d' : Nat} {word rest text tail : Bytes} {ts : List Token} {s : State}

theorem run_idling_single {t : Token} (stepped : step (idling c d) t = .ok (idling c d'))
    (through : run (idling c d') ts = .ok s) : run (idling c d) (t :: ts) = .ok s :=
  run_cons.mpr ⟨idling c d', stepped, through⟩

theorem mayOpen_of_lower : ∀ n < 128, (Char.ofNat n).toLower = 'e' ∨ (Char.ofNat n).toLower = 'o' →
    Char.ofNat n ≠ '\x00' ∧ mayOpen 0 (some (UInt8.ofNat n)) = true := by
  decide

theorem mayOpen_of_block {k : Keyword} (keyword : classify (Utf8.lossy word) = .keyword k)
    (opens : (Place.top.block? k).isSome = true) : mayOpen 0 word.getLast? = true := by
  have named := (classify_keyword_iff _ k).mp keyword
  have ends : ∀ e ∈ keywords, (Place.top.block? e.2).isSome = true →
      e.1.toList.getLast? = some 'e' ∨ e.1.toList.getLast? = some 'o' := by
    simp [keywords, Place.block?]
  have last := ends _ named opens
  simp only [String.toLower, String.toList_map, List.getLast?_map, Option.map_eq_some_iff] at last
  obtain ⟨l, last, letter⟩ : ∃ l, (Utf8.lossy word).toList.getLast? = some l ∧
      (l.toLower = 'e' ∨ l.toLower = 'o') := by
    rcases last with ⟨l, last, lower⟩ | ⟨l, last, lower⟩
    · exact ⟨l, last, .inl lower⟩
    · exact ⟨l, last, .inr lower⟩
  have plain : Text.isPlain l = true := by
    rw [← Text.isPlain_toLower]
    rcases letter with lower | lower <;> rw [lower] <;> rfl
  have ascii := Text.toNat_of_isPlain plain
  rw [← Char.ofNat_toNat l] at letter
  obtain ⟨proper, may⟩ := mayOpen_of_lower l.toNat ascii letter
  rw [Char.ofNat_toNat] at proper
  rw [Utf8.last_of_lossy ascii proper last]
  exact may

theorem step_word_idling (quiet : mayOpen d word.getLast? = false) (line : Nat) :
    step (idling c d) ⟨classify (Utf8.lossy word), Utf8.lossy word, line⟩ = .ok (idling c d) := by
  cases kind : classify (Utf8.lossy word) with
  | keyword k =>
    cases d with
    | succ d => rfl
    | zero =>
      have closed : Place.top.block? k = none := by
        rw [← Option.not_isSome_iff_eq_none]
        intro opens
        rw [mayOpen_of_block kind opens] at quiet
        cases quiet
      simp [step, idling, stepAt, Place.field?, closed]
  | bare => cases d <;> rfl
  | openBrace | closeBrace | quoted | ended | faulty =>
    have spelt := isSpelt_classify (Utf8.lossy word)
    rw [kind] at spelt
    cases spelt

theorem lexes_mark {b : UInt8} (bare : Lexer.isBare b = false)
    (later : ∃ ts, Lexer.Lexes rest ts ∧ run (idling c (depthAfter d b)) ts = .ok s) :
    ∃ ts, Lexer.Lexes (b :: rest) ts ∧ run (idling c d) ts = .ok s := by
  obtain ⟨ts, ⟨gap, scans, blank⟩, through⟩ := later
  by_cases opens : b = Lexer.openParen
  · subst opens
    refine ⟨⟨.openBrace, "(", 0⟩ :: ts, ⟨gap, .cons rfl rfl scans, blank⟩, run_idling_single ?_ through⟩
    cases d <;> rfl
  · by_cases closes : b = Lexer.closeParen
    · subst closes
      refine ⟨⟨.closeBrace, ")", 0⟩ :: ts, ⟨gap, .cons rfl rfl scans, blank⟩, run_idling_single ?_ through⟩
      cases d with
      | zero => rfl
      | succ d => cases d <;> rfl
    · have separates : ∀ x ∈ [b], Lexer.isSeparator x = true := by
        intro x member
        rw [List.mem_singleton.mp member]
        simpa [Lexer.isBare, opens, closes] using bare
      have same : depthAfter d b = d := by simp [depthAfter, opens, closes]
      rw [same] at through
      exact ⟨ts, (Lexer.lexes_gap separates).mpr ⟨gap, scans, blank⟩, through⟩

theorem cut_whole_word (bare : ∀ b ∈ word, Lexer.isBare b = true)
    (undelimited : ∀ b ∈ word.head?, Lexer.isDelimiter b = false) (some_ : word ≠ [])
    (apart : ∀ b ∈ rest.head?, Lexer.isBare b = false) :
    Lexer.cut (word ++ rest) = (⟨classify (Utf8.lossy word), Utf8.lossy word, 0⟩, rest) := by
  obtain ⟨b, more, rfl⟩ := List.exists_cons_of_ne_nil some_
  obtain ⟨front, later⟩ := List.forall_mem_cons.mp bare
  rw [List.cons_append, Lexer.cut_of_bare front (undelimited b rfl), Lexer.cutBare, takeWhile_front later apart,
    dropWhile_front later apart]

theorem lexes_word (bare : ∀ b ∈ word, Lexer.isBare b = true)
    (undelimited : ∀ b ∈ word.head?, Lexer.isDelimiter b = false) (quiet : mayOpen d word.getLast? = false)
    (apart : ∀ b ∈ rest.head?, Lexer.isBare b = false)
    (later : ∃ ts, Lexer.Lexes rest ts ∧ run (idling c d) ts = .ok s) :
    ∃ ts, Lexer.Lexes (word ++ rest) ts ∧ run (idling c d) ts = .ok s := by
  by_cases empty : word = []
  · subst empty
    exact later
  · obtain ⟨ts, ⟨gap, scans, blank⟩, through⟩ := later
    exact ⟨_, ⟨gap, .cons (cut_whole_word bare undelimited empty apart) (Lexer.classify_isLast _) scans, blank⟩,
      run_idling_single (step_word_idling quiet 0) through⟩

theorem lexes_of_passed (bare : ∀ b ∈ word, Lexer.isBare b = true)
    (undelimited : ∀ b ∈ word.head?, Lexer.isDelimiter b = false)
    (passes : passed d word.getLast? text = some d') :
    ∃ ts, Lexer.Lexes (word ++ text) ts ∧ run (idling c d) ts = .ok (idling c d') := by
  induction text generalizing d word with
  | nil =>
    rw [passed] at passes
    split at passes
    · cases passes
    · rename_i quiet
      cases passes
      exact lexes_word bare undelimited (Bool.eq_false_iff.mpr quiet) (by simp)
        ⟨[], ⟨[], .nil, List.forall_mem_nil _⟩, rfl⟩
  | cons b rest ih =>
    rw [passed] at passes
    split at passes
    · rename_i goes
      split at passes
      · cases passes
      · rename_i starts
        have first : ∀ x ∈ (word ++ [b]).head?, Lexer.isDelimiter x = false := by
          cases word with
          | nil => simpa using starts
          | cons a more => exact undelimited
        have longer := ih (List.forall_mem_append.mpr ⟨bare, List.forall_mem_singleton.mpr goes⟩) first
          (by simpa using passes)
        simpa using longer
    · rename_i stops
      split at passes
      · cases passes
      · rename_i quiet
        have apart : ∀ x ∈ (b :: rest).head?, Lexer.isBare x = false := by
          rintro _ ⟨⟩
          exact Bool.eq_false_iff.mpr stops
        have later := ih (List.forall_mem_nil _) (by simp) passes
        exact lexes_word bare undelimited (Bool.eq_false_iff.mpr quiet) apart
          (lexes_mark (Bool.eq_false_iff.mpr stops) later)

theorem parse_behind {f : Feed} {front : Bytes} {written : Catalog} (calm : f.failing = false)
    (whole : f.rest = front ++ tail) (unmarked : (front ++ tail).head? ≠ some 0xEF)
    (passes : passed 0 none front = some d) (lexes : Lexer.Lexes tail ts)
    (apart : ∀ b ∈ tail.head?, Lexer.isBare b = false)
    (through : run (idling .blank d) ts = .ok (idling written 0)) :
    parse f = .ok (written.normalize, Sha1.digest f.rest) := by
  obtain ⟨us, front_lexes, front_through⟩ := lexes_of_passed (c := .blank) (List.forall_mem_nil _)
    (by simp) passes
  refine (parse_iff calm).mpr ⟨rfl, us ++ ts, written, ?_, run_append.mpr ⟨_, front_through, through⟩, rfl⟩
  rw [whole, Lexer.unmarked_of_head unmarked]
  exact front_lexes.append lexes apart

end RomLedger.Clr
